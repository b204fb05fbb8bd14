import Canboat.Input.FromJson
import Canboat.Output.JsonKeys

/-!
# Reading back what is written

The text of a number in a line, bare or in an object, is read as that number, and a line names
the definition that its keys are the identifiers of.
-/

namespace Canboat

open Json AnalyzerJson
open Binary64 (digits)

/-! ## Numbers in a line -/

def NoBraces (s : List Char) : Prop := '\x7b' ∉ s ∧ '\x7d' ∉ s

theorem NoBraces.append {s t : List Char} (hs : NoBraces s) (ht : NoBraces t) :
    NoBraces (s ++ t) := by
  simp only [NoBraces, List.mem_append, not_or] at *
  exact ⟨⟨hs.1, ht.1⟩, hs.2, ht.2⟩

/-- The keys after the value in an object for a number. -/
def objectKeys : List (List Char) :=
  ["name".toList, "bytes".toList, "bits".toList, "key".toList]

/-- A member of such an object. -/
structure PlainMember (p : Piece) : Prop where
  sep : p.sep = [',']
  key : p.key ∈ objectKeys
  noBraces : NoBraces p.value
  passes : ∀ key, IsKey key → PassesValue key p.value

/-- The text of a number, bare or in an object with what else is said of it. -/
inductive NumberText (n : ℕ) : List Char → Prop
  | bare : NumberText n (digits n)
  | object {ps : List Piece} (hps : ∀ p ∈ ps, PlainMember p) :
      NumberText n ('\x7b' :: ("\"value\":".toList ++ digits n ++ ps.flatMap Piece.text ++ ['\x7d']))

theorem passesValue_digits (key : List Char) (n : ℕ) : PassesValue key (digits n) :=
  passesValue_of_noQuote fun h => digit_ne (digits_digits n _ h) rfl rfl

theorem objectKeys_plain : ∀ k ∈ "value".toList :: objectKeys, ∀ c ∈ k, isPlain c = true := by
  decide

theorem NumberText.passes {n : ℕ} {t key : List Char} (ht : NumberText n t) (hkey : IsKey key)
    (hnot : key ∉ "value".toList :: objectKeys) : PassesValue key t := by
  cases ht with
  | bare => exact passesValue_digits key n
  | @object ps hps =>
      rw [List.mem_cons, not_or] at hnot
      have hpassed : ∀ p ∈ ps, p.Passed key := by
        intro p hp
        obtain ⟨hsep, hmem, -, hpasses⟩ := hps p hp
        refine ⟨⟨',', [], hsep, by decide, .nil⟩, objectKeys_plain _ (List.mem_cons_of_mem _ hmem),
          ?_, hpasses key hkey⟩
        rintro rfl
        exact hnot.2 hmem
      have h := passesValue_object hkey (k := "value".toList)
        (objectKeys_plain _ List.mem_cons_self) (Ne.symm hnot.1) (passesValue_digits key n) ps hpassed
      rw [show "\"value\":".toList = '"' :: ("value".toList ++ ['"', ':']) from rfl]
      simpa only [List.cons_append, List.append_assoc, List.nil_append] using h

theorem noBraces_pieces {ps : List Piece} (hps : ∀ p ∈ ps, PlainMember p) :
    NoBraces (ps.flatMap Piece.text) := by
  have hkeys : ∀ k ∈ objectKeys, NoBraces k := by
    unfold NoBraces
    decide
  have hpiece : ∀ p ∈ ps, NoBraces p.text := by
    intro p hp
    obtain ⟨hsep, hmem, hvalue, -⟩ := hps p hp
    have h : p.text = [',', '"'] ++ (p.key ++ (['"', ':'] ++ p.value)) := by
      rw [Piece.text, hsep]
      rfl
    rw [h]
    refine NoBraces.append ?_ ((hkeys _ hmem).append (NoBraces.append ?_ hvalue))
    · exact ⟨by decide, by decide⟩
    · exact ⟨by decide, by decide⟩
  constructor
  · intro h
    obtain ⟨p, hp, hmem⟩ := List.mem_flatMap.mp h
    exact (hpiece p hp).1 hmem
  · intro h
    obtain ⟨p, hp, hmem⟩ := List.mem_flatMap.mp h
    exact (hpiece p hp).2 hmem

/-- The number is read back. -/
theorem NumberText.int_eq {n : ℕ} {t : List Char} (ht : NumberText n t)
    {msg key r : List Char} (hmsg : afterKey? key msg = some (t ++ r)) (hr : EndsValue r)
    (hn : n < 9223372036854775808) : int msg key = some (Int64.ofNat n) := by
  obtain ⟨c, r, rfl, hc⟩ := hr
  cases ht with
  | bare =>
      refine int_digits hmsg ?_ hn
      simp only [List.mem_cons, List.not_mem_nil, or_false] at hc
      rcases hc with rfl | rfl <;> rfl
  | @object ps hps =>
      obtain ⟨hopen, hclose⟩ := noBraces_pieces hps
      refine int_object (s := ps.flatMap Piece.text) (t := c :: r) ?_ ?_ hopen hclose hn
      · rw [hmsg]
        simp only [List.append_assoc, List.cons_append, List.nil_append]
      · cases ps with
        | nil => exact Or.inl rfl
        | cons p ps =>
            refine Or.inr ⟨'"' :: (p.key ++ '"' :: ':' :: p.value) ++ ps.flatMap Piece.text, ?_⟩
            rw [List.flatMap_cons, Piece.text, (hps p List.mem_cons_self).sep]
            rfl

/-! ## The text of a claim's field -/

/-- Escaping adds no bracket. -/
theorem not_mem_escape {b c : Char} (hb : b ∈ ['\x7b', '\x7d', '[', ']']) (hne : c ≠ b)
    (slash : Bool) : b ∉ escape slash c := by
  have hhex : ∀ b ∈ ['\x7b', '\x7d', '[', ']'], ∀ n < 16, hexDigit false n ≠ b := by decide
  have hother : ∀ {s : List Char}, (∀ b ∈ ['\x7b', '\x7d', '[', ']'], b ∉ s) → b ∉ s :=
    fun h => h b hb
  unfold escape
  split_ifs with hquote hslash h08 htab hnl h0c hcr hcontrol hsol
  iterate 7 exact hother (by decide)
  · have h1 := hhex b hb (c.toNat / 16) (by omega)
    have h2 := hhex b hb (c.toNat % 16) (by omega)
    have hstart : b ∉ ['\\', 'u', '0', '0'] := hother (by decide)
    simp only [List.mem_cons, List.not_mem_nil, or_false, not_or] at hstart ⊢
    exact ⟨hstart.1, hstart.2.1, hstart.2.2.1, hstart.2.2.2, h1.symm, h2.symm⟩
  · exact hother (by decide)
  · rw [List.mem_singleton]
    exact hne.symm

theorem not_mem_writeJsonString {b : Char} (hb : b ∈ ['\x7b', '\x7d', '[', ']']) {s : List Char}
    (hs : b ∉ s) : b ∉ writeJsonString s := by
  have hquote : b ≠ '"' := by
    rintro rfl
    exact absurd hb (by decide)
  rw [writeJsonString, writeJsonStringWithTable, List.mem_cons, List.mem_append,
    List.mem_singleton, List.mem_flatMap]
  rintro (h | ⟨c, hc, hmem⟩ | h)
  · exact hquote h
  · exact not_mem_escape hb (fun heq => hs (heq ▸ hc)) false hmem
  · exact hquote h

theorem noBraces_writeJsonString {s : List Char} (hs : NoBraces s) :
    NoBraces (writeJsonString s) :=
  ⟨not_mem_writeJsonString (by decide) hs.1, not_mem_writeJsonString (by decide) hs.2⟩

theorem noBraces_of_all {s : List Char} (hs : ∀ c ∈ s, c ≠ '\x7b' ∧ c ≠ '\x7d') : NoBraces s :=
  ⟨fun h => (hs _ h).1 rfl, fun h => (hs _ h).2 rfl⟩

theorem noBraces_hexString (bytes : List UInt8) : NoBraces (hexString bytes) := by
  have hhex : ∀ n < 16, hexDigit true n ≠ '\x7b' ∧ hexDigit true n ≠ '\x7d' := by decide
  have hbyte : ∀ b : UInt8, ∀ c ∈ hexByte b, c ≠ '\x7b' ∧ c ≠ '\x7d' := by
    intro b c hc
    have hb := b.toNat_lt
    simp only [hexByte, List.mem_cons, List.not_mem_nil, or_false] at hc
    rcases hc with rfl | rfl
    · exact hhex _ (by omega)
    · exact hhex _ (by omega)
  have hjoined : NoBraces ([' '].intercalate (bytes.map hexByte)) := by
    refine noBraces_of_all ?_
    induction bytes with
    | nil => rintro _ ⟨⟩
    | cons b bytes ih =>
        intro c hc
        cases bytes with
        | nil =>
            rw [List.map_singleton, List.intercalate_singleton] at hc
            exact hbyte b c hc
        | cons b' bytes =>
            rw [List.map_cons, List.intercalate_cons_of_ne_nil (by simp), List.mem_append,
              List.mem_append] at hc
            rcases hc with (hc | hc) | hc
            · exact hbyte b c hc
            · rw [List.mem_singleton.mp hc]
              exact ⟨by decide, by decide⟩
            · exact ih c hc
  rw [hexString]
  exact NoBraces.append (s := ['"']) ⟨by decide, by decide⟩ (hjoined.append ⟨by decide, by decide⟩)

theorem plainMember_string {k v : List Char} (hk : k ∈ objectKeys) (hv : Str v)
    (hbraces : NoBraces v) : PlainMember ⟨[','], k, v⟩ :=
  ⟨rfl, hk, hbraces, fun _ hkey => passesValue_str hkey hv⟩

theorem plainMember_bare {k v : List Char} (hk : k ∈ objectKeys) (hv : '"' ∉ v)
    (hbraces : NoBraces v) : PlainMember ⟨[','], k, v⟩ :=
  ⟨rfl, hk, hbraces, fun _ _ => passesValue_of_noQuote hv⟩

theorem flatMap_one (p : Piece) : [p].flatMap Piece.text = p.text := by
  rw [List.flatMap_cons, List.flatMap_nil, List.append_nil]

/-- What a text adds to the value of a number. -/
def AddsMembers (s : List Char) : Prop :=
  ∃ ps : List Piece, (∀ p ∈ ps, PlainMember p) ∧ s = ps.flatMap Piece.text

theorem AddsMembers.nil : AddsMembers [] := ⟨[], nofun, rfl⟩

theorem AddsMembers.one {p : Piece} (hp : PlainMember p) : AddsMembers p.text :=
  ⟨[p], by simpa using hp, (flatMap_one p).symm⟩

theorem AddsMembers.append {s t : List Char} (hs : AddsMembers s) (ht : AddsMembers t) :
    AddsMembers (s ++ t) := by
  obtain ⟨ps, hps, rfl⟩ := hs
  obtain ⟨qs, hqs, rfl⟩ := ht
  refine ⟨ps ++ qs, fun p hp => ?_, List.flatMap_append.symm⟩
  rcases List.mem_append.mp hp with hp | hp
  · exact hps p hp
  · exact hqs p hp

theorem addsMembers_nameOrNull {name : Option String}
    (hname : ∀ s, name = some s → NoBraces s.toList) : AddsMembers (nameOrNull name) := by
  cases name with
  | none => exact .one (plainMember_bare (k := "name".toList) (v := "null".toList) (by decide)
      (by decide) ⟨by decide, by decide⟩)
  | some s => exact .one (plainMember_string (k := "name".toList) (by decide)
      (str_writeJsonString _) (noBraces_writeJsonString (hname s rfl)))

theorem addsMembers_bytes (bytes : List UInt8) :
    AddsMembers (",\"bytes\":".toList ++ hexString bytes) :=
  .one (plainMember_string (k := "bytes".toList) (by decide) (str_hexString bytes)
    (noBraces_hexString bytes))

theorem addsMembers_bits (raw : UInt64) (n : ℕ) :
    AddsMembers (",\"bits\":\"".toList ++ bitsText raw n ++ ['"']) := by
  have hbits : ∀ c ∈ bitsText raw n, c = '0' ∨ c = '1' := by
    intro c hc
    obtain ⟨i, -, rfl⟩ := List.mem_map.mp hc
    split
    · exact Or.inr rfl
    · exact Or.inl rfl
  have hplain : ∀ c ∈ bitsText raw n, isPlain c = true := by
    intro c hc
    rcases hbits c hc with rfl | rfl <;> rfl
  have hbraces : NoBraces ('"' :: (bitsText raw n ++ ['"'])) := by
    refine NoBraces.append (s := ['"']) ⟨by decide, by decide⟩
      (NoBraces.append (noBraces_of_all ?_) ⟨by decide, by decide⟩)
    intro c hc
    rcases hbits c hc with rfl | rfl
    · exact ⟨by decide, by decide⟩
    · exact ⟨by decide, by decide⟩
  exact .one (plainMember_string (k := "bits".toList) (by decide) (str_of_plain hplain) hbraces)

theorem addsMembers_debugSuffix {F : Type} (f : DecodedField F) (payload : List UInt8) :
    AddsMembers (writeDebugSuffix f payload) := by
  unfold writeDebugSuffix
  split
  · split
    · exact .nil
    · split
      · dsimp only
        split
        · exact addsMembers_bytes _
        · exact .nil
      · dsimp only
        generalize extractBits _ _ _ _ _ = ex
        cases ex with
        | none => exact .nil
        | some ex =>
            refine (addsMembers_bytes _).append ?_
            split
            · exact addsMembers_bits _ _
            · exact .nil
  · exact .nil

/-- A number in an object. -/
theorem numberText_object {n : ℕ} {s : List Char} (hs : AddsMembers s) :
    NumberText n ("\x7b\"value\":".toList ++ digits n ++ s ++ ['\x7d']) := by
  obtain ⟨ps, hps, rfl⟩ := hs
  exact .object hps

theorem addsMembers_key : AddsMembers ",\"key\":true".toList :=
  .one (plainMember_bare (k := "key".toList) (v := "true".toList) (by decide) (by decide)
    ⟨by decide, by decide⟩)

theorem addsMembers_keySuffix {F : Type} (f : DecodedField F) : AddsMembers (keySuffix f) := by
  rw [keySuffix]
  split
  · exact addsMembers_key
  · exact .nil

section

variable {opts : JsonOptions} (hnv : opts.nameValue = true) (payload : List UInt8)
  (f : DecodedField Binary64)

include hnv

/-- The text of a value that is a number, from its two forms. -/
theorem numberText_of_forms {n : ℕ} {s : List Char}
    (hiso : f.IsLeaf) (hbare : writeBare opts f f.value = digits n ++ s) (hs : AddsMembers s)
    (hleaf : NumberText n (writeLeaf opts f f.value)) : NumberText n (fieldText opts payload f) := by
  by_cases hdebug : opts.debug = true
  · have h := numberText_object (n := n) (hs.append ((addsMembers_debugSuffix f payload).append
      (addsMembers_keySuffix f)))
    rw [fieldText, if_pos hdebug, writeFieldValueDebug_of_leaf opts payload hiso, hbare, if_pos hnv]
    simpa only [List.append_assoc] using h
  · rw [fieldText, if_neg hdebug, writeFieldValue_of_leaf opts hiso]
    exact hleaf

theorem numberText_integer {n : ℕ} {v : Int64} (hvalue : f.value = .integer v)
    (hv : v.toInt = (n : ℤ)) : NumberText n (fieldText opts payload f) := by
  have hint : writeInt v.toInt = digits n := by
    rw [hv, writeInt, if_neg (by omega), Int.natAbs_natCast]
    rfl
  refine numberText_of_forms hnv payload f (s := []) (by rw [DecodedField.IsLeaf, hvalue]; nofun) ?_ .nil ?_
  · rw [hvalue, List.append_nil]
    exact hint
  · rw [hvalue]
    simp only [writeLeaf, hint]
    split
    · have h := numberText_object (n := n) addsMembers_key
      rwa [List.append_assoc] at h
    · exact .bare

theorem numberText_lookup {value : UInt64} {name : Option String}
    (hvalue : f.value = .lookup value name)
    (hname : ∀ s, name = some s → NoBraces s.toList) :
    NumberText value.toNat (fieldText opts payload f) := by
  refine numberText_of_forms hnv payload f (s := nameOrNull name) (by rw [DecodedField.IsLeaf, hvalue]; nofun) ?_
    (addsMembers_nameOrNull hname) ?_
  · rw [hvalue]
    simp only [writeBare, if_pos hnv]
  · rw [hvalue]
    simp only [writeLeaf, if_pos hnv]
    have hmiddle : AddsMembers
        (if name.isNone = true ∧ ¬opts.includeEmpty = true then [] else nameOrNull name) := by
      split
      · exact .nil
      · exact addsMembers_nameOrNull hname
    have h := numberText_object (n := value.toNat) (hmiddle.append (addsMembers_keySuffix f))
    simpa only [List.append_assoc] using h

end

/-! ## The wrapper of a line -/

theorem untilQuote?_append {k t : List Char} (hk : '"' ∉ k) :
    untilQuote? (k ++ '"' :: t) = some (String.ofList k) := by
  have htake : (k ++ '"' :: t).takeWhile (· ≠ '"') = k := by
    rw [List.takeWhile_append_of_pos, List.takeWhile_cons_of_neg (by simp), List.append_nil]
    intro c hc
    refine decide_eq_true ?_
    rintro rfl
    exact hk hc
  rw [untilQuote?, if_pos (List.mem_append_right _ List.mem_cons_self), htake]

theorem camelWrapperId_opening {k t : List Char} (hk : '"' ∉ k) :
    camelWrapperId (String.ofList ('\x7b' :: '"' :: (k ++ '"' :: t))) =
      if String.ofList k ∈ headerKeys then none else some (String.ofList k) := by
  rw [camelWrapperId, String.toList_ofList, trimStart_of_head rfl]
  rw [show stripPrefix? ['\x7b'] ('\x7b' :: '"' :: (k ++ '"' :: t)) = some ('"' :: (k ++ '"' :: t))
    from rfl, Option.bind_some, trimStart_of_head rfl,
    show stripPrefix? ['"'] ('"' :: (k ++ '"' :: t)) = some (k ++ '"' :: t) from rfl,
    Option.bind_some, untilQuote?_append hk, Option.bind_some]

/-- The wrapper of a line is the identifier of its record. -/
theorem camelWrapperId_writeJson {F : Type} [Float64 F] (opts : JsonOptions) (d : DecodedPgn F)
    (hplain : opts.camelCase ≠ .off →
      ∀ c ∈ displayName opts.camelCase d.description d.id, isPlain c = true) :
    camelWrapperId (String.ofList (writeJson opts d)) =
      if opts.camelCase = .off then none
      else if String.ofList (displayName opts.camelCase d.description d.id) ∈ headerKeys then none
      else some (String.ofList (displayName opts.camelCase d.description d.id)) := by
  obtain ⟨m, ms, hheaders, hrecord⟩ := recordText_eq opts d
  by_cases hcamel : opts.camelCase = .off
  · have hmem : String.ofList m.1 ∈ headerKeys ∧ '"' ∉ m.1 := by
      have hm : m.1 = "timestamp".toList ∨ m.1 = "prio".toList := by
        rw [headers] at hheaders
        split at hheaders
        · exact Or.inl (by rw [← (List.cons.inj hheaders).1])
        · exact Or.inr (by rw [← (List.cons.inj hheaders).1])
      rcases hm with hm | hm
      · rw [hm]
        decide
      · rw [hm]
        decide
    have h := camelWrapperId_opening (t := ':' :: (m.2 ++ ((ms.map headerPiece).flatMap Piece.text ++
      (fieldsObject opts d ++ lineClosing opts)))) hmem.2
    rw [if_pos hcamel, writeJson_eq, hrecord, lineOpening, if_pos hcamel]
    rw [if_pos hmem.1] at h
    simpa only [List.cons_append, List.append_assoc, List.nil_append] using h
  · have h := camelWrapperId_opening (t := ':' :: '\x7b' :: (recordText opts d ++ lineClosing opts))
      (noQuote_of_plain (hplain hcamel))
    rw [if_neg hcamel, ← h, writeJson_eq, lineOpening, if_neg hcamel,
      show "\x7b\"".toList = ['\x7b', '"'] from rfl,
      show "\":\x7b".toList = ['"', ':', '\x7b'] from rfl]
    simp only [List.cons_append, List.append_assoc, List.nil_append]

end Canboat
