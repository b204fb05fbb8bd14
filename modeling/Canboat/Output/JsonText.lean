import Canboat.Lib.Json.Reading
import Canboat.Output.Json

/-!
# Each field's text

A field's text reads as a JSON value when the numbers that it shows are finite, and not at
all otherwise; in the plain form and in the diagnostic one.
-/

namespace Canboat

open Json
open Binary64 (digits paddedDigits)

/-! ## Strings -/

theorem isHex_hexDigit : ∀ upper, ∀ n < 16, isHex (hexDigit upper n) = true := by decide

theorem isPlain_hexDigit : ∀ upper, ∀ n < 16, isPlain (hexDigit upper n) = true := by decide

theorem isPlain_digit {c : Char} (hc : isDigit c = true) : isPlain c = true := by
  rw [isPlain, Bool.and_eq_true, Bool.and_eq_true, bne_iff_ne, bne_iff_ne]
  refine ⟨⟨?_, digit_ne hc rfl⟩, digit_ne hc rfl⟩
  rw [isDigit, Bool.and_eq_true, decide_eq_true_eq, decide_eq_true_eq] at hc
  exact decide_eq_true (Nat.le_trans (by decide) (show (48 : ℕ) ≤ c.toNat from hc.1))

theorem chars_of_plain {s t : List Char} (hs : ∀ c ∈ s, isPlain c = true) (ht : Chars t) :
    Chars (s ++ t) := by
  induction s with
  | nil => exact ht
  | cons c s ih =>
      exact .plain (hs c List.mem_cons_self) (ih fun d hd => hs d (List.mem_cons_of_mem _ hd))

theorem chars_escape (slash : Bool) (c : Char) {s : List Char} (hs : Chars s) :
    Chars (escape slash c ++ s) := by
  unfold escape
  split_ifs with hquote hslash h08 htab hnl h0c hcr hcontrol hsol
  · exact .escape rfl hs
  · exact .escape rfl hs
  · exact .escape rfl hs
  · exact .escape rfl hs
  · exact .escape rfl hs
  · exact .escape rfl hs
  · exact .escape rfl hs
  · exact .unicode rfl rfl (isHex_hexDigit _ _ (by omega)) (isHex_hexDigit _ _ (by omega)) hs
  · exact .escape rfl hs
  · refine .plain ?_ hs
    rw [isPlain, Bool.and_eq_true, Bool.and_eq_true, bne_iff_ne, bne_iff_ne]
    exact ⟨⟨decide_eq_true (Nat.not_lt.mp hcontrol), hquote⟩, hslash⟩

theorem chars_flatMap_escape (slash : Bool) (s : List Char) : Chars (s.flatMap (escape slash)) := by
  induction s with
  | nil => exact .nil
  | cons c s ih =>
      rw [List.flatMap_cons]
      exact chars_escape slash c ih

theorem str_writeJsonStringWithTable (slash : Bool) (s : List Char) :
    Str (writeJsonStringWithTable slash s) :=
  .mk (chars_flatMap_escape slash s)

theorem str_writeJsonString (s : List Char) : Str (writeJsonString s) :=
  str_writeJsonStringWithTable false s

theorem str_of_plain {s : List Char} (hs : ∀ c ∈ s, isPlain c = true) :
    Str ('"' :: (s ++ ['"'])) := by
  have h := Str.mk (chars_of_plain hs .nil)
  rwa [List.append_nil] at h

theorem hexByte_plain (b : UInt8) : ∀ c ∈ hexByte b, isPlain c = true := by
  have hb := b.toNat_lt
  intro c hc
  rcases List.mem_cons.mp hc with rfl | hc
  · exact isPlain_hexDigit _ _ (by omega)
  · rw [List.mem_singleton.mp hc]
    exact isPlain_hexDigit _ _ (by omega)

theorem str_hexString (bytes : List UInt8) : Str (hexString bytes) := by
  apply str_of_plain
  induction bytes with
  | nil => simp
  | cons b bytes ih =>
      intro c hc
      cases bytes with
      | nil =>
          rw [List.map_singleton, List.intercalate_singleton] at hc
          exact hexByte_plain b c hc
      | cons b' bytes =>
          rw [List.map_cons, List.intercalate_cons_of_ne_nil (by simp), List.mem_append,
            List.mem_append] at hc
          rcases hc with (hc | hc) | hc
          · exact hexByte_plain b c hc
          · rw [List.mem_singleton.mp hc]
            rfl
          · exact ih c hc

theorem str_writeMmsi (v : UInt32) : Str (writeMmsi v) :=
  str_of_plain fun c hc => isPlain_digit (paddedDigits_digits _ _ c hc)

/-! ## Numbers -/

theorem reads_digits (n : ℕ) : ReadsIf true (digits n) :=
  (number_digits n).reads.readsIf

theorem reads_writeInt (n : ℤ) : ReadsIf true (writeInt n) := by
  unfold writeInt
  have h := (number_signed (decide (n < 0)) (unsigned_digits n.natAbs)).reads.readsIf
  simpa only [decide_eq_true_eq] using h

theorem readsIf_writeFixedFloat (v : Binary64) (precision minWidth : ℕ) :
    ReadsIf v.isFinite (writeFixedFloat v precision minWidth) := by
  unfold writeFixedFloat
  split
  · exact (readsIf_displayFixed precision v).spaces _
  · rename_i hfast
    have hfinite : v.isFinite = true := by
      by_contra h
      exact hfast (Or.inl h)
    rw [hfinite]
    simp only
    split
    · have h := (number_signed (decide (v.isSignNegative = true ∧
        Float64.toI64 (Float64.round v) ≠ 0)) (unsigned_digits
          (Float64.toI64 (Float64.round v)).toInt.natAbs)).reads.readsIf
      simp only [decide_eq_true_eq] at h
      exact h.spaces _
    · rw [List.append_assoc]
      exact (number_signed v.isSignNegative (unsigned_places _ _ _)).reads.readsIf.spaces _

/-! ## Values -/

mutual

/-- Every number that the field's text shows is finite. -/
def numbersFinite (opts : JsonOptions) : DecodedField Binary64 → Bool
  | ⟨_, value, _, _, _, _, _⟩ =>
      match value with
      | .number v => v.isFinite
      | .float v => v.isFinite
      | .isoName _ subfields => !opts.nameValue || subfieldsFinite opts subfields
      | _ => true

def subfieldsFinite (opts : JsonOptions) : List (DecodedField Binary64) → Bool
  | [] => true
  | sf :: subfields =>
      (!subfieldShown opts sf || numbersFinite opts sf) && subfieldsFinite opts subfields

end

/-- The members that a value in an object of its own has behind it. -/
theorem suffix_keyTrue : SuffixIf true ",\"key\":true".toList :=
  ⟨Or.inr ⟨_, rfl⟩, fun _ => .of_run rfl rfl⟩

theorem suffix_key (f : DecodedField Binary64) : SuffixIf true (keySuffix f) := by
  unfold keySuffix
  split
  · exact suffix_keyTrue
  · exact .nil

theorem suffix_name {v : List Char} {p : Bool} (hv : ClosedIf p v) :
    SuffixIf p (",\"name\":".toList ++ v) :=
  ⟨Or.inr ⟨_, rfl⟩, fun k => .after (show _ = some ⟨.value, .object :: k⟩ from rfl) (hv _)⟩

theorem suffix_bytes (bytes : List UInt8) :
    SuffixIf true (",\"bytes\":".toList ++ hexString bytes) :=
  ⟨Or.inr ⟨_, rfl⟩, fun k => .after (show _ = some ⟨.value, .object :: k⟩ from rfl)
    ((str_hexString bytes).closed _)⟩

theorem suffix_bits (raw : UInt64) (bits : ℕ) :
    SuffixIf true (",\"bits\":\"".toList ++ bitsText raw bits ++ ['"']) := by
  have hplain : ∀ c ∈ bitsText raw bits, isPlain c = true := by
    intro c hc
    obtain ⟨i, -, rfl⟩ := List.mem_map.mp hc
    split <;> rfl
  have heq : ",\"bits\":\"".toList ++ bitsText raw bits ++ ['"'] =
      ",\"bits\":".toList ++ '"' :: (bitsText raw bits ++ ['"']) := by
    rw [List.append_assoc]
    rfl
  rw [heq]
  exact ⟨Or.inr ⟨_, rfl⟩, fun k => .after (show _ = some ⟨.value, .object :: k⟩ from rfl)
    ((str_of_plain hplain).closed _)⟩

theorem suffix_writeDebugSuffix (f : DecodedField Binary64) (payload : List UInt8) :
    SuffixIf true (writeDebugSuffix f payload) := by
  unfold writeDebugSuffix
  split
  · split
    · exact .nil
    · split
      · simp only
        split
        · exact suffix_bytes _
        · exact .nil
      · simp only
        split
        · exact .nil
        · split
          · exact (suffix_bytes _).append (suffix_bits _ _)
          · exact (suffix_bytes _).append .nil
  · exact .nil

theorem suffix_nameString (s : List Char) :
    SuffixIf true (",\"name\":".toList ++ writeJsonString s) :=
  suffix_name (str_writeJsonString s).closed

theorem suffix_nameOrNull (name : Option String) : SuffixIf true (nameOrNull name) := by
  cases name with
  | none => exact suffix_name closed_null
  | some n => exact suffix_nameString n.toList

theorem suffix_optionalName (name : Option String) : SuffixIf true (optionalName name) := by
  cases name with
  | none => exact .nil
  | some n => exact suffix_nameString n.toList

theorem str_value : Str "\"value\"".toList :=
  str_of_plain (s := "value".toList) (by decide)

/-- A value in an object of its own. -/
theorem closed_object {p r : Bool} {v s : List Char} (hv : ReadsIf p v) (hs : SuffixIf r s) :
    ClosedIf (p && r) ("\x7b\"value\":".toList ++ v ++ s ++ ['\x7d']) := by
  have h := ReadsIf.object str_value hv hs
  have heq : "\x7b\"value\":".toList ++ v ++ s ++ ['\x7d'] =
      '\x7b' :: ("\"value\"".toList ++ ':' :: (v ++ (s ++ ['\x7d']))) := by
    rw [List.append_assoc, List.append_assoc]
    rfl
  rwa [heq]

theorem closed_writeBits (opts : JsonOptions) (bits : List (UInt64 × String)) :
    ClosedIf true (writeBits opts bits) := by
  unfold writeBits
  split
  · exact closed_null
  · rename_i hne
    rw [List.isEmpty_iff] at hne
    apply closed_array
    · intro t ht
      obtain ⟨b, -, rfl⟩ := List.mem_map.mp ht
      split
      · refine ⟨?_, _, _, rfl, rfl, by decide⟩
        rw [List.append_assoc ("\x7b\"value\":".toList ++ digits b.1.toNat)]
        exact closed_object (reads_digits _) (suffix_nameString _)
      · exact ⟨(str_writeJsonString _).closed, _, _, rfl, rfl, by decide⟩
    · simpa using hne

/-- A value with members behind it, as the inside of an object. -/
def Bare (p : Bool) (t : List Char) : Prop :=
  ∃ v s, t = v ++ s ∧ ReadsIf p v ∧ SuffixIf true s

theorem Bare.value {p : Bool} {v : List Char} (hv : ReadsIf p v) : Bare p v :=
  ⟨v, [], (List.append_nil v).symm, hv, .nil⟩

theorem readsIf_writeNumber (f : DecodedField Binary64) (v : Binary64) :
    ReadsIf v.isFinite (writeNumber f v) :=
  readsIf_writeFixedFloat _ _ _

/-- The numbers of a value other than an ISO NAME. -/
def leafFinite : FieldValue Binary64 → Bool
  | .number v => v.isFinite
  | .float v => v.isFinite
  | _ => true

theorem closed_unsupported (t : String) : ClosedIf true (writeUnsupported t) :=
  (str_writeJsonString _).closed

/-- A value marked as part of the primary key. -/
theorem closed_keyed {v : List Char} (hv : ReadsIf true v) :
    ClosedIf true ("\x7b\"value\":".toList ++ v ++ ",\"key\":true\x7d".toList) := by
  have heq : ",\"key\":true\x7d".toList = ",\"key\":true".toList ++ ['\x7d'] := rfl
  rw [heq, ← List.append_assoc]
  exact closed_object hv suffix_keyTrue

/-- A value with its text behind it. -/
theorem closed_named {v : List Char} (hv : ReadsIf true v) (name : List Char) :
    ClosedIf true ("\x7b\"value\":".toList ++ v ++ ",\"name\":".toList ++
      writeJsonString name ++ ['\x7d']) := by
  rw [List.append_assoc ("\x7b\"value\":".toList ++ v)]
  exact closed_object hv (suffix_nameString name)

theorem readsIf_writeLeaf (opts : JsonOptions) (f : DecodedField Binary64)
    (value : FieldValue Binary64) : ReadsIf (leafFinite value) (writeLeaf opts f value) := by
  cases value with
  | number v => exact readsIf_writeNumber f v
  | float v => exact readsIf_display v
  | integer v =>
      simp only [writeLeaf]
      split
      · exact (closed_keyed (reads_writeInt _)).readsIf
      · exact reads_writeInt _
  | binary bytes => exact (str_hexString _).closed.readsIf
  | lookup value name =>
      simp only [writeLeaf]
      split
      · rw [List.append_assoc ("\x7b\"value\":".toList ++ digits value.toNat)]
        split
        · exact (closed_object (reads_digits _) (.append .nil (suffix_key f))).readsIf
        · exact (closed_object (reads_digits _)
            ((suffix_nameOrNull name).append (suffix_key f))).readsIf
      · cases name with
        | none => exact reads_digits _
        | some n => exact (str_writeJsonString _).closed.readsIf
  | bitField value bits => exact (closed_writeBits opts bits).readsIf
  | string s => exact (str_writeJsonStringWithTable _ _).closed.readsIf
  | date d =>
      simp only [writeLeaf]
      split
      · exact (closed_named (reads_digits _) _).readsIf
      · exact (str_writeJsonString _).closed.readsIf
  | time raw seconds =>
      simp only [writeLeaf]
      split
      · exact (closed_named (reads_writeInt _) _).readsIf
      · exact (str_writeJsonString _).closed.readsIf
  | mmsi v =>
      simp only [writeLeaf]
      split
      · exact (closed_keyed (str_writeMmsi v).closed.readsIf).readsIf
      · exact (str_writeMmsi v).closed.readsIf
  | pgn value description =>
      simp only [writeLeaf]
      split
      · exact (closed_object (reads_digits _) (suffix_optionalName description)).readsIf
      · exact reads_digits _
  | isoName value subfields => exact reads_digits _
  | reserved value bytes bitLength => exact (str_hexString _).closed.readsIf
  | spare value bytes bitLength => exact (str_hexString _).closed.readsIf
  | notAvailable => exact closed_null.readsIf
  | outOfRange value => exact (str_writeJsonString _).closed.readsIf
  | reservedValue value => exact (str_writeJsonString _).closed.readsIf
  | unsupported t => exact (closed_unsupported t).readsIf

theorem bare_writeBare (opts : JsonOptions) (f : DecodedField Binary64)
    (value : FieldValue Binary64) : Bare (leafFinite value) (writeBare opts f value) := by
  cases value with
  | number v => exact .value (readsIf_writeNumber f v)
  | float v => exact .value (readsIf_display v)
  | integer v => exact .value (reads_writeInt _)
  | binary bytes => exact .value (str_hexString _).closed.readsIf
  | lookup value name =>
      simp only [writeBare]
      split
      · exact ⟨_, _, rfl, reads_digits _, suffix_nameOrNull name⟩
      · cases name with
        | none => exact .value (reads_digits _)
        | some n => exact .value (str_writeJsonString _).closed.readsIf
  | bitField value bits => exact .value (closed_writeBits opts bits).readsIf
  | string s => exact .value (str_writeJsonStringWithTable _ _).closed.readsIf
  | date d =>
      simp only [writeBare]
      split
      · exact ⟨_, _, List.append_assoc _ _ _, reads_digits _, suffix_nameString _⟩
      · exact .value (str_writeJsonString _).closed.readsIf
  | time raw seconds =>
      simp only [writeBare]
      split
      · exact ⟨_, _, List.append_assoc _ _ _, reads_writeInt _, suffix_nameString _⟩
      · exact .value (str_writeJsonString _).closed.readsIf
  | mmsi v => exact .value (str_writeMmsi v).closed.readsIf
  | pgn value description =>
      simp only [writeBare]
      split
      · exact ⟨_, _, rfl, reads_digits _, suffix_nameOrNull description⟩
      · exact ⟨_, _, rfl, reads_digits _, .nil⟩
  | isoName value subfields => exact .value (reads_digits _)
  | reserved value bytes bitLength => exact .value (str_hexString _).closed.readsIf
  | spare value bytes bitLength => exact .value closed_null.readsIf
  | notAvailable => exact .value closed_null.readsIf
  | outOfRange value => exact .value (str_writeJsonString _).closed.readsIf
  | reservedValue value => exact .value (str_writeJsonString _).closed.readsIf
  | unsupported t => exact .value (closed_unsupported t).readsIf

/-- An ISO NAME's number, with the members of what it holds. -/
theorem suffix_subfields {p : Bool} {s : List Char} (hs : MembersIf p s) :
    SuffixIf p (",\"name\":\x7b".toList ++ s ++ ['\x7d']) := by
  have heq : ",\"name\":\x7b".toList ++ s ++ ['\x7d'] =
      ",\"name\":".toList ++ '\x7b' :: (s ++ ['\x7d']) := by
    rw [List.append_assoc]
    rfl
  rw [heq]
  exact suffix_name hs.object

/-- One more subfield behind those already written. -/
theorem run_subfield {p r : Bool} {k : List Frame} {sep : List Char} {q : State}
    (hq : Ready sep k q) {name v rest : List Char} (hv : ReadsIf p v)
    (hrest : ∀ q', Ready [','] k q' → RunsIf r q' rest fun q => ∃ sep, Ready sep k q) :
    RunsIf (p && r) q (sep ++ writeJsonString name ++ ':' :: v ++ rest)
      fun q => ∃ sep, Ready sep k q := by
  have hmember := hq.member (str_writeJsonString name) (hv (.object :: k))
  have h := hmember.append fun q' hq' => hrest q' (Or.inr ⟨rfl, hq'⟩)
  rwa [← List.append_assoc] at h

theorem readsIf_isoName (opts : JsonOptions) (value : UInt64) {p : Bool} {subs : List Char}
    (hsubs : MembersIf p subs) :
    ReadsIf (!opts.nameValue || p)
      (if opts.nameValue then
        "\x7b\"value\":".toList ++ digits value.toNat ++ ",\"name\":\x7b".toList ++ subs ++
          "\x7d\x7d".toList
      else digits value.toNat) := by
  cases opts.nameValue with
  | false => exact reads_digits _
  | true =>
      have heq : "\x7b\"value\":".toList ++ digits value.toNat ++ ",\"name\":\x7b".toList ++ subs ++
          "\x7d\x7d".toList =
          "\x7b\"value\":".toList ++ digits value.toNat ++
            (",\"name\":\x7b".toList ++ subs ++ ['\x7d']) ++ ['\x7d'] := by
        simp only [List.append_assoc]
        rfl
      rw [if_pos rfl, heq]
      exact (closed_object (reads_digits _) (suffix_subfields hsubs)).readsIf

/-- Other than an ISO NAME, which alone holds fields. -/
def DecodedField.IsLeaf (f : DecodedField Binary64) : Prop :=
  ∀ v subfields, f.value ≠ .isoName v subfields

theorem numbersFinite_of_leaf (opts : JsonOptions) {f : DecodedField Binary64} (hf : f.IsLeaf) :
    numbersFinite opts f = leafFinite f.value := by
  obtain ⟨info, value, bitOffset, bitLength, repeatIndex, repeatSet, overrides⟩ := f
  cases value with
  | isoName v subfields => exact absurd rfl (hf v subfields)
  | _ => rfl

theorem writeFieldValue_of_leaf (opts : JsonOptions) {f : DecodedField Binary64} (hf : f.IsLeaf) :
    writeFieldValue opts f = writeLeaf opts f f.value := by
  obtain ⟨info, value, bitOffset, bitLength, repeatIndex, repeatSet, overrides⟩ := f
  cases value with
  | isoName v subfields => exact absurd rfl (hf v subfields)
  | _ => rfl

theorem writeFieldValueDebug_of_leaf (opts : JsonOptions) (payload : List UInt8)
    {f : DecodedField Binary64} (hf : f.IsLeaf) :
    writeFieldValueDebug opts payload f =
      "\x7b\"value\":".toList ++ writeBare opts f f.value ++ writeDebugSuffix f payload ++
        (if opts.nameValue then keySuffix f else []) ++ ['\x7d'] := by
  obtain ⟨info, value, bitOffset, bitLength, repeatIndex, repeatSet, overrides⟩ := f
  cases value with
  | isoName v subfields => exact absurd rfl (hf v subfields)
  | _ => rfl

theorem readsIf_of_leaf (opts : JsonOptions) {f : DecodedField Binary64} (hf : f.IsLeaf) :
    ReadsIf (numbersFinite opts f) (writeFieldValue opts f) := by
  rw [numbersFinite_of_leaf opts hf, writeFieldValue_of_leaf opts hf]
  exact readsIf_writeLeaf opts f f.value

mutual

theorem readsIf_writeFieldValue (opts : JsonOptions) :
    ∀ f : DecodedField Binary64, ReadsIf (numbersFinite opts f) (writeFieldValue opts f)
  | ⟨info, value, bitOffset, bitLength, repeatIndex, repeatSet, overrides⟩ => by
      cases value with
      | isoName value subfields =>
          exact readsIf_isoName opts value fun k =>
            run_writeSubfields opts subfields [] k _ (Or.inl ⟨rfl, rfl⟩)
      | _ => exact readsIf_of_leaf opts nofun

theorem run_writeSubfields (opts : JsonOptions) :
    ∀ (subfields : List (DecodedField Binary64)) (sep : List Char) (k : List Frame) (q : State),
      Ready sep k q → RunsIf (subfieldsFinite opts subfields) q (writeSubfields opts sep subfields)
        fun q => ∃ sep, Ready sep k q
  | [], sep, k, q, hq => .nil ⟨sep, hq⟩
  | sf :: subfields, sep, k, q, hq => by
      rw [subfieldsFinite, writeSubfields]
      cases hshown : subfieldShown opts sf with
      | false => exact run_writeSubfields opts subfields sep k q hq
      | true =>
          exact run_subfield hq (readsIf_writeFieldValue opts sf)
            fun q' hq' => run_writeSubfields opts subfields [','] k q' hq'

end

/-- The wrapping object of the diagnostic form. -/
theorem closed_debug (opts : JsonOptions) (f : DecodedField Binary64) (payload : List UInt8)
    {p : Bool} {t : List Char}
    (ht : ∃ r s v w, p = (r && s) ∧ t = v ++ w ∧ ReadsIf r v ∧ SuffixIf s w) :
    ClosedIf p ("\x7b\"value\":".toList ++ t ++ writeDebugSuffix f payload ++
      (if opts.nameValue then keySuffix f else []) ++ ['\x7d']) := by
  obtain ⟨r, s, v, w, rfl, rfl, hv, hw⟩ := ht
  have hkey : SuffixIf true (if opts.nameValue then keySuffix f else []) := by
    split
    · exact suffix_key f
    · exact .nil
  have hsuffix := (hw.append (suffix_writeDebugSuffix f payload)).append hkey
  rw [Bool.and_true, Bool.and_true] at hsuffix
  have h := closed_object hv hsuffix
  simp only [List.append_assoc] at h ⊢
  exact h

theorem Bare.debug {opts : JsonOptions} {f : DecodedField Binary64} {payload : List UInt8}
    {p : Bool} {t : List Char} (ht : Bare p t) :
    ReadsIf p ("\x7b\"value\":".toList ++ t ++ writeDebugSuffix f payload ++
      (if opts.nameValue then keySuffix f else []) ++ ['\x7d']) := by
  obtain ⟨v, w, rfl, hv, hw⟩ := ht
  exact (closed_debug opts f payload ⟨p, true, v, w, (Bool.and_true p).symm, rfl, hv, hw⟩).readsIf

theorem readsIf_debug_of_leaf (opts : JsonOptions) (payload : List UInt8)
    {f : DecodedField Binary64} (hf : f.IsLeaf) :
    ReadsIf (numbersFinite opts f) (writeFieldValueDebug opts payload f) := by
  rw [numbersFinite_of_leaf opts hf, writeFieldValueDebug_of_leaf opts payload hf]
  exact (bare_writeBare opts f f.value).debug

theorem readsIf_isoName_debug (opts : JsonOptions) (f : DecodedField Binary64)
    (payload : List UInt8) (value : UInt64) {p : Bool} {subs : List Char}
    (hsubs : MembersIf p subs) :
    ReadsIf (!opts.nameValue || p)
      ("\x7b\"value\":".toList ++
        (if opts.nameValue then
          digits value.toNat ++ ",\"name\":\x7b".toList ++ subs ++ ['\x7d']
        else digits value.toNat) ++ writeDebugSuffix f payload ++
        (if opts.nameValue then keySuffix f else []) ++ ['\x7d']) := by
  apply ClosedIf.readsIf
  apply closed_debug
  cases opts.nameValue with
  | false =>
      exact ⟨true, true, _, _, rfl, (List.append_nil _).symm, reads_digits _, .nil⟩
  | true =>
      refine ⟨true, p, digits value.toNat, _, rfl, ?_, reads_digits _, suffix_subfields hsubs⟩
      rw [if_pos rfl]
      simp only [List.append_assoc]

mutual

theorem readsIf_writeFieldValueDebug (opts : JsonOptions) (payload : List UInt8) :
    ∀ f : DecodedField Binary64,
      ReadsIf (numbersFinite opts f) (writeFieldValueDebug opts payload f)
  | ⟨info, value, bitOffset, bitLength, repeatIndex, repeatSet, overrides⟩ => by
      cases value with
      | isoName value subfields =>
          exact readsIf_isoName_debug opts _ payload value fun k =>
            run_writeSubfieldsDebug opts _ subfields [] k _ (Or.inl ⟨rfl, rfl⟩)
      | _ => exact readsIf_debug_of_leaf opts payload nofun

theorem run_writeSubfieldsDebug (opts : JsonOptions) (payload : List UInt8) :
    ∀ (subfields : List (DecodedField Binary64)) (sep : List Char) (k : List Frame) (q : State),
      Ready sep k q →
      RunsIf (subfieldsFinite opts subfields) q (writeSubfieldsDebug opts payload sep subfields)
        fun q => ∃ sep, Ready sep k q
  | [], sep, k, q, hq => .nil ⟨sep, hq⟩
  | sf :: subfields, sep, k, q, hq => by
      rw [subfieldsFinite, writeSubfieldsDebug]
      cases hshown : subfieldShown opts sf with
      | false => exact run_writeSubfieldsDebug opts payload subfields sep k q hq
      | true =>
          exact run_subfield hq (readsIf_writeFieldValueDebug opts payload sf)
            fun q' hq' => run_writeSubfieldsDebug opts payload subfields [','] k q' hq'

end

/-- A member for a field, behind a separator. -/
theorem run_writeMember (opts : JsonOptions) (payload : List UInt8) (f : DecodedField Binary64)
    {k : List Frame} {sep : List Char} {q : State} (hq : Ready sep k q) :
    RunsIf (numbersFinite opts f) q (sep ++ writeMember opts payload f)
      fun q => q.Ends (.object :: k) := by
  unfold writeMember
  apply hq.member (str_writeJsonString _)
  split
  · exact readsIf_writeFieldValueDebug opts payload f _
  · exact readsIf_writeFieldValue opts f _

end Canboat
