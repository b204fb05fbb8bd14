import Canboat.Input.ReadBack
import Canboat.Output.JsonNested

/-!
# Where a value ends

The text of a value that is read ends by itself, whatever member is after it.
-/

namespace Canboat

open Json AnalyzerJson
open Binary64 (digits paddedDigits)

/-- What is read of the text does not depend on what is after it. -/
def Delimited (s : List Char) : Prop :=
  ∃ v, ∀ t, EndsValue t → valueText (s ++ t) = some v

/-! ## Numbers and strings -/

theorem bounds_of_isBare {c : Char} (hc : isBare c = true) :
    isBlank c = false ∧ endsBare c = false ∧ c ∉ ['"', '\x7b', '\x7d', '[', ']'] := by
  have hne : ∀ d : Char, isBare d = false → c ≠ d := by
    rintro d hd rfl
    rw [hc] at hd
    cases hd
  have h := fun d hd => hne d hd
  refine ⟨?_, ?_, ?_⟩
  · simp only [isBlank, Bool.or_eq_false_iff, beq_eq_false_iff_ne]
    exact ⟨h _ (by decide), h _ (by decide)⟩
  · simp only [endsBare, Bool.or_eq_false_iff, beq_eq_false_iff_ne]
    exact ⟨⟨⟨⟨⟨h _ (by decide), h _ (by decide)⟩, h _ (by decide)⟩, h _ (by decide)⟩,
      h _ (by decide)⟩, h _ (by decide)⟩
  · simp only [List.mem_cons, List.not_mem_nil, or_false, not_or]
    exact ⟨h _ (by decide), h _ (by decide), h _ (by decide), h _ (by decide), h _ (by decide)⟩

theorem endsBare_of_ends {t : List Char} (ht : EndsValue t) :
    ∃ c r, t = c :: r ∧ endsBare c = true := by
  obtain ⟨c, r, rfl, hc⟩ := ht
  refine ⟨c, r, rfl, ?_⟩
  simp only [List.mem_cons, List.not_mem_nil, or_false] at hc
  rcases hc with rfl | rfl <;> rfl

theorem valueText_bare {w : List Char} (hne : w ≠ []) (hw : ∀ c ∈ w, isBare c = true) (n : ℕ)
    {t : List Char} (ht : EndsValue t) :
    valueText (List.replicate n ' ' ++ w ++ t) = some w := by
  obtain ⟨e, r, rfl, he⟩ := endsBare_of_ends ht
  have htake : (w ++ e :: r).takeWhile (fun c => !endsBare c) = w := by
    rw [List.takeWhile_append_of_pos, List.takeWhile_cons_of_neg, List.append_nil]
    · rw [he]
      exact Bool.false_ne_true
    · intro c hc
      rw [(bounds_of_isBare (hw c hc)).2.1]
      rfl
  cases w with
  | nil => exact absurd rfl hne
  | cons d w =>
      obtain ⟨hblank, -, hmem⟩ := bounds_of_isBare (hw d List.mem_cons_self)
      have hdrop : (List.replicate n ' ' ++ (d :: w) ++ e :: r).dropWhile isBlank =
          d :: (w ++ e :: r) := by
        rw [List.append_assoc, List.dropWhile_append_of_pos, List.cons_append,
          List.dropWhile_cons_of_neg (by rw [hblank]; exact Bool.false_ne_true)]
        intro c hc
        rw [List.eq_of_mem_replicate hc]
        rfl
      simp only [List.mem_cons, List.not_mem_nil, or_false, not_or] at hmem
      obtain ⟨hquote, hbrace, -, hbracket, -⟩ := hmem
      rw [valueText, hdrop]
      split
      · rename_i heq
        cases heq
      · rename_i heq
        exact absurd (List.cons.inj heq).1 hquote
      · rename_i heq
        exact absurd (List.cons.inj heq).1 hbrace
      · rename_i heq
        exact absurd (List.cons.inj heq).1 hbracket
      · rename_i heq
        rw [← heq]
        exact congrArg some htake

theorem BareText.delimited {s : List Char} (hs : BareText s) : Delimited s := by
  obtain ⟨n, w, rfl, hne, hw⟩ := hs
  exact ⟨w, fun t ht => valueText_bare hne hw n ht⟩

theorem quoted_chars {s : List Char} (hs : Chars s) (t : List Char) :
    quoted (s ++ '"' :: t) = s := by
  induction hs with
  | nil => rfl
  | @plain c s hc hs ih =>
      rw [isPlain, Bool.and_eq_true, Bool.and_eq_true, bne_iff_ne, bne_iff_ne] at hc
      rw [List.cons_append, quoted, if_neg hc.1.2, ih]
      · rintro rfl
        exact absurd rfl hc.2
      · rintro _ _ rfl
        exact absurd rfl hc.2
  | @escape c s _ _ ih => rw [List.cons_append, List.cons_append, quoted, ih]
  | @unicode a b c d s ha hb hc hd hs ih =>
      have hhex : ∀ {x : Char}, isHex x = true → ∀ r, quoted (x :: r) = x :: quoted r := by
        intro x hx r
        have hquote : x ≠ '"' := by
          rintro rfl
          cases hx
        rw [quoted, if_neg hquote]
        · rintro rfl
          cases hx
        · rintro _ _ rfl
          cases hx
      simp only [List.cons_append]
      rw [quoted, hhex ha, hhex hb, hhex hc, hhex hd, ih]

theorem valueText_str {w : List Char} (hw : Chars w) (t : List Char) :
    valueText ('"' :: (w ++ ['"']) ++ t) = some w := by
  rw [List.cons_append, List.append_assoc, valueText, List.dropWhile_cons_of_neg (by decide)]
  exact congrArg some (quoted_chars hw t)

theorem delimited_str {s : List Char} (hs : Str s) : Delimited s := by
  obtain ⟨hs⟩ := hs
  rename_i w
  exact ⟨w, fun t _ => valueText_str hs t⟩

/-! ## Objects and arrays -/

theorem balanced_body {opening closing : Char} {s : List Char} (hopen : opening ∉ s)
    (hclose : closing ∉ s) (hne : opening ≠ closing) (t : List Char) :
    balanced opening closing 1 (s ++ closing :: t) = some (s ++ [closing]) := by
  induction s with
  | nil => rw [List.nil_append, balanced, if_neg (Ne.symm hne), if_pos rfl, if_pos (Nat.le_refl 1)]; rfl
  | cons c s ih =>
      rw [List.mem_cons, not_or] at hopen hclose
      rw [List.cons_append, balanced, if_neg (Ne.symm hopen.1), if_neg (Ne.symm hclose.1),
        ih hopen.2 hclose.2]
      rfl

theorem delimited_object {s : List Char} (hs : NoBraces s) :
    Delimited ('\x7b' :: (s ++ ['\x7d'])) := by
  refine ⟨'\x7b' :: (s ++ ['\x7d']), fun t _ => ?_⟩
  have h := valueText_object hs.1 hs.2 t
  rwa [List.cons_append, List.append_assoc]

theorem delimited_array {s : List Char} (hopen : '[' ∉ s) (hclose : ']' ∉ s) :
    Delimited ('[' :: (s ++ [']'])) := by
  refine ⟨'[' :: (s ++ [']']), fun t _ => ?_⟩
  rw [List.cons_append, List.append_assoc, valueText, List.dropWhile_cons_of_neg (by decide)]
  simp only
  rw [balanced, if_pos rfl, List.singleton_append, balanced_body hopen hclose (by decide)]
  rfl

theorem BareText.noBraces {s : List Char} (hs : BareText s) : NoBraces s := by
  obtain ⟨n, w, rfl, -, hw⟩ := hs
  refine NoBraces.append ?_ (noBraces_of_all fun c hc => ?_)
  · refine noBraces_of_all fun c hc => ?_
    rw [List.eq_of_mem_replicate hc]
    exact ⟨by decide, by decide⟩
  · have hmem := (bounds_of_isBare (hw c hc)).2.2
    simp only [List.mem_cons, List.not_mem_nil, or_false, not_or] at hmem
    exact ⟨hmem.2.1, hmem.2.2.1⟩

theorem delimited_members {v s : List Char} (hv : NoBraces v) (hs : NoBraces s) :
    Delimited ("\x7b\"value\":".toList ++ v ++ s ++ ['\x7d']) := by
  have hkey : NoBraces "\"value\":".toList := ⟨by decide, by decide⟩
  have h := delimited_object ((hkey.append hv).append hs)
  rw [show "\x7b\"value\":".toList = '\x7b' :: "\"value\":".toList from rfl]
  simpa only [List.cons_append, List.append_assoc] using h

theorem noBraces_name {s : List Char} (hs : NoBraces s) :
    NoBraces (",\"name\":".toList ++ writeJsonString s) :=
  NoBraces.append ⟨by decide, by decide⟩ (noBraces_writeJsonString hs)

theorem noBraces_paddedDigits (width n : ℕ) : NoBraces (paddedDigits width n) :=
  noBraces_of_all fun c hc => by
    have hmem := (bounds_of_isBare (isBare_digit (paddedDigits_digits width n c hc))).2.2
    simp only [List.mem_cons, List.not_mem_nil, or_false, not_or] at hmem
    exact ⟨hmem.2.1, hmem.2.2.1⟩

theorem NoBraces.cons {c : Char} {s : List Char} (hc : c ≠ '\x7b' ∧ c ≠ '\x7d')
    (hs : NoBraces s) : NoBraces (c :: s) := by
  rw [NoBraces, List.mem_cons, List.mem_cons, not_or, not_or]
  exact ⟨⟨hc.1.symm, hs.1⟩, hc.2.symm, hs.2⟩

theorem noBraces_formatDate (days : UInt16) : NoBraces (formatDate days) := by
  unfold formatDate
  dsimp only
  refine ((noBraces_paddedDigits _ _).append (.cons (by decide) (noBraces_paddedDigits _ _))).append
    (.cons (by decide) (noBraces_paddedDigits _ _))

theorem noBraces_formatTime (seconds : Binary64) (precision : ℕ) (trim : Bool) :
    NoBraces (formatTime seconds precision trim) := by
  have hpadded := noBraces_paddedDigits
  unfold formatTime
  split
  · exact ⟨by decide, by decide⟩
  · dsimp only
    have hsign : NoBraces (if Float64.lt seconds (Float64.ofInt 0) then ['-'] else []) := by
      split
      · exact ⟨by decide, by decide⟩
      · exact ⟨nofun, nofun⟩
    have hhms := ((hsign.append (hpadded 2 ((Float64.toU64 (Float64.abs seconds)).toNat / 3600))).append
      (.cons (c := ':') (by decide)
        (hpadded 2 ((Float64.toU64 (Float64.abs seconds)).toNat / 60 % 60)))).append
      (.cons (c := ':') (by decide) (hpadded 2 ((Float64.toU64 (Float64.abs seconds)).toNat % 60)))
    split
    · exact hhms
    · split
      · exact hhms
      · exact hhms.append (.cons (by decide) (hpadded _ _))

theorem delimited_named {v s : List Char} (hv : NoBraces v) (hs : NoBraces s) :
    Delimited ("\x7b\"value\":".toList ++ v ++ ",\"name\":".toList ++ writeJsonString s ++
      ['\x7d']) := by
  have h := delimited_members hv (noBraces_name hs)
  simpa only [List.append_assoc] using h

theorem delimited_keyed {v : List Char} (hv : NoBraces v) :
    Delimited ("\x7b\"value\":".toList ++ v ++ ",\"key\":true\x7d".toList) := by
  have h := delimited_members hv (show NoBraces ",\"key\":true".toList from ⟨by decide, by decide⟩)
  rw [show ",\"key\":true\x7d".toList = ",\"key\":true".toList ++ ['\x7d'] from rfl]
  simpa only [List.append_assoc] using h

/-! ## Field values -/

/-- The names in the text hold no bracket that a reader counts. -/
def PlainNames : FieldValue Binary64 → Prop
  | .lookup _ name => ∀ s ∈ name, NoBraces s.toList
  | .pgn _ description => ∀ s ∈ description, NoBraces s.toList
  | .bitField _ bits => ∀ b ∈ bits, '[' ∉ b.2.toList ∧ ']' ∉ b.2.toList
  | _ => True

theorem not_mem_intercalate {b : Char} (hb : b ≠ ',') (items : List (List Char))
    (hitems : ∀ v ∈ items, b ∉ v) : b ∉ [','].intercalate items := by
  induction items with
  | nil => exact nofun
  | cons v items ih =>
      obtain ⟨hv, hitems⟩ := List.forall_mem_cons.mp hitems
      cases items with
      | nil => rwa [List.intercalate_singleton]
      | cons w items =>
          rw [List.intercalate_cons_of_ne_nil (by simp), List.mem_append, List.mem_append,
            List.mem_singleton]
          rintro ((h | h) | h)
          · exact hv h
          · exact hb h
          · exact ih hitems h

theorem delimited_writeBits (opts : JsonOptions) (bits : List (UInt64 × String))
    (hbits : ∀ b ∈ bits, '[' ∉ b.2.toList ∧ ']' ∉ b.2.toList) :
    Delimited (writeBits opts bits) := by
  unfold writeBits
  split
  · exact bareText_null.delimited
  · have hitem : ∀ b, b = '[' ∨ b = ']' → ∀ x ∈ bits, b ∉ (if opts.nameValue = true then
        "\x7b\"value\":".toList ++ digits x.1.toNat ++ ",\"name\":".toList ++
          writeJsonString x.2.toList ++ ['\x7d']
        else writeJsonString x.2.toList) := by
      intro b hb x hx
      have hmem : b ∈ ['\x7b', '\x7d', '[', ']'] := by
        rcases hb with rfl | rfl <;> decide
      have hname : b ∉ writeJsonString x.2.toList := by
        refine not_mem_writeJsonString hmem ?_
        rcases hb with rfl | rfl
        · exact (hbits x hx).1
        · exact (hbits x hx).2
      have hdigits : b ∉ digits x.1.toNat := by
        intro h
        have hbare := (bounds_of_isBare (all_digits _ b h)).2.2
        rcases hb with rfl | rfl <;> exact absurd (by decide) hbare
      have hkeys : b ∉ "\x7b\"value\":".toList ∧ b ∉ ",\"name\":".toList ∧ b ∉ ['\x7d'] := by
        rcases hb with rfl | rfl <;> decide
      split
      · simp only [List.mem_append, not_or]
        exact ⟨⟨⟨⟨hkeys.1, hdigits⟩, hkeys.2.1⟩, hname⟩, hkeys.2.2⟩
      · exact hname
    apply delimited_array
    · refine not_mem_intercalate (by decide) _ fun v hv => ?_
      obtain ⟨x, hx, rfl⟩ := List.mem_map.mp hv
      exact hitem '[' (Or.inl rfl) x hx
    · refine not_mem_intercalate (by decide) _ fun v hv => ?_
      obtain ⟨x, hx, rfl⟩ := List.mem_map.mp hv
      exact hitem ']' (Or.inr rfl) x hx

theorem delimited_writeLeaf (opts : JsonOptions) (f : DecodedField Binary64)
    (value : FieldValue Binary64) (hnames : PlainNames value) :
    Delimited (writeLeaf opts f value) := by
  have hmmsi : ∀ v, NoBraces (writeMmsi v) := fun v => by
    rw [writeMmsi]
    exact .cons (by decide) ((noBraces_paddedDigits _ _).append ⟨by decide, by decide⟩)
  have hkeyed : ∀ {v : List Char}, NoBraces v → Delimited v →
      Delimited (if opts.nameValue && f.partOfPrimaryKey then
        "\x7b\"value\":".toList ++ v ++ ",\"key\":true\x7d".toList else v) := by
    intro v hbraces hv
    split
    · exact delimited_keyed hbraces
    · exact hv
  have hnamed : ∀ {v s : List Char}, NoBraces v → NoBraces s →
      Delimited (if opts.nameValue then
        "\x7b\"value\":".toList ++ v ++ ",\"name\":".toList ++ writeJsonString s ++ ['\x7d']
        else writeJsonString s) := by
    intro v s hv hs
    split
    · exact delimited_named hv hs
    · exact delimited_str (str_writeJsonString s)
  cases value with
  | number v => exact (bareText_writeFixedFloat _ _ _).delimited
  | integer v => exact hkeyed (bareText_writeInt _).noBraces (bareText_writeInt _).delimited
  | float v => exact (bareText_display v).delimited
  | binary bytes => exact delimited_str (str_hexString bytes)
  | lookup value name =>
      simp only [writeLeaf]
      split
      · rw [List.append_assoc ("\x7b\"value\":".toList ++ digits value.toNat)]
        refine delimited_members (bareText_digits _).noBraces (NoBraces.append ?_ ?_)
        · split
          · exact ⟨by rintro ⟨⟩, by rintro ⟨⟩⟩
          · cases name with
            | none => exact ⟨by decide, by decide⟩
            | some s => exact noBraces_name (hnames s rfl)
        · rw [keySuffix]
          split
          · exact ⟨by decide, by decide⟩
          · exact ⟨by rintro ⟨⟩, by rintro ⟨⟩⟩
      · cases name with
        | none => exact (bareText_digits _).delimited
        | some s => exact delimited_str (str_writeJsonString _)
  | bitField value bits => exact delimited_writeBits opts bits hnames
  | string s => exact delimited_str (str_writeJsonStringWithTable true s)
  | date d => exact hnamed (bareText_digits _).noBraces (noBraces_formatDate d)
  | time raw seconds => exact hnamed (bareText_writeInt _).noBraces (noBraces_formatTime _ _ _)
  | mmsi v => exact hkeyed (hmmsi v) (delimited_str (str_writeMmsi v))
  | pgn value description =>
      simp only [writeLeaf]
      split
      · refine delimited_members (bareText_digits _).noBraces ?_
        cases description with
        | none => exact ⟨by rintro ⟨⟩, by rintro ⟨⟩⟩
        | some s => exact noBraces_name (hnames s rfl)
      · exact (bareText_digits _).delimited
  | isoName value subfields => exact (bareText_digits _).delimited
  | reserved value bytes bitLength => exact delimited_str (str_hexString bytes)
  | spare value bytes bitLength => exact delimited_str (str_hexString bytes)
  | notAvailable => exact bareText_null.delimited
  | outOfRange value => exact delimited_str (str_writeJsonString _)
  | reservedValue value => exact delimited_str (str_writeJsonString _)
  | unsupported fieldType => exact delimited_str (str_writeJsonString _)

end Canboat
