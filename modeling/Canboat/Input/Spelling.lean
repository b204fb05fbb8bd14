import Canboat.Input.Delimited
import Canboat.Output.Precision

/-!
# The words of values

A value is a word in its member, bare or between quotes, or the word is the `value` of an object
there. The reader finds the word in either, and takes a number from it.
-/

namespace Canboat

open Json AnalyzerJson
open Binary64 (digits paddedDigits decimal)

/-! ## Words -/

/-- The word is what is read of the text, with any member behind it. -/
def IsWord (text word : List Char) : Prop := ∀ t, EndsValue t → valueText (text ++ t) = some word

/-- The text is a word, or an object with the word for its value. -/
inductive Spells (word : List Char) : List Char → Prop
  | word {text : List Char} (h : IsWord text word) : Spells word text
  | object {text rest : List Char} (h : IsWord text word) (htext : NoBraces text)
      (hrest : NoBraces rest) (hsep : rest = [] ∨ ∃ r, rest = ',' :: r) :
      Spells word ("\x7b\"value\":".toList ++ text ++ rest ++ ['\x7d'])

theorem isWord_bare {word : List Char} (hne : word ≠ []) (hw : ∀ c ∈ word, isBare c = true) :
    IsWord word word := fun _ ht => valueText_bare hne hw 0 ht

theorem isWord_padded {word : List Char} (hne : word ≠ []) (hw : ∀ c ∈ word, isBare c = true)
    (width : ℕ) : IsWord (padLeft width word) word := fun _ ht => valueText_bare hne hw _ ht

theorem isWord_quoted {word : List Char} (hw : Chars word) : IsWord ('"' :: (word ++ ['"'])) word :=
  fun t _ => valueText_str hw t

/-- What the reader finds at a key: the word, or an object with the word in it. -/
inductive Finds (line key word : List Char) : Prop
  | word (hvalue : value line key = some word)
  | object {obj : List Char} (hvalue : value line key = some obj)
      (hobj : obj.head? = some '\x7b') (hnull : obj ≠ "null".toList)
      (hinner : value obj "value".toList = some word)

theorem value_object {text rest word : List Char} (h : IsWord text word)
    (hsep : rest = [] ∨ ∃ r, rest = ',' :: r) :
    value ("\x7b\"value\":".toList ++ text ++ rest ++ ['\x7d']) "value".toList = some word := by
  have hends : EndsValue (rest ++ ['\x7d']) := by
    rcases hsep with rfl | ⟨r, rfl⟩
    · exact ⟨'\x7d', [], rfl, by decide⟩
    · exact ⟨',', r ++ ['\x7d'], rfl, by decide⟩
  have hsearch : afterKey? "value".toList
      ('\x7b' :: ("\"value\":".toList ++ text ++ rest ++ ['\x7d'])) =
        some (text ++ (rest ++ ['\x7d'])) := by
    have hpass : Passes "value".toList ['\x7b'] := passes_of_noQuote (by decide)
    have hpassed := hpass ("\"value\":".toList ++ (text ++ (rest ++ ['\x7d'])))
    rw [List.singleton_append] at hpassed
    rw [List.append_assoc, List.append_assoc, hpassed]
    exact afterKey?_key "value".toList _
  rw [show "\x7b\"value\":".toList ++ text ++ rest ++ ['\x7d'] =
    '\x7b' :: ("\"value\":".toList ++ text ++ rest ++ ['\x7d']) from rfl, value, hsearch]
  exact h _ hends

/-- The reader finds what the member's text spells. -/
theorem Spells.finds {line key word text t : List Char} (h : Spells word text)
    (ht : EndsValue t) (hvalue : value line key = valueText (text ++ t)) :
    Finds line key word := by
  cases h with
  | word h =>
      rw [h t ht] at hvalue
      exact .word hvalue
  | @object text rest h htext hrest hsep =>
      have hobject := valueText_object (s := "\"value\":".toList ++ text ++ rest)
        (((NoBraces.append ⟨by decide, by decide⟩ htext).append hrest).1)
        (((NoBraces.append ⟨by decide, by decide⟩ htext).append hrest).2) t
      refine @Finds.object line key word ("\x7b\"value\":".toList ++ text ++ rest ++ ['\x7d'])
        ?_ rfl ?_ (value_object h hsep)
      · rw [hvalue]
        rw [show "\x7b\"value\":".toList = '\x7b' :: "\"value\":".toList from rfl]
        simpa only [List.cons_append, List.append_assoc, List.nil_append] using hobject
      · exact fun heq => absurd (congrArg List.head? heq) (by simp)

section Finds

variable {line key word : List Char} (h : Finds line key word)

include h

theorem Finds.int_eq (hword : word.head? ≠ some '\x7b') :
    int line key = parseI64 (trim word) := by
  rcases h with hvalue | ⟨hvalue, hobj, -, hinner⟩
  · rw [AnalyzerJson.int_eq, hvalue, Option.bind_some, if_neg hword]
  · rw [AnalyzerJson.int_eq, hvalue, Option.bind_some, if_pos hobj, AnalyzerJson.int_eq, hinner,
      Option.bind_some, if_neg hword]

theorem Finds.number_eq {F : Type} [Float64 F] (hword : word.head? ≠ some '\x7b')
    (hne : word ≠ []) (hnull : word ≠ "null".toList) :
    (number line key : Option F) = parseF64 (trim word) := by
  rcases h with hvalue | @⟨obj, hvalue, hobj, hobjNull, hinner⟩
  · rw [AnalyzerJson.number_eq, hvalue, Option.bind_some, if_neg (not_or.mpr ⟨hnull, hne⟩),
      if_neg hword]
  · have hobjNe : obj ≠ [] := by
      rintro rfl
      cases hobj
    rw [AnalyzerJson.number_eq, hvalue, Option.bind_some,
      if_neg (not_or.mpr ⟨hobjNull, hobjNe⟩), if_pos hobj,
      AnalyzerJson.number_eq, hinner, Option.bind_some, if_neg (not_or.mpr ⟨hnull, hne⟩),
      if_neg hword]

end Finds

/-! ## Numbers out of words -/

theorem not_isWhitespace_of_isBare {c : Char} (hc : isBare c = true) : isWhitespace c = false := by
  have hrange : (48 ≤ c.toNat ∧ c.toNat ≤ 57) ∨ (65 ≤ c.toNat ∧ c.toNat ≤ 90) ∨
      (97 ≤ c.toNat ∧ c.toNat ≤ 122) ∨ c = '.' ∨ c = '-' := by
    have hcases : ((decide (c.val ≥ 'A'.val ∧ c.val ≤ 'Z'.val) ||
        decide (c.val ≥ 'a'.val) && decide (c.val ≤ 'z'.val) ||
        decide (c.val ≥ '0'.val) && decide (c.val ≤ '9'.val)) || c == '.' || c == '-') = true := hc
    simp only [Bool.or_eq_true, Bool.and_eq_true, decide_eq_true_eq, beq_iff_eq] at hcases
    rcases hcases with (((hc | hc) | hc) | hc) | hc
    · exact Or.inr (Or.inl hc)
    · exact Or.inr (Or.inr (Or.inl hc))
    · exact Or.inl hc
    · exact Or.inr (Or.inr (Or.inr (Or.inl hc)))
    · exact Or.inr (Or.inr (Or.inr (Or.inr hc)))
  simp only [isWhitespace, Bool.or_eq_false_iff, Bool.and_eq_false_iff, decide_eq_false_iff_not,
    beq_eq_false_iff_ne]
  rcases hrange with h | h | h | rfl | rfl
  · omega
  · omega
  · omega
  · decide
  · decide

theorem trim_bare {word : List Char} (hw : ∀ c ∈ word, isBare c = true) : trim word = word :=
  trim_of_all fun c hc => not_isWhitespace_of_isBare (hw c hc)

theorem head_bare {word : List Char} (hw : ∀ c ∈ word, isBare c = true) :
    word.head? ≠ some '\x7b' := by
  intro h
  have hmem := (bounds_of_isBare (hw _ (List.mem_of_head? h))).2.2
  exact hmem (by decide)

theorem parseSigned_writeInt {lo hi n : ℤ} (hlo : lo ≤ n) (hhi : n ≤ hi) :
    parseSigned lo hi (writeInt n) = some n := by
  by_cases hneg : n < 0
  · have hsign : splitSign (writeInt n) = (true, digits n.natAbs) := by
      rw [writeInt, if_pos hneg]
      rfl
    have habs : -(n.natAbs : ℤ) = n := by omega
    rw [parseSigned, hsign, parseDigits_digits, Option.map_some, if_pos rfl, habs,
      Option.filter_some, if_pos (decide_eq_true ⟨hlo, hhi⟩)]
  · have habs : (n.natAbs : ℤ) = n := by omega
    have hdigits := @parseSigned_digits lo hi n.natAbs (by omega) (by omega)
    rw [writeInt, if_neg hneg, List.nil_append, hdigits, habs]

/-- A number is read back from its text. -/
theorem parseI64_writeInt (v : Int64) : parseI64 (writeInt v.toInt) = some v := by
  have hlo : -9223372036854775808 ≤ v.toInt := v.le_toInt
  have hhi : v.toInt ≤ 9223372036854775807 := v.toInt_le
  rw [parseI64, parseSigned_writeInt hlo hhi, Option.map_some, Int64.ofInt_toInt]

theorem bare_writeInt (n : ℤ) : writeInt n ≠ [] ∧ ∀ c ∈ writeInt n, isBare c = true :=
  ⟨List.append_ne_nil_of_right_ne_nil _ (Json.digits_ne_nil _), all_append (all_sign _) (all_digits _)⟩

theorem bare_padded (width n : ℕ) :
    paddedDigits width n ≠ [] ∧ ∀ c ∈ paddedDigits width n, isBare c = true :=
  ⟨List.append_ne_nil_of_right_ne_nil _ (Json.digits_ne_nil _),
    fun c hc => isBare_digit (paddedDigits_digits width n c hc)⟩

theorem parseDigits_padded (width n : ℕ) : parseDigits (paddedDigits width n) = some n := by
  have hall := List.all_eq_true.mpr (all_isDigit_padded width n)
  rw [parseDigits, if_pos ⟨(bare_padded width n).1, hall⟩, ofDigitChars_padded]

theorem splitSign_of_digit {c : Char} {s : List Char} (hc : c.isDigit = true) :
    splitSign (c :: s) = (false, c :: s) := by
  rw [splitSign]
  · rintro t ⟨⟩
    cases hc
  · rintro t ⟨⟩
    cases hc

theorem parseI64_padded {width n : ℕ} (hn : n < 9223372036854775808) :
    parseI64 (paddedDigits width n) = some (Int64.ofNat n) := by
  have hsign : splitSign (paddedDigits width n) = (false, paddedDigits width n) := by
    cases hs : paddedDigits width n with
    | nil => exact absurd hs (bare_padded width n).1
    | cons c s =>
        have hc := all_isDigit_padded width n c (by rw [hs]; exact List.mem_cons_self)
        exact splitSign_of_digit hc
  rw [parseI64, parseSigned, hsign, parseDigits_padded, Option.map_some,
    if_neg Bool.false_ne_true, Option.filter_some, if_pos (decide_eq_true (by omega))]
  rfl

theorem bare_prints {places : ℕ} {v : Binary64} {s : List Char} (h : Prints places v s) :
    s ≠ [] ∧ ∀ c ∈ s, isBare c = true := by
  cases h with
  | decimal _ _ => exact bare_decimal _ _ _
  | exact _ => exact bare_decimal _ _ _
  | special _ => exact bare_special _

/-- A word from which a number is read is not the word for none. -/
theorem ne_null_of_parseF64 {F : Type} [Float64 F] {word : List Char} {v : F}
    (h : parseF64 word = some v) : word ≠ "null".toList := by
  rintro rfl
  nomatch h

section Words

variable {line key word : List Char} (h : Finds line key word)
  (hw : word ≠ [] ∧ ∀ c ∈ word, isBare c = true)

include h hw

theorem Finds.int_bare : int line key = parseI64 word := by
  rw [h.int_eq (head_bare hw.2), trim_bare hw.2]

theorem Finds.number_bare {F : Type} [Float64 F] {v : F} (hv : parseF64 word = some v) :
    number line key = some v := by
  rw [h.number_eq (head_bare hw.2) hw.1 (ne_null_of_parseF64 hv), trim_bare hw.2, hv]

end Words

/-! ## What values spell -/

theorem spells_keyed {opts : JsonOptions} {f : DecodedField Binary64} {text word : List Char} (h : IsWord text word)
    (htext : NoBraces text) :
    Spells word (if opts.nameValue && f.partOfPrimaryKey then
      "\x7b\"value\":".toList ++ text ++ ",\"key\":true\x7d".toList else text) := by
  split
  · have hrest : NoBraces ",\"key\":true".toList := ⟨by decide, by decide⟩
    have hobject := Spells.object h htext hrest (Or.inr ⟨_, rfl⟩)
    rw [List.append_assoc] at hobject
    exact hobject
  · exact .word h

theorem spells_named {text word s : List Char} (h : IsWord text word) (htext : NoBraces text)
    (hs : NoBraces s) :
    Spells word ("\x7b\"value\":".toList ++ text ++ ",\"name\":".toList ++ writeJsonString s ++
      ['\x7d']) := by
  have hobject := Spells.object h htext (noBraces_name hs) (Or.inr ⟨_, rfl⟩)
  rwa [← List.append_assoc] at hobject

/-- What is said besides the value holds no brace, and is after a comma. -/
theorem spells_members {text word s : List Char} (h : IsWord text word) (htext : NoBraces text)
    (hs : AddsMembers s) :
    Spells word ("\x7b\"value\":".toList ++ text ++ s ++ ['\x7d']) := by
  obtain ⟨ps, hps, rfl⟩ := hs
  refine .object h htext (noBraces_pieces hps) ?_
  cases ps with
  | nil => exact Or.inl rfl
  | cons p ps =>
      refine Or.inr ⟨'"' :: (p.key ++ '"' :: ':' :: p.value) ++ ps.flatMap Piece.text, ?_⟩
      rw [List.flatMap_cons, Piece.text, (hps p List.mem_cons_self).sep]
      rfl

theorem isWord_writeInt (n : ℤ) : IsWord (writeInt n) (writeInt n) :=
  isWord_bare (bare_writeInt n).1 (bare_writeInt n).2

theorem isWord_digits (n : ℕ) : IsWord (digits n) (digits n) :=
  isWord_bare (Json.digits_ne_nil n) (all_digits n)

theorem isWord_writeMmsi (v : UInt32) : IsWord (writeMmsi v) (paddedDigits 9 v.toNat) := by
  have hchars := chars_of_plain (s := paddedDigits 9 v.toNat)
    (fun c hc => isPlain_digit (paddedDigits_digits _ _ c hc)) .nil
  rw [List.append_nil] at hchars
  exact isWord_quoted hchars

theorem noBraces_writeMmsi (v : UInt32) : NoBraces (writeMmsi v) := by
  rw [writeMmsi]
  exact .cons (by decide) ((noBraces_paddedDigits _ _).append ⟨by decide, by decide⟩)

end Canboat
