import Canboat.Core.Parse
import Canboat.Core.Text
import Canboat.Lib.Json.Search

/-!
# Values in analyzer JSON

The value of a field is what follows the first occurrence of its key in the line; it is cut
out without a parse of the line.
-/

namespace Canboat.AnalyzerJson

open Json
open Binary64 (digits)

/-! ## Text of a value -/

/-- Up to a quote with no backslash before it. -/
def quoted : List Char → List Char
  | [] => []
  | ['\\'] => ['\\']
  | '\\' :: c :: s => '\\' :: c :: quoted s
  | c :: s => if c = '"' then [] else c :: quoted s

/-- Up to the bracket that closes the first; those within strings count too. -/
def balanced (opening closing : Char) : ℕ → List Char → Option (List Char)
  | _, [] => none
  | depth, c :: s =>
      if c = opening then (balanced opening closing (depth + 1) s).map (c :: ·)
      else if c = closing then
        if depth ≤ 1 then some [c] else (balanced opening closing (depth - 1) s).map (c :: ·)
      else (balanced opening closing depth s).map (c :: ·)

def isBlank (c : Char) : Bool := c == ' ' || c == '\t'

def endsBare (c : Char) : Bool :=
  c == ',' || c == '\x7d' || c == ' ' || c == '\t' || c == '\n' || c == '\r'

/-- The value that the text begins with. -/
def valueText (s : List Char) : Option (List Char) :=
  match s.dropWhile isBlank with
  | [] => none
  | '"' :: s => some (quoted s)
  | '\x7b' :: s => balanced '\x7b' '\x7d' 0 ('\x7b' :: s)
  | '[' :: s => balanced '[' ']' 0 ('[' :: s)
  | c :: s => some ((c :: s).takeWhile fun c => !endsBare c)

/-- A string without its quotes, or the text of another value. -/
def value (msg field : List Char) : Option (List Char) := (afterKey? field msg).bind valueText

theorem quoted_length_le (s : List Char) : (quoted s).length ≤ s.length := by
  fun_induction quoted s with
  | case1 => exact Nat.le_refl _
  | case2 => exact Nat.le_refl _
  | case3 c s ih =>
      simp only [List.length_cons]
      omega
  | case4 s =>
      exact Nat.zero_le _
  | case5 c s _ _ _ ih =>
      simp only [List.length_cons]
      omega

theorem balanced_length_le {opening closing : Char} {depth : ℕ} {s v : List Char}
    (h : balanced opening closing depth s = some v) : v.length ≤ s.length := by
  induction s generalizing depth v with
  | nil => cases h
  | cons c s ih =>
      have hcons : ∀ {d : ℕ}, (balanced opening closing d s).map (c :: ·) = some v →
          v.length ≤ (c :: s).length := by
        intro d hd
        obtain ⟨w, hw, rfl⟩ := Option.map_eq_some_iff.mp hd
        have := ih hw
        simp only [List.length_cons]
        omega
      rw [balanced] at h
      split_ifs at h
      · exact hcons h
      · cases h
        exact Nat.succ_le_succ (Nat.zero_le _)
      · exact hcons h
      · exact hcons h

theorem valueText_length_le {s v : List Char} (h : valueText s = some v) :
    v.length ≤ s.length := by
  have hdrop : (s.dropWhile isBlank).length ≤ s.length := (List.dropWhile_suffix _).length_le
  rw [valueText] at h
  split at h
  · cases h
  · rename_i t heq
    cases h
    rw [heq, List.length_cons] at hdrop
    have := quoted_length_le t
    omega
  · rename_i t heq
    rw [heq] at hdrop
    exact (balanced_length_le h).trans hdrop
  · rename_i t heq
    rw [heq] at hdrop
    exact (balanced_length_le h).trans hdrop
  · rename_i c t _ _ _ heq
    cases h
    rw [heq] at hdrop
    exact (List.takeWhile_prefix _).length_le.trans hdrop

theorem value_length_lt {msg field v : List Char} (h : value msg field = some v) :
    v.length < msg.length := by
  obtain ⟨t, ht, hv⟩ := Option.bind_eq_some_iff.mp h
  exact (valueText_length_le hv).trans_lt (afterKey?_length_lt ht)

/-! ## Typed values -/

/-- In an object, its own `value`. -/
def int (msg field : List Char) : Option Int64 :=
  match _h : value msg field with
  | none => none
  | some v => if v.head? = some '\x7b' then int v "value".toList else parseI64 (trim v)
termination_by msg.length
decreasing_by exact value_length_lt _h

def number {F : Type} [Float64 F] (msg field : List Char) : Option F :=
  match _h : value msg field with
  | none => none
  | some v =>
      if v = "null".toList ∨ v = [] then none
      else if v.head? = some '\x7b' then number v "value".toList
      else parseF64 (trim v)
termination_by msg.length
decreasing_by exact value_length_lt _h

/-- The code of a lookup, in an object or bare. -/
def lookupInt (msg field : List Char) : Option Int64 :=
  match value msg field with
  | none => none
  | some obj => if obj.head? = some '\x7b' then int obj "value".toList else parseI64 (trim obj)

theorem int_eq (msg field : List Char) :
    int msg field = (value msg field).bind fun v =>
      if v.head? = some '\x7b' then int v "value".toList else parseI64 (trim v) := by
  rw [int]
  split
  · rename_i h
    rw [h]
    rfl
  · rename_i h
    rw [h]
    rfl

theorem number_eq {F : Type} [Float64 F] (msg field : List Char) :
    (number msg field : Option F) = (value msg field).bind fun v =>
      if v = "null".toList ∨ v = [] then none
      else if v.head? = some '\x7b' then number v "value".toList
      else parseF64 (trim v) := by
  rw [number]
  split
  · rename_i h
    rw [h]
    rfl
  · rename_i h
    rw [h]
    rfl

theorem lookupInt_eq_int (msg field : List Char) : lookupInt msg field = int msg field := by
  rw [lookupInt, int_eq]
  cases value msg field with
  | none => rfl
  | some v => rfl

/-! ## Reading what is written -/

theorem trimStart_of_head {c : Char} {s : List Char} (hc : isWhitespace c = false) :
    trimStart (c :: s) = c :: s := by
  rw [trimStart, List.dropWhile_cons_of_neg]
  rw [hc]
  exact Bool.false_ne_true

theorem trimStart_of_all {s : List Char} (hs : ∀ c ∈ s, isWhitespace c = false) :
    trimStart s = s := by
  cases s with
  | nil => rfl
  | cons c s => exact trimStart_of_head (hs c List.mem_cons_self)

theorem trim_of_all {s : List Char} (hs : ∀ c ∈ s, isWhitespace c = false) : trim s = s := by
  have hrev : ∀ c ∈ s.reverse, isWhitespace c = false := fun c hc => hs c (List.mem_reverse.mp hc)
  rw [trim, trimStart_of_all hs, trimStart_of_all hrev, List.reverse_reverse]

theorem digits_all {p : Char → Prop} (hp : ∀ c : Char, c.isDigit = true → p c) (n : ℕ) :
    ∀ c ∈ digits n, p c := by
  intro c hc
  rw [Binary64.digits, Nat.toList_repr] at hc
  exact hp c (Nat.isDigit_of_mem_toDigits (by decide) (by decide) hc)

theorem isDigit_bounds {c : Char} (hc : c.isDigit = true) : 48 ≤ c.toNat ∧ c.toNat ≤ 57 := by
  rw [Char.isDigit, Bool.and_eq_true, decide_eq_true_eq, decide_eq_true_eq] at hc
  exact hc

theorem ne_of_isDigit {c d : Char} (hc : c.isDigit = true) (hd : d.isDigit = false) : c ≠ d := by
  rintro rfl
  rw [hc] at hd
  cases hd

theorem not_isWhitespace_of_isDigit {c : Char} (hc : c.isDigit = true) :
    isWhitespace c = false := by
  have hb := isDigit_bounds hc
  simp only [isWhitespace, Bool.or_eq_false_iff, Bool.and_eq_false_iff, decide_eq_false_iff_not,
    beq_eq_false_iff_ne]
  omega

theorem not_endsBare_of_isDigit {c : Char} (hc : c.isDigit = true) : endsBare c = false := by
  simp only [endsBare, Bool.or_eq_false_iff, beq_eq_false_iff_ne]
  exact ⟨⟨⟨⟨⟨ne_of_isDigit hc rfl, ne_of_isDigit hc rfl⟩, ne_of_isDigit hc rfl⟩,
    ne_of_isDigit hc rfl⟩, ne_of_isDigit hc rfl⟩, ne_of_isDigit hc rfl⟩

theorem valueText_digits (n : ℕ) {c : Char} (hc : endsBare c = true) (t : List Char) :
    valueText (digits n ++ c :: t) = some (digits n) := by
  have hall := digits_all (fun c hc => not_endsBare_of_isDigit hc) n
  obtain ⟨d, s, hs, hd⟩ := digits_cons n
  have hblank : isBlank d = false := by
    simp only [isBlank, Bool.or_eq_false_iff, beq_eq_false_iff_ne]
    exact ⟨ne_of_isDigit hd rfl, ne_of_isDigit hd rfl⟩
  have htake : (digits n ++ c :: t).takeWhile (fun c => !endsBare c) = digits n := by
    rw [List.takeWhile_append_of_pos, List.takeWhile_cons_of_neg, List.append_nil]
    · rw [hc]
      exact Bool.false_ne_true
    · intro x hx
      rw [hall x hx]
      rfl
  rw [hs] at htake ⊢
  rw [valueText, List.cons_append, List.dropWhile_cons_of_neg (by rw [hblank]; exact Bool.false_ne_true)]
  split
  · rename_i heq
    cases heq
  · rename_i heq
    cases heq
    cases hd
  · rename_i heq
    cases heq
    cases hd
  · rename_i heq
    cases heq
    cases hd
  · rename_i heq
    cases heq
    exact congrArg some htake

/-- An object with no braces within. -/
theorem valueText_object {s : List Char} (hopen : '\x7b' ∉ s) (hclose : '\x7d' ∉ s)
    (t : List Char) :
    valueText ('\x7b' :: (s ++ '\x7d' :: t)) = some ('\x7b' :: (s ++ ['\x7d'])) := by
  have hbody : balanced '\x7b' '\x7d' 1 (s ++ '\x7d' :: t) = some (s ++ ['\x7d']) := by
    induction s with
    | nil => rfl
    | cons c s ih =>
        rw [List.mem_cons, not_or] at hopen hclose
        rw [List.cons_append, balanced, if_neg (Ne.symm hopen.1), if_neg (Ne.symm hclose.1),
          ih hopen.2 hclose.2]
        rfl
  rw [valueText, List.dropWhile_cons_of_neg (by decide)]
  simp only
  rw [balanced, if_pos rfl, hbody]
  rfl

/-- A number on its own. -/
theorem int_digits {msg field : List Char} {n : ℕ} {c : Char} {t : List Char}
    (hmsg : afterKey? field msg = some (digits n ++ c :: t)) (hc : endsBare c = true)
    (hn : n < 9223372036854775808) : int msg field = some (Int64.ofNat n) := by
  have hvalue : value msg field = some (digits n) := by
    rw [value, hmsg, Option.bind_some, valueText_digits n hc]
  obtain ⟨d, s, hs, hd⟩ := digits_cons n
  have hhead : (digits n).head? ≠ some '\x7b' := by
    rw [hs, List.head?_cons]
    rintro ⟨⟩
    cases hd
  rw [int_eq, hvalue, Option.bind_some, if_neg hhead,
    trim_of_all (digits_all (fun c hc => not_isWhitespace_of_isDigit hc) n), parseI64_digits hn]

/-- A number in an object, with text after it that holds no braces. -/
theorem int_object {msg field : List Char} {n : ℕ} {s t : List Char}
    (hmsg : afterKey? field msg =
      some ('\x7b' :: ("\"value\":".toList ++ digits n ++ s ++ '\x7d' :: t)))
    (hs : s = [] ∨ ∃ r, s = ',' :: r) (hopen : '\x7b' ∉ s) (hclose : '\x7d' ∉ s)
    (hn : n < 9223372036854775808) : int msg field = some (Int64.ofNat n) := by
  have hbrace : ∀ {b : Char}, b.isDigit = false → b ∉ "\"value\":".toList → b ∉ s →
      b ∉ "\"value\":".toList ++ digits n ++ s := by
    intro b hb hkey hs
    simp only [List.mem_append, not_or]
    exact ⟨⟨hkey, fun h => digits_all (fun c hc => ne_of_isDigit hc hb) n b h rfl⟩, hs⟩
  have hvalue : value msg field =
      some ('\x7b' :: ("\"value\":".toList ++ digits n ++ s ++ ['\x7d'])) := by
    rw [value, hmsg, Option.bind_some, valueText_object
      (hbrace rfl (by decide) hopen) (hbrace rfl (by decide) hclose)]
  have hinner : afterKey? "value".toList
      ('\x7b' :: ("\"value\":".toList ++ digits n ++ s ++ ['\x7d'])) =
        some (digits n ++ (s ++ ['\x7d'])) := by
    have hpass : Passes "value".toList ['\x7b'] := passes_of_noQuote (by decide)
    have h := hpass ("\"value\":".toList ++ (digits n ++ (s ++ ['\x7d'])))
    rw [List.singleton_append] at h
    rw [List.append_assoc, List.append_assoc, h]
    exact afterKey?_key "value".toList _
  rw [int_eq, hvalue, Option.bind_some, if_pos List.head?_cons]
  obtain rfl | ⟨r, rfl⟩ := hs
  · exact int_digits hinner rfl hn
  · exact int_digits hinner rfl hn

end Canboat.AnalyzerJson
