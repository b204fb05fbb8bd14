import Canboat.Core.Float64
import Mathlib.Algebra.Field.Rat

/-!
# Numbers out of text

What `parse` accepts.
-/

namespace Canboat

/-- Decimal digits, at least one. -/
def parseDigits (s : List Char) : Option ℕ :=
  if s ≠ [] ∧ s.all Char.isDigit then some (Nat.ofDigitChars 10 s 0) else none

/-- Without its sign, and whether that was a minus. -/
def splitSign (s : List Char) : Bool × List Char :=
  match s with
  | '-' :: t => (true, t)
  | '+' :: t => (false, t)
  | s => (false, s)

/-- A signed number within the bounds. -/
def parseSigned (lo hi : ℤ) (s : List Char) : Option ℤ :=
  ((parseDigits (splitSign s).2).map fun n : ℕ =>
    if (splitSign s).1 then -(n : ℤ) else (n : ℤ)).filter fun n => lo ≤ n ∧ n ≤ hi

/-- An unsigned number; a minus is no sign of one. -/
def parseUnsigned (max : ℕ) (s : List Char) : Option ℕ :=
  (match s with
    | '+' :: t => parseDigits t
    | s => parseDigits s).filter (· ≤ max)

/-- `parse::<i64>()`. -/
def parseI64 (s : List Char) : Option Int64 :=
  (parseSigned (-9223372036854775808) 9223372036854775807 s).map Int64.ofInt

/-- `parse::<u32>()`. -/
def parseU32 (s : List Char) : Option UInt32 := (parseUnsigned 4294967295 s).map UInt32.ofNat

/-- The digits after the point, if there is one. -/
def splitFraction (s : List Char) : List Char × List Char :=
  match s with
  | '.' :: t => (t.takeWhile Char.isDigit, t.dropWhile Char.isDigit)
  | s => ([], s)

/-- The exponent, zero where there is none. -/
def parseExponent (s : List Char) : Option ℤ :=
  match s with
  | [] => some 0
  | e :: t =>
      if e = 'e' ∨ e = 'E' then
        (parseDigits (splitSign t).2).map fun n : ℕ =>
          if (splitSign t).1 then -(n : ℤ) else (n : ℤ)
      else none

/-- Digits, with a point or an exponent where they are wanted. -/
def parseDecimal (s : List Char) : Option ℚ :=
  let int := s.takeWhile Char.isDigit
  let (frac, rest) := splitFraction (s.dropWhile Char.isDigit)
  if int = [] ∧ frac = [] then none
  else
    (parseExponent rest).map fun exp : ℤ =>
      (Nat.ofDigitChars 10 (int ++ frac) 0 : ℚ) * 10 ^ (exp - frac.length)

/-- `parse::<f64>()`. -/
def parseF64 {F : Type} [Float64 F] (s : List Char) : Option F :=
  let (neg, body) := splitSign s
  let magnitude : Option F :=
    match parseDecimal body with
    | some q => some (Float64.ofRat q)
    | none =>
        let word := body.map Char.toLower
        if word = "nan".toList then some Float64.nan
        else if word = "inf".toList ∨ word = "infinity".toList then
          some (Float64.div (Float64.ofInt 1) (Float64.ofInt 0))
        else none
  magnitude.map fun v => if neg then Float64.mul (Float64.ofInt (-1)) v else v

/-! ## Numerals -/

theorem parseDigits_toDigits (n : ℕ) : parseDigits (Nat.toDigits 10 n) = some n := by
  have hdigits : (Nat.toDigits 10 n).all Char.isDigit = true :=
    List.all_eq_true.mpr fun c hc => Nat.isDigit_of_mem_toDigits (by decide) (by decide) hc
  rw [parseDigits, if_pos ⟨Nat.toDigits_ne_nil, hdigits⟩, Nat.ofDigitChars_ten_toDigits]

/-- A numeral begins with no sign. -/
theorem digits_cons (n : ℕ) : ∃ c s, Binary64.digits n = c :: s ∧ c.isDigit = true := by
  rw [Binary64.digits, Nat.toList_repr]
  cases hd : Nat.toDigits 10 n with
  | nil => exact absurd hd Nat.toDigits_ne_nil
  | cons c s =>
      refine ⟨c, s, rfl, Nat.isDigit_of_mem_toDigits (b := 10) (n := n) (by decide) (by decide) ?_⟩
      rw [hd]
      exact List.mem_cons_self

theorem parseDigits_digits (n : ℕ) : parseDigits (Binary64.digits n) = some n := by
  rw [Binary64.digits, Nat.toList_repr, parseDigits_toDigits]

theorem splitSign_digits (n : ℕ) : splitSign (Binary64.digits n) = (false, Binary64.digits n) := by
  obtain ⟨c, s, hs, hc⟩ := digits_cons n
  rw [hs, splitSign]
  · rintro t ⟨⟩
    cases hc
  · rintro t ⟨⟩
    cases hc

theorem parseSigned_digits {lo hi : ℤ} {n : ℕ} (hlo : lo ≤ n) (hhi : (n : ℤ) ≤ hi) :
    parseSigned lo hi (Binary64.digits n) = some (n : ℤ) := by
  rw [parseSigned, splitSign_digits, parseDigits_digits, Option.map_some,
    if_neg Bool.false_ne_true, Option.filter_some, if_pos (decide_eq_true ⟨hlo, hhi⟩)]

/-- A number of at most 63 bits reads back as a 64-bit one. -/
theorem parseI64_digits {n : ℕ} (hn : n < 9223372036854775808) :
    parseI64 (Binary64.digits n) = some (Int64.ofNat n) := by
  rw [parseI64, parseSigned_digits (by omega) (by omega), Option.map_some]
  rfl

example : parseI64 "-042".toList = some (-42) ∧ parseI64 "9223372036854775808".toList = none ∧
    parseI64 "+".toList = none := by decide

end Canboat
