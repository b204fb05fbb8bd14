import Canboat.Core.Parse
import Canboat.Lib.Rounding

/-!
# Numerals that are read back

What `parse` makes of a number's own text.
-/

namespace Canboat

open Binary64 (digits paddedDigits decimal)

/-! ## Decimals -/

theorem all_isDigit_digits (n : ℕ) : ∀ c ∈ digits n, c.isDigit = true := by
  intro c hc
  rw [Binary64.digits, Nat.toList_repr] at hc
  exact Nat.isDigit_of_mem_toDigits (by decide) (by decide) hc

theorem all_isDigit_padded (width n : ℕ) : ∀ c ∈ paddedDigits width n, c.isDigit = true := by
  intro c hc
  rcases List.mem_append.mp hc with hc | hc
  · rw [List.eq_of_mem_replicate hc]
    rfl
  · exact all_isDigit_digits n c hc

theorem length_paddedDigits {width n : ℕ} (h : n < 10 ^ width) (hwidth : 0 < width) :
    (paddedDigits width n).length = width := by
  have hle : (digits n).length ≤ width := by
    rw [Binary64.digits, Nat.toList_repr]
    exact (Nat.length_toDigits_le_iff (by decide) hwidth).mpr h
  rw [paddedDigits, List.length_append, List.length_replicate, Nat.sub_add_cancel hle]

theorem ofDigitChars_digits (n : ℕ) : Nat.ofDigitChars 10 (digits n) 0 = n := by
  rw [Binary64.digits, Nat.toList_repr, Nat.ofDigitChars_ten_toDigits]

theorem ofDigitChars_padded (width n : ℕ) :
    Nat.ofDigitChars 10 (paddedDigits width n) 0 = n := by
  rw [paddedDigits, Nat.ofDigitChars_append, Nat.ofDigitChars_replicate_zero, Nat.mul_zero,
    ofDigitChars_digits]

theorem takeWhile_digits {s t : List Char} (hs : ∀ c ∈ s, c.isDigit = true)
    (ht : ∀ c ∈ t.head?, c.isDigit = false) :
    (s ++ t).takeWhile Char.isDigit = s ∧ (s ++ t).dropWhile Char.isDigit = t := by
  have hstop : t.takeWhile Char.isDigit = [] ∧ t.dropWhile Char.isDigit = t := by
    cases t with
    | nil => exact ⟨rfl, rfl⟩
    | cons c t =>
        have hc : ¬c.isDigit = true := by
          rw [ht c rfl]
          exact Bool.false_ne_true
        exact ⟨List.takeWhile_cons_of_neg hc, List.dropWhile_cons_of_neg hc⟩
  rw [List.takeWhile_append_of_pos hs, List.dropWhile_append_of_pos hs, hstop.1, hstop.2,
    List.append_nil]
  exact ⟨rfl, rfl⟩

theorem digits_ne_nil (n : ℕ) : digits n ≠ [] := by
  obtain ⟨c, s, hs, -⟩ := digits_cons n
  rw [hs]
  exact List.cons_ne_nil c s

theorem parseDecimal_of_split {s int frac : List Char} (hint : s.takeWhile Char.isDigit = int)
    (hfrac : splitFraction (s.dropWhile Char.isDigit) = (frac, [])) (hne : int ≠ []) :
    parseDecimal s =
      some ((Nat.ofDigitChars 10 (int ++ frac) 0 : ℚ) * 10 ^ ((0 : ℤ) - frac.length)) := by
  rw [parseDecimal, hint, hfrac]
  simp only [hne, false_and, if_false, parseExponent, Option.map_some]

/-- A decimal without a sign is the quotient that it stands for. -/
theorem parseDecimal_decimal (places n : ℕ) :
    parseDecimal (decimal false places n) = some (n / 10 ^ places : ℚ) := by
  rw [decimal, if_neg Bool.false_ne_true, List.nil_append]
  by_cases hplaces : places = 0
  · have hall := takeWhile_digits (t := []) (all_isDigit_digits n) nofun
    rw [List.append_nil] at hall
    have hfrac : splitFraction ((digits n).dropWhile Char.isDigit) = ([], []) := by
      rw [hall.2]
      rfl
    rw [if_pos hplaces, hplaces, parseDecimal_of_split hall.1 hfrac (digits_ne_nil n),
      List.append_nil, ofDigitChars_digits]
    simp
  · have hpos : 0 < places := Nat.pos_of_ne_zero hplaces
    have hlt : n % 10 ^ places < 10 ^ places := Nat.mod_lt _ (Nat.pow_pos (by decide))
    have hpadded := takeWhile_digits (t := [])
      (all_isDigit_padded places (n % 10 ^ places)) nofun
    rw [List.append_nil] at hpadded
    have hall := takeWhile_digits (t := '.' :: paddedDigits places (n % 10 ^ places))
      (all_isDigit_digits (n / 10 ^ places)) (by
        rintro c ⟨⟩
        rfl)
    have hfrac : splitFraction ((digits (n / 10 ^ places) ++
        '.' :: paddedDigits places (n % 10 ^ places)).dropWhile Char.isDigit) =
          (paddedDigits places (n % 10 ^ places), []) := by
      rw [hall.2, splitFraction, hpadded.1, hpadded.2]
    have hvalue : Nat.ofDigitChars 10 (digits (n / 10 ^ places) ++
        paddedDigits places (n % 10 ^ places)) 0 = n := by
      rw [Nat.ofDigitChars_append, ofDigitChars_digits, Nat.ofDigitChars_eq_ofDigitChars_zero,
        length_paddedDigits hlt hpos, ofDigitChars_padded, Nat.div_add_mod]
    rw [if_neg hplaces, parseDecimal_of_split hall.1 hfrac (digits_ne_nil _), hvalue,
      length_paddedDigits hlt hpos, zero_sub, zpow_neg, zpow_natCast, div_eq_mul_inv]

theorem splitSign_decimal (neg : Bool) (places n : ℕ) :
    splitSign (decimal neg places n) = (neg, decimal false places n) := by
  cases neg with
  | true => rfl
  | false =>
      have hfirst : ∃ c s, decimal false places n = c :: s ∧ c.isDigit = true := by
        rw [decimal, if_neg Bool.false_ne_true, List.nil_append]
        split
        · exact digits_cons n
        · obtain ⟨c, s, hs, hc⟩ := digits_cons (n / 10 ^ places)
          exact ⟨c, _, by rw [hs, List.cons_append], hc⟩
      obtain ⟨c, s, hs, hc⟩ := hfirst
      rw [hs, splitSign]
      · rintro t ⟨⟩
        cases hc
      · rintro t ⟨⟩
        cases hc

variable {F : Type} [Float64 F]

/-- The quotient, rounded, and then the sign. -/
theorem parseF64_decimal (neg : Bool) (places n : ℕ) :
    (parseF64 (decimal neg places n) : Option F) =
      some (if neg then Float64.mul (Float64.ofInt (-1)) (Float64.ofRat (n / 10 ^ places : ℚ))
        else Float64.ofRat (n / 10 ^ places : ℚ)) := by
  rw [parseF64, splitSign_decimal]
  simp only [parseDecimal_decimal, Option.map_some]

theorem parseF64_special (x : Binary64) (h : x.isFinite = false) :
    parseF64 x.special = some x := by
  cases x with
  | nan => decide
  | inf neg => cases neg <;> decide +kernel
  | fin x => cases h

/-- The shortest numeral of a number is the number. -/
theorem parseF64_display (x : Binary64) : parseF64 x.display = some x := by
  cases x with
  | nan => exact parseF64_special .nan rfl
  | inf neg => exact parseF64_special (.inf neg) rfl
  | fin x =>
      have hten : 0 < 10 ^ x.shortest.1 := Nat.pow_pos (by decide)
      have hnearest : Binary64.Finite.nearest { x with neg := false } x.shortest.2
          (10 ^ x.shortest.1) = true := by
        rw [x.nearest_neg, x.nearest_shortest]
      have hrat := Binary64.ofRat_div x.shortest.2 hten
      rw [Binary64.roundUnits_of_nearest { x with neg := false } hten hnearest] at hrat
      push_cast at hrat
      have hsign : (if x.neg then Binary64.mul (Binary64.ofInt (-1)) (.fin { x with neg := false })
          else .fin { x with neg := false }) = .fin x := by
        rw [Binary64.neg_one_mul]
        obtain ⟨neg, m, e, hm, he, hnormal⟩ := x
        cases neg <;> rfl
      have hparse := @parseF64_decimal Binary64 _ x.neg x.shortest.1 x.shortest.2
      rw [Binary64.display, hparse]
      exact congrArg some ((congrArg (fun v => if x.neg then
        Binary64.mul (Binary64.ofInt (-1)) v else v) hrat).trans hsign)

end Canboat
