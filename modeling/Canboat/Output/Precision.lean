import Canboat.Core.Numeral
import Canboat.Output.Number

/-!
# Printed numbers

A number that is printed with some decimal places is read back to within the last of them.
-/

namespace Canboat

open Binary64 (digits paddedDigits decimal signed one)

/-- Up to the last of the places, and what two roundings lose. -/
def Within (places : ℕ) : Binary64 → Binary64 → Prop
  | .fin x, .fin y => |y.toRat - x.toRat| ≤ 1 / 10 ^ places + |x.toRat| / 2 ^ 51
  | v, w => w = v

/-- The text of a number: of a decimal that is near to it, or of what is not finite. -/
inductive Prints (places : ℕ) : Binary64 → List Char → Prop
  | decimal {x : Binary64.Finite} {neg : Bool} {n : ℕ} (hsize : n < 2 ^ 100)
      (hnear : |signed neg (n / 10 ^ places) - x.toRat| ≤
        3 / 4 / 10 ^ places + |x.toRat| / 2 ^ 53) :
      Prints places (.fin x) (decimal neg places n)
  | exact {x : Binary64.Finite} {n : ℕ} (h : n * one = x.magnitude * 10 ^ places) :
      Prints places (.fin x) (decimal x.neg places n)
  | special {v : Binary64} (hv : v.isFinite = false) : Prints places v v.special

theorem precisionLoop_le {F : Type} [Float64 F] (n : ℕ) (r : F) : precisionLoop n r ≤ n := by
  induction n generalizing r with
  | zero => exact Nat.le_refl _
  | succ n ih =>
      rw [precisionLoop]
      split
      · exact Nat.succ_le_succ (ih _)
      · exact Nat.zero_le _

theorem effectivePrecision_le {F : Type} [Float64 F] (precision : Precision) (resolution : Option F) :
    effectivePrecision precision resolution ≤ 10 := by
  rw [effectivePrecision]
  split
  · exact precision.isLt.le.trans (by decide)
  · rw [precisionFor]
    split
    · exact Nat.zero_le _
    · exact precisionLoop_le 10 _

/-! ## Reading -/

theorem Within.refl (places : ℕ) (v : Binary64) : Within places v v := by
  cases v with
  | nan => rfl
  | inf neg => rfl
  | fin x =>
      rw [Within, sub_self, abs_zero]
      positivity

theorem pow_le_one : 2 ^ 64 ≤ one := by decide +kernel

/-- The sign is put on after the rounding. -/
theorem parseF64_signed {neg : Bool} {places n : ℕ} {y : Binary64.Finite} (hy : y.neg = false)
    (h : Binary64.ofRat (n / 10 ^ places : ℚ) = .fin y) :
    (parseF64 (decimal neg places n) : Option Binary64) = some (.fin { y with neg := neg }) := by
  have hsign : (if neg then Binary64.mul (Binary64.ofInt (-1)) (.fin y) else .fin y) =
      .fin { y with neg := neg } := by
    rw [Binary64.neg_one_mul, hy]
    obtain ⟨sign, m, e, hm, he, hnormal⟩ := y
    subst hy
    cases neg <;> rfl
  have hparse := @parseF64_decimal Binary64 _ neg places n
  rw [hparse]
  exact congrArg some ((congrArg (fun v => if neg then
    Binary64.mul (Binary64.ofInt (-1)) v else v) h).trans hsign)

/-- A part of the last place that the printing and the rounding leave to each other. -/
theorem within_of_near {places : ℕ} (hplaces : places ≤ 10) {x y : Binary64.Finite} {q : ℚ}
    (hprint : |q - x.toRat| ≤ 3 / 4 / 10 ^ places + |x.toRat| / 2 ^ 53)
    (hround : |y.toRat - q| ≤ 1 / 2 / one + |q| / 2 ^ 53) :
    Within places (.fin x) (.fin y) := by
  have hunit : (1 / 2 / one : ℚ) ≤ 1 / 8 / 10 ^ places := by
    have hpow : (10 ^ places : ℚ) ≤ 10 ^ 10 := pow_le_pow_right₀ (by norm_num) hplaces
    have hone : (2 ^ 64 : ℚ) ≤ one := by exact_mod_cast pow_le_one
    rw [div_div, div_div]
    refine one_div_le_one_div_of_le (by positivity) ?_
    linarith
  have hq : |q| ≤ |x.toRat| + (3 / 4 / 10 ^ places + |x.toRat| / 2 ^ 53) := by
    have h := abs_add_le x.toRat (q - x.toRat)
    rw [add_sub_cancel] at h
    linarith
  have htriangle : |y.toRat - x.toRat| ≤ |y.toRat - q| + |q - x.toRat| := abs_sub_le _ _ _
  have hplace : (0 : ℚ) < 1 / 10 ^ places := by positivity
  have hnonneg := abs_nonneg x.toRat
  rw [Within]
  rw [div_eq_mul_one_div (3 / 4 : ℚ)] at hprint hq
  rw [div_eq_mul_one_div (1 / 8 : ℚ)] at hunit
  linarith

theorem Prints.reads {places : ℕ} (hplaces : places ≤ 10) {v : Binary64} {s : List Char}
    (h : Prints places v s) : ∃ w, parseF64 s = some w ∧ Within places v w := by
  have hten : 0 < 10 ^ places := Nat.pow_pos (by decide)
  cases h with
  | special hv => exact ⟨v, parseF64_special v hv, .refl places v⟩
  | @exact x n h =>
      have hrat := Binary64.ofRat_div n hten
      rw [h] at hrat
      push_cast at hrat
      have hself := Binary64.roundUnits_self { x with neg := false } hten
      exact ⟨.fin x, @parseF64_signed x.neg _ _ { x with neg := false } rfl (hrat.trans hself), .refl places _⟩
  | @decimal x neg n hsize hnear =>
      have hquotient : (0 : ℚ) ≤ n / 10 ^ places := by positivity
      obtain ⟨k, hk, hone⟩ := Binary64.exists_pow
      have hlt : n * one / 10 ^ places < 2 ^ (100 + k) := by
        refine (Nat.div_le_self _ _).trans_lt ?_
        rw [hone, Nat.pow_add]
        exact Nat.mul_lt_mul_of_pos_right hsize (Nat.two_pow_pos k)
      obtain ⟨y, hy, hyneg, hround⟩ := Binary64.ofRat_near hten hlt (by omega)
      push_cast at hy hround
      refine ⟨_, parseF64_signed hyneg hy, within_of_near hplaces hnear ?_⟩
      rw [Binary64.Finite.toRat_neg hyneg, Binary64.signed_sub, Binary64.abs_signed, Binary64.abs_signed,
        abs_of_nonneg hquotient]
      exact hround

/-! ## Printing -/

/-- Half of the last place at most. -/
theorem near_of_divRound {places a n : ℕ} (hn : Binary64.divRound (a * 10 ^ places) one = n) :
    |(n / 10 ^ places - a / one : ℚ)| ≤ 1 / 2 / 10 ^ places := by
  obtain ⟨hle, hge⟩ := Binary64.divRound_near (a * 10 ^ places) Binary64.one_pos
  rw [hn] at hle hge
  have hle' : (2 * (n * one) : ℚ) ≤ 2 * (a * 10 ^ places) + one := by exact_mod_cast hle
  have hge' : (2 * (a * 10 ^ places) : ℚ) ≤ 2 * (n * one) + one := by exact_mod_cast hge
  have hone := Binary64.one_pos'
  have hten : (0 : ℚ) < 10 ^ places := by positivity
  generalize (one : ℚ) = u at *
  generalize (10 ^ places : ℚ) = t at *
  have hscale : (n / t - a / u : ℚ) = (2 * (n * u) - 2 * (a * t)) / (2 * (t * u)) := by
    field_simp
  have hhalf : (1 / 2 / t : ℚ) = u / (2 * (t * u)) := by
    field_simp
  rw [hscale, hhalf, abs_div, abs_of_pos (a := 2 * (t * u)) (by positivity)]
  refine div_le_div_of_nonneg_right (abs_sub_le_iff.mpr ⟨?_, ?_⟩) (by positivity)
  · linarith
  · linarith

theorem abs_signed_sub_toRat (x : Binary64.Finite) (q : ℚ) :
    |signed x.neg q - x.toRat| = |q - x.magnitude / one| := by
  rw [x.toRat_eq, Binary64.signed_sub, Binary64.abs_signed]

theorem abs_toRat (x : Binary64.Finite) : |x.toRat| = x.magnitude / one := by
  have hone := Binary64.one_pos'
  rw [x.toRat_eq, Binary64.abs_signed]
  exact abs_of_nonneg (div_nonneg (Nat.cast_nonneg _) hone.le)

theorem prints_displayFixed {places : ℕ} (hplaces : places ≤ 10) (v : Binary64) :
    Prints places v (v.displayFixed places) := by
  cases v with
  | nan => exact .special (v := .nan) rfl
  | inf neg => exact .special (v := .inf neg) rfl
  | fin x =>
      obtain ⟨k, -, hone⟩ := Binary64.exists_pow
      rw [Binary64.displayFixed]
      change Prints places _ (decimal x.neg places
        (Binary64.divRound (x.magnitude * 10 ^ places) one))
      by_cases hle : k ≤ x.e
      · -- a whole number
        have hwhole : x.magnitude = x.m * 2 ^ (x.e - k) * one := by
          rw [Binary64.Finite.magnitude, hone, Nat.mul_assoc, ← Nat.pow_add,
            Nat.sub_add_cancel hle]
        refine .exact ?_
        rw [hwhole, Nat.mul_right_comm, Binary64.divRound_mul _ Binary64.one_pos]
      · have hlt : x.magnitude ≤ 2 ^ 52 * one := by
          refine x.lt_pow.le.trans ?_
          rw [hone, ← Nat.pow_add]
          exact Nat.pow_le_pow_right Nat.two_pos (by omega)
        generalize hn : Binary64.divRound (x.magnitude * 10 ^ places) one = n
        refine .decimal ?_ ?_
        · have hten : 10 ^ places ≤ 10 ^ 10 := Nat.pow_le_pow_right (by decide) hplaces
          have hmul : x.magnitude * 10 ^ places ≤ 2 ^ 52 * one * 10 ^ 10 :=
            Nat.mul_le_mul hlt hten
          have hround := (Binary64.divRound_near (x.magnitude * 10 ^ places) Binary64.one_pos).1
          rw [hn] at hround
          refine Nat.lt_of_mul_lt_mul_right (a := one) ?_
          have := Binary64.one_pos
          omega
        · have hnear := near_of_divRound hn
          have hnonneg := abs_nonneg x.toRat
          have hplace : (1 / 2 / 10 ^ places : ℚ) ≤ 3 / 4 / 10 ^ places :=
            div_le_div_of_nonneg_right (by norm_num) (by positivity)
          rw [abs_signed_sub_toRat]
          linarith

/-- What is rounded to a whole number after it was scaled. -/
structure Scaled (x : Binary64.Finite) (places n : ℕ) : Prop where
  size : n < 2 ^ 41 * 10 ^ places
  near : |(n / 10 ^ places - x.magnitude / one : ℚ)| ≤
    3 / 4 / 10 ^ places + x.magnitude / one / 2 ^ 53

/-- The nearest whole number of units. -/
theorem near_round (a : ℕ) :
    |(((2 * a + one) / (2 * one) : ℕ) - a / one : ℚ)| ≤ 1 / 2 := by
  have hpos : 0 < 2 * one := Nat.mul_pos Nat.two_pos Binary64.one_pos
  have hle : (2 * a + one) / (2 * one) * (2 * one) ≤ 2 * a + one := Nat.div_mul_le_self _ _
  have hge : 2 * a + one < ((2 * a + one) / (2 * one) + 1) * (2 * one) :=
    Nat.lt_mul_of_div_lt (Nat.lt_succ_self _) hpos
  generalize (2 * a + one) / (2 * one) = n at *
  have hle' : (n * (2 * one) : ℚ) ≤ 2 * a + one := by exact_mod_cast hle
  have hge' : (2 * a + one : ℚ) < (n + 1) * (2 * one) := by exact_mod_cast hge
  have hone := Binary64.one_pos'
  generalize (one : ℚ) = u at *
  have hscale : (n - a / u : ℚ) = (n * (2 * u) - 2 * a) / (2 * u) := by
    field_simp
  have hhalf : (1 / 2 : ℚ) = u / (2 * u) := by
    field_simp
  rw [hscale, hhalf, abs_div, abs_of_pos (a := 2 * u) (by positivity)]
  refine div_le_div_of_nonneg_right (abs_sub_le_iff.mpr ⟨?_, ?_⟩) (by positivity)
  · linarith
  · linarith

theorem toIntWithin_round {x y : Binary64.Finite} {places : ℕ}
    (hx : x.magnitude < 1000000000000 * one)
    (hy : |(y.magnitude / one - x.magnitude / one * 10 ^ places : ℚ)| ≤
      1 / 2 / one + x.magnitude / one * 10 ^ places / 2 ^ 53) :
    ∃ n : ℕ, Scaled x places n ∧ ∀ lo hi : ℤ, lo ≤ -n → n ≤ hi →
      Binary64.toIntWithin lo hi (.round (.fin y)) = if y.neg then -(n : ℤ) else n := by
  obtain ⟨z, hz, hneg, hmagnitude⟩ := Binary64.round_fin y
  have hround := near_round y.magnitude
  generalize (2 * y.magnitude + one) / (2 * one) = n at *
  have hscaled : n < 2 ^ 41 * 10 ^ places ∧ |(n / 10 ^ places - x.magnitude / one : ℚ)| ≤
      3 / 4 / 10 ^ places + x.magnitude / one / 2 ^ 53 := by
    have hunit : (1 / 2 / one : ℚ) ≤ 1 / 4 := by
      have hone : (2 ^ 64 : ℚ) ≤ one := by exact_mod_cast pow_le_one
      rw [div_div]
      exact one_div_le_one_div_of_le (by norm_num) (by linarith)
    have hvalue : (x.magnitude / one : ℚ) ≤ 1000000000000 := by
      have hx' : (x.magnitude : ℚ) < 1000000000000 * one := by exact_mod_cast hx
      exact (div_le_iff₀ Binary64.one_pos').mpr hx'.le
    generalize (x.magnitude / one : ℚ) = v at *
    have hpos : (0 : ℚ) < 10 ^ places := by positivity
    have hnear : |(n - v * 10 ^ places : ℚ)| ≤ 3 / 4 + v * 10 ^ places / 2 ^ 53 := by
      have h := abs_sub_le (n : ℚ) (y.magnitude / one) (v * 10 ^ places)
      linarith
    have hproduct : v * 10 ^ places ≤ 1000000000000 * 10 ^ places :=
      mul_le_mul_of_nonneg_right hvalue hpos.le
    have hone : (1 : ℚ) ≤ 10 ^ places := one_le_pow₀ (by norm_num)
    constructor
    · have h := (abs_le.mp hnear).2
      have hlt : (n : ℚ) < 2 ^ 41 * 10 ^ places := by linarith
      exact_mod_cast hlt
    · have hscale : (n / 10 ^ places - v : ℚ) = (n - v * 10 ^ places) / 10 ^ places := by
        field_simp
      have hbound : (3 / 4 / 10 ^ places + v / 2 ^ 53 : ℚ) =
          (3 / 4 + v * 10 ^ places / 2 ^ 53) / 10 ^ places := by
        field_simp
      rw [hscale, hbound, abs_div, abs_of_pos hpos]
      exact div_le_div_of_nonneg_right hnear hpos.le
  refine ⟨n, ⟨hscaled.1, hscaled.2⟩, fun lo hi hlo hhi => ?_⟩
  rw [hz, ← hneg]
  exact Binary64.toIntWithin_whole hmagnitude hlo hhi

theorem Scaled.lt {x : Binary64.Finite} {places n : ℕ} (h : Scaled x places n)
    (hplaces : places ≤ 10) : n < 2 ^ 100 := by
  have hten : 10 ^ places ≤ 10 ^ 10 := Nat.pow_le_pow_right (by decide) hplaces
  have hsize := h.size
  omega

theorem Scaled.prints {x : Binary64.Finite} {places n : ℕ} (h : Scaled x places n)
    (hplaces : places ≤ 10) : Prints places (.fin x) (decimal x.neg places n) := by
  refine .decimal (h.lt hplaces) ?_
  rw [abs_signed_sub_toRat, abs_toRat]
  exact h.near

/-- No minus before a zero. -/
theorem Scaled.prints_zero {x : Binary64.Finite} {places : ℕ} (h : Scaled x places 0) :
    Prints places (.fin x) (decimal false places 0) := by
  refine .decimal (Nat.two_pow_pos 100) ?_
  have hnear := h.near
  rw [← abs_signed_sub_toRat, Nat.cast_zero, zero_div] at hnear
  rw [abs_toRat, Nat.cast_zero, zero_div]
  have hzero : ∀ neg, signed neg 0 = 0 := by
    intro neg
    cases neg <;> simp [signed]
  rw [hzero] at hnear ⊢
  exact hnear

theorem scaled_self {x : Binary64.Finite} (hx : x.magnitude < 1000000000000 * one) :
    ∃ n, Scaled x 0 n ∧ Float64.toI64 (Binary64.round (.fin x)) =
      Int64.ofInt (if x.neg then -(n : ℤ) else n) := by
  have hself : |(x.magnitude / one - x.magnitude / one * 10 ^ 0 : ℚ)| ≤
      1 / 2 / one + x.magnitude / one * 10 ^ 0 / 2 ^ 53 := by
    have hone := Binary64.one_pos'.le
    rw [pow_zero, mul_one, sub_self, abs_zero]
    exact add_nonneg (div_nonneg (by norm_num) hone)
      (div_nonneg (div_nonneg (Nat.cast_nonneg _) hone) (by norm_num))
  obtain ⟨n, hn, hround⟩ := toIntWithin_round hx hself
  have hsize := hn.size
  refine ⟨n, hn, congrArg Int64.ofInt (hround _ _ ?_ ?_)⟩
  · omega
  · omega

theorem scaled_mul {x : Binary64.Finite} (hx : x.magnitude < 1000000000000 * one) {places : ℕ}
    (hplaces : places ≤ 10) :
    ∃ n : ℕ, Scaled x places n ∧ ∀ lo hi : ℤ, lo ≤ -n → n ≤ hi →
      Binary64.toIntWithin lo hi (.round (.mul (.fin x) (Float64.pow10 places))) =
        if x.neg then -(n : ℤ) else n := by
  have hten : 10 ^ places ≤ 10 ^ 10 := Nat.pow_le_pow_right (by decide) hplaces
  obtain ⟨c, hc, hcneg, hcmagnitude⟩ := Binary64.ofInt_natCast (n := 10 ^ places) (by omega)
  have hpow : (Float64.pow10 places : Binary64) = .fin c := by
    rw [← hc]
    push_cast
    rfl
  obtain ⟨k, hk, hone⟩ := Binary64.exists_pow
  have hmul : Binary64.mul (.fin x) (.fin c) =
      Binary64.roundUnits x.neg (x.magnitude * 10 ^ places) 1 := by
    rw [Binary64.mul, hcneg, Bool.bne_false, x.natAbs_units, c.natAbs_units, hcmagnitude,
      ← Nat.mul_assoc, ← Binary64.roundUnits_scale _ _ 1 Binary64.one_pos, Nat.one_mul]
  have hlt : x.magnitude * 10 ^ places / 1 < 2 ^ (100 + k) := by
    have hproduct : x.magnitude * 10 ^ places ≤ 1000000000000 * one * 10 ^ 10 :=
      Nat.mul_le_mul hx.le hten
    have hpos := Binary64.one_pos
    rw [Nat.div_one, Nat.pow_add, ← hone]
    omega
  obtain ⟨y, hy⟩ := @Binary64.roundUnits_fin x.neg _ _ _ hlt (by omega)
  have hnear := Binary64.abs_toRat_sub_le Nat.one_pos hy
  have hneg := (Binary64.roundUnits_magnitude Nat.one_pos hy).1
  have hquotient : ((x.magnitude * 10 ^ places : ℕ) / (1 : ℕ) / one : ℚ) =
      x.magnitude / one * 10 ^ places := by
    push_cast
    ring
  rw [hquotient, abs_sub_comm, ← hneg, abs_signed_sub_toRat, abs_sub_comm] at hnear
  obtain ⟨n, hn, hround⟩ := toIntWithin_round hx hnear
  refine ⟨n, hn, fun lo hi hlo hhi => ?_⟩
  rw [hpow, hmul, hy, ← hneg]
  exact hround lo hi hlo hhi

theorem natAbs_sign (neg : Bool) (n : ℕ) : (if neg then -(n : ℤ) else n).natAbs = n := by
  split
  · rw [Int.natAbs_neg, Int.natAbs_natCast]
  · exact Int.natAbs_natCast n

/-- Scaled and rounded, or by the general formatter. -/
theorem writeFixedFloat_prints {places : ℕ} (hplaces : places ≤ 10) (v : Binary64)
    (minWidth : ℕ) :
    ∃ s, writeFixedFloat v places minWidth = padLeft minWidth s ∧ Prints places v s := by
  by_cases hgeneral : ¬Float64.isFinite v = true ∨
      Float64.le (Float64.ofInt 1000000000000) (Float64.abs v) = true
  · refine ⟨_, ?_, prints_displayFixed hplaces v⟩
    rw [writeFixedFloat, if_pos hgeneral]
    rfl
  · rw [not_or, not_not] at hgeneral
    obtain ⟨hfinite, hle⟩ := hgeneral
    cases v with
    | nan => cases hfinite
    | inf neg => cases hfinite
    | fin x =>
        have hx : x.magnitude < 1000000000000 * one := by
          have hcast := Binary64.natCast_le_abs (n := 1000000000000) (by decide) x
          rw [Nat.cast_ofNat] at hcast
          exact Nat.not_le.mp (of_decide_eq_false (hcast.symm.trans (eq_false_of_ne_true hle)))
        rw [writeFixedFloat, if_neg (not_or.mpr ⟨not_not.mpr hfinite, hle⟩)]
        by_cases hp : places = 0
        · subst hp
          obtain ⟨n, hn, hround⟩ := scaled_self hx
          have hsize := hn.size
          have hint : (Float64.toI64 (Float64.round (Binary64.fin x))).toInt =
              if x.neg then -(n : ℤ) else n := by
            refine (congrArg Int64.toInt hround).trans (Int64.toInt_ofInt_of_le ?_ ?_)
            · split <;> omega
            · split <;> omega
          have hzero : Float64.toI64 (Float64.round (Binary64.fin x)) ≠ 0 ↔ n ≠ 0 := by
            rw [← Int64.toInt_inj.ne, hint]
            cases x.neg <;> simp
          rw [if_pos rfl]
          simp only [hint, natAbs_sign, hzero]
          by_cases h0 : n = 0
          · subst h0
            refine ⟨decimal false 0 0, ?_, hn.prints_zero⟩
            simp [decimal]
          · refine ⟨decimal x.neg 0 n, ?_, hn.prints (Nat.zero_le _)⟩
            simp only [h0, ne_eq, not_false_eq_true, and_true]
            rfl
        · obtain ⟨n, hn, hround⟩ := scaled_mul hx hplaces
          refine ⟨decimal x.neg places n, ?_, hn.prints hplaces⟩
          have hlt := hn.lt hplaces
          have hint : Float64.toIntWithin (-170141183460469231731687303715884105728)
              170141183460469231731687303715884105727
              (Float64.round (Float64.mul (Binary64.fin x) (Float64.pow10 places))) =
                if x.neg then -(n : ℤ) else n := hround _ _ (by omega) (by omega)
          have hten : 10 ^ places ≤ 10 ^ 10 := Nat.pow_le_pow_right (by decide) hplaces
          have hwhole : n / 10 ^ places % 18446744073709551616 = n / 10 ^ places := by
            have hlt : n / 10 ^ places < 2 ^ 41 :=
              (Nat.div_lt_iff_lt_mul (Nat.pow_pos (by decide))).mpr hn.size
            exact Nat.mod_eq_of_lt (by omega)
          have hrest : n % 10 ^ places % 18446744073709551616 = n % 10 ^ places := by
            have hlt := Nat.mod_lt n (Nat.pow_pos (n := places) (show 0 < 10 by decide))
            exact Nat.mod_eq_of_lt (by omega)
          rw [if_neg hp]
          simp only [hint, natAbs_sign, hwhole, hrest]
          rw [decimal, if_neg hp, List.append_assoc]
          rfl

end Canboat
