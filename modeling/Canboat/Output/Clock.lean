import Canboat.Core.Exact
import Canboat.Lib.Nearest
import Canboat.Output.Precision

/-!
# What the texts of numbers and times denote

A printed number is the rounded value. A printed time is near its value, unless its fraction rounds
up to a whole second.
-/

namespace Canboat

open Binary64 (digits paddedDigits signed)

/-! ## Grammar -/

def AllDigits (s : List Char) : Prop := ∀ c ∈ s, c.isDigit = true

/-- A decimal numeral with so many digits behind the point, and what it denotes. -/
structure Numeral (places : ℕ) (q : ℚ) (t : List Char) : Prop where
  parts : ∃ (neg : Bool) (int frac : List Char),
    t = (if neg then ['-'] else []) ++ int ++ (if places = 0 then [] else '.' :: frac) ∧
      int ≠ [] ∧ AllDigits int ∧ AllDigits frac ∧ frac.length = places ∧
        q = signed neg (digitsValue int + digitsValue frac / 10 ^ places)

/-- `HH:MM:SS` with nothing behind it or so many digits, which denotes a time to within half a unit
of the last digit. -/
structure ClockText (places : ℕ) (x : ℚ) (t : List Char) : Prop where
  parts : ∃ (neg : Bool) (h m s frac tail : List Char),
    t = (if neg then ['-'] else []) ++ h ++ ':' :: m ++ ':' :: s ++ tail ∧
      (2 ≤ h.length ∧ m.length = 2 ∧ s.length = 2) ∧
      (AllDigits h ∧ AllDigits m ∧ AllDigits s ∧ AllDigits frac) ∧
      (digitsValue m < 60 ∧ digitsValue s < 60) ∧
      (tail = [] ∧ frac = [] ∨ tail = '.' :: frac ∧ frac.length = places) ∧
      |signed neg ((digitsValue h * 3600 + digitsValue m * 60 + digitsValue s : ℕ) +
        digitsValue frac / 10 ^ places) - x| ≤ 1 / 2 / 10 ^ places

theorem digitsValue_digits (n : ℕ) : digitsValue (digits n) = n := ofDigitChars_digits n

theorem digitsValue_places (width n : ℕ) : digitsValue (paddedDigits width n) = n :=
  ofDigitChars_padded width n

/-! ## Rounding over the rationals -/

namespace Exact

@[simp] theorem abs_ofQ (q : ℚ) : Float64.abs (ofQ q) = ofQ |q| := rfl

@[simp] theorem isFinite_ofQ (q : ℚ) : Float64.isFinite (ofQ q) = true := rfl

@[simp] theorem isSignNegative_ofQ (q : ℚ) : Float64.isSignNegative (ofQ q) = decide (q < 0) := rfl

@[simp] theorem le_ofQ (x y : ℚ) : Float64.le (ofQ x) (ofQ y) = decide (x ≤ y) := rfl

@[simp] theorem lt_ofQ (x y : ℚ) : Float64.lt (ofQ x) (ofQ y) = decide (x < y) := rfl

@[simp] theorem round_ofQ (q : ℚ) : Float64.round (ofQ q) = ofQ (nearest q) := by
  change ofQ _ = _
  rw [nearest]
  split_ifs
  · rfl
  · rw [Int.cast_neg]

theorem pow10_eq (n : ℕ) : (Float64.pow10 n : Exact) = ofQ (10 ^ n) := by
  rw [Float64.pow10, ofInt_eq]
  push_cast
  rfl

/-- A whole number is cut to the bounds. -/
theorem toIntWithin_intCast (lo hi n : ℤ) :
    Float64.toIntWithin lo hi (ofQ n) = max lo (min hi n) := by
  change max lo (min hi (if 0 ≤ (n : ℚ) then ⌊(n : ℚ)⌋ else -⌊-(n : ℚ)⌋)) = _
  rw [Int.floor_intCast, ← Int.cast_neg, Int.floor_intCast, neg_neg, ite_self]

theorem toIntWithin_nonneg {lo hi : ℤ} {q : ℚ} (hq : 0 ≤ q) :
    Float64.toIntWithin lo hi (ofQ q) = max lo (min hi ⌊q⌋) := by
  change max lo (min hi (if 0 ≤ q then ⌊q⌋ else -⌊-q⌋)) = _
  rw [if_pos hq]

end Exact

/-- The nearest integer has the sign of the number. -/
theorem nearest_sign {q : ℚ} :
    (q < 0 → nearest q ≤ 0) ∧ (0 ≤ q → 0 ≤ nearest q) := by
  constructor
  · intro hq
    by_contra hn
    have hle := (Nearest.gt_iff (Int.le_refl 0)).mp (Int.not_le.mp hn)
    push_cast at hle
    linarith
  · intro hq
    by_contra hn
    have hle := (Nearest.lt_iff (Int.le_refl 0)).mp (Int.not_le.mp hn)
    push_cast at hle
    linarith

/-- The sign in front, and the number behind it. -/
theorem signed_nearest (q : ℚ) :
    signed (decide (q < 0)) ((nearest q).natAbs : ℚ) = nearest q := by
  rw [signed]
  by_cases hq : q < 0
  · rw [if_pos (decide_eq_true hq)]
    have hneg := nearest_sign.1 hq
    rw [← Int.cast_natCast, Int.ofNat_natAbs_of_nonpos hneg, Int.cast_neg, neg_neg]
  · rw [if_neg (by rw [decide_eq_true_eq]; exact hq)]
    have hpos := nearest_sign.2 (not_lt.mp hq)
    rw [← Int.cast_natCast, Int.natAbs_of_nonneg hpos]

theorem nearest_bound {q : ℚ} {b : ℕ} (h : |q| < b) : (nearest q).natAbs ≤ b := by
  obtain ⟨hlo, hhi⟩ := abs_lt.mp h
  have hupper : ¬(b : ℤ) < nearest q := by
    rw [Nearest.gt_iff (Int.natCast_nonneg b)]
    push_cast
    linarith
  have hlower : ¬nearest q < -(b : ℤ) := by
    rw [Nearest.lt_iff (by omega)]
    push_cast
    linarith
  omega

/-! ## Numbers -/

/-- A printed number is spaces and the numeral of its rounded value. -/
theorem writeFixedFloat_numeral {v : ℚ} (hv : |v| < 10 ^ 12) {places : ℕ} (hplaces : places ≤ 19)
    (minWidth : ℕ) :
    ∃ s, writeFixedFloat (Exact.ofQ v) places minWidth =
        List.replicate (minWidth - s.length) ' ' ++ s ∧
      Numeral places (nearest (v * 10 ^ places) / 10 ^ places) s := by
  have hsmall : ¬(¬Float64.isFinite (Exact.ofQ v) = true ∨
      Float64.le (Float64.ofInt 1000000000000) (Float64.abs (Exact.ofQ v)) = true) := by
    rw [Exact.isFinite_ofQ, Exact.ofInt_eq, Exact.abs_ofQ, Exact.le_ofQ, decide_eq_true_eq]
    push_cast
    rintro (h | h)
    · exact h rfl
    · linarith
  rw [writeFixedFloat, if_neg hsmall, Exact.isSignNegative_ofQ]
  by_cases hzero : places = 0
  · subst hzero
    have hbound := nearest_bound (b := 10 ^ 12) (q := v) (by push_cast; exact hv)
    have hround : (Float64.toI64 (Float64.round (Exact.ofQ v))).toInt = nearest v := by
      rw [Float64.toI64, Exact.round_ofQ, Exact.toIntWithin_intCast,
        max_eq_right (by omega), min_eq_right (by omega), Int64.toInt_ofInt_of_le (by omega) (by omega)]
    have hzeroed : Float64.toI64 (Float64.round (Exact.ofQ v)) ≠ 0 ↔ nearest v ≠ 0 := by
      rw [← hround, ne_eq, ne_eq, ← Int64.toInt_inj]
      rfl
    refine ⟨_, rfl, ⟨decide (v < 0 ∧ nearest v ≠ 0), digits (nearest v).natAbs, [], ?_,
      digits_ne_nil _, all_isDigit_digits _, by rintro _ ⟨⟩, rfl, ?_⟩⟩
    · rw [hround, if_pos rfl, List.append_nil]
      by_cases hneg : v < 0 ∧ nearest v ≠ 0
      · rw [if_pos ⟨decide_eq_true hneg.1, hzeroed.mpr hneg.2⟩, if_pos (decide_eq_true hneg)]
      · rw [if_neg, if_neg]
        · rw [decide_eq_true_eq]
          exact hneg
        · rw [decide_eq_true_eq, hzeroed]
          exact hneg
    · have hsign := signed_nearest v
      rw [pow_zero, div_one, mul_one, div_one, digitsValue_digits,
        show digitsValue [] = 0 from rfl, Nat.cast_zero, add_zero, ← hsign, signed, signed]
      by_cases hn : nearest v = 0
      · rw [hn]
        simp
      · rw [show decide (v < 0 ∧ nearest v ≠ 0) = decide (v < 0) by simp [hn]]
  · have hten : (0 : ℚ) < 10 ^ places := by positivity
    have hpow : 10 ^ places ≤ 10 ^ 19 := Nat.pow_le_pow_right (by decide) hplaces
    have hpos : 0 < 10 ^ places := Nat.pow_pos (by decide)
    have hbound : (nearest (v * 10 ^ places)).natAbs ≤ 10 ^ 12 * 10 ^ places := by
      apply nearest_bound
      rw [abs_mul, abs_of_pos hten]
      push_cast
      exact mul_lt_mul_of_pos_right hv hten
    have hlimit : 10 ^ 12 * 10 ^ places ≤ 10 ^ 31 :=
      (Nat.mul_le_mul_left _ hpow).trans (by decide)
    have hround : Float64.toIntWithin (-170141183460469231731687303715884105728)
        170141183460469231731687303715884105727
        (Float64.round (Float64.mul (Exact.ofQ v) (Float64.pow10 places))) =
          nearest (v * 10 ^ places) := by
      rw [Exact.pow10_eq, Exact.mul_eq, Exact.round_ofQ, Exact.toIntWithin_intCast,
        min_eq_right (by omega), max_eq_right (by omega)]
    rw [if_neg hzero, hround]
    generalize hn : (nearest (v * 10 ^ places)).natAbs = n at hbound
    have hint : n / 10 ^ places % 18446744073709551616 = n / 10 ^ places := by
      have hle : n / 10 ^ places ≤ 10 ^ 12 := Nat.div_le_of_le_mul (by rw [Nat.mul_comm]; exact hbound)
      exact Nat.mod_eq_of_lt (by omega)
    have hfrac : n % 10 ^ places % 18446744073709551616 = n % 10 ^ places := by
      have hlt := Nat.mod_lt n hpos
      exact Nat.mod_eq_of_lt (by omega)
    have hlen : (paddedDigits places (n % 10 ^ places)).length = places :=
      length_paddedDigits (Nat.mod_lt n hpos) (Nat.pos_of_ne_zero hzero)
    refine ⟨_, rfl, ⟨decide (v < 0), digits (n / 10 ^ places), paddedDigits places (n % 10 ^ places),
      ?_, digits_ne_nil _, all_isDigit_digits _, all_isDigit_padded _ _, hlen, ?_⟩⟩
    · rw [hn, hint, hfrac, if_neg hzero]
    · have hsign := signed_nearest (v * 10 ^ places)
      have hneg : decide (v * 10 ^ places < 0) = decide (v < 0) := by
        rw [decide_eq_decide]
        exact ⟨fun h => by by_contra hv; exact absurd h (not_lt.mpr (mul_nonneg (not_lt.mp hv) hten.le)),
          fun h => mul_neg_of_neg_of_pos h hten⟩
      have hsplit : ((n / 10 ^ places : ℕ) : ℚ) + ((n % 10 ^ places : ℕ) : ℚ) / 10 ^ places =
          n / 10 ^ places := by
        have hdiv : (10 ^ places : ℚ) * (n / 10 ^ places : ℕ) + (n % 10 ^ places : ℕ) = n := by
          exact_mod_cast Nat.div_add_mod n (10 ^ places)
        field_simp
        linarith
      rw [hneg, hn] at hsign
      rw [digitsValue_digits, digitsValue_places, hsplit, ← hsign, signed, signed]
      split_ifs
      · rw [neg_div]
      · rfl

/-! ## Times -/

/-- What a time is written from: its sign, its whole seconds and the units of its fraction. -/
theorem formatTime_eq (x : ℚ) {places : ℕ} (hplaces : places ≠ 0) (trim : Bool) {w n : ℕ}
    (hw : (Float64.toU64 (Exact.ofQ |x|)).toNat = w)
    (hn : (Float64.toU64 (Exact.ofQ (nearest ((|x| - w) * 10 ^ places)))).toNat = n) :
    formatTime (Exact.ofQ x) places trim =
      (if decide (x < 0) then ['-'] else []) ++ paddedDigits 2 (w / 3600) ++
        ':' :: paddedDigits 2 (w / 60 % 60) ++ ':' :: paddedDigits 2 (w % 60) ++
          if trim ∧ n = 0 then [] else '.' :: paddedDigits places n := by
  have hzero : Float64.toU64 (Exact.ofQ (nearest ((|x| - w) * 10 ^ places))) = 0 ↔ n = 0 := by
    rw [← hn, ← UInt64.toNat_inj]
    rfl
  have hlt : Float64.lt (Exact.ofQ x) (Float64.ofInt 0) = decide (x < 0) := by
    rw [Exact.ofInt_eq, Int.cast_zero, Exact.lt_ofQ]
  rw [formatTime, if_neg (by rw [Exact.isFinite_ofQ]; exact not_not.mpr rfl)]
  dsimp only
  rw [Exact.abs_ofQ, hw, if_neg hplaces, hlt, Exact.ofInt_eq, Exact.sub_eq, Exact.pow10_eq,
    Exact.mul_eq, Exact.round_ofQ, Int.cast_natCast, hn]
  by_cases h : trim = true ∧ n = 0
  · rw [if_pos ⟨h.1, hzero.mpr h.2⟩, if_pos h, List.append_nil]
  · rw [if_neg fun hn => h ⟨hn.1, hzero.mp hn.2⟩, if_neg h]

theorem point_not_mem {l : List Char} (h : AllDigits l) : '.' ∉ l :=
  fun hmem => absurd (h _ hmem) (by decide)

/-- What stands behind the only point of a text. -/
theorem behind_point {front : List Char} (h : '.' ∉ front) (tail : List Char) :
    (front ++ '.' :: tail).dropWhile (fun c => decide (c ≠ '.')) = '.' :: tail := by
  have hne : ∀ c ∈ front, decide (c ≠ '.') = true := by
    intro c hc
    rw [decide_eq_true_eq]
    rintro rfl
    exact h hc
  rw [List.dropWhile_append_of_pos hne, List.dropWhile_cons_of_neg (by decide)]

/-- A fraction with a digit too many is no time. -/
theorem not_clockText_of_carry {places n : ℕ} (hn : 10 ^ places ≤ n) (x : ℚ) {front : List Char}
    (hfront : '.' ∉ front) : ¬ClockText places x (front ++ '.' :: paddedDigits places n) := by
  rintro ⟨neg, h, m, s, frac, tail, htext, -, ⟨hh, hm, hs, -⟩, -, htail, -⟩
  have hrest := behind_point hfront (paddedDigits places n)
  rw [htext] at hrest
  have hbefore : '.' ∉ (if neg then ['-'] else []) ++ h ++ ':' :: m ++ ':' :: s := by
    simp only [List.mem_append, List.mem_cons, not_or]
    refine ⟨⟨⟨?_, point_not_mem hh⟩, by decide, point_not_mem hm⟩, by decide, point_not_mem hs⟩
    cases neg <;> decide
  have hlong : ¬(paddedDigits places n).length = places := by
    have hdigits : ¬(digits n).length ≤ places := by
      rw [Binary64.digits, Nat.toList_repr]
      rcases Nat.eq_zero_or_pos places with rfl | hpos
      · have hne := List.length_pos_iff.mpr (Nat.toDigits_ne_nil (b := 10) (n := n))
        omega
      · rw [Nat.length_toDigits_le_iff (by decide) hpos]
        exact Nat.not_lt.mpr hn
    rw [paddedDigits, List.length_append]
    omega
  rcases htail with ⟨rfl, rfl⟩ | ⟨rfl, hlen⟩
  · rw [List.append_nil] at hrest
    have hmem : '.' ∈ (if neg then ['-'] else []) ++ h ++ ':' :: m ++ ':' :: s := by
      apply List.dropWhile_subset (fun c => decide (c ≠ '.'))
      rw [hrest]
      exact List.mem_cons_self
    exact hbefore hmem
  · rw [behind_point hbefore] at hrest
    rw [← (List.cons_eq_cons.mp hrest).2] at hlong
    exact hlong hlen

/-- Whole seconds and a fraction that has all its digits are a time. -/
theorem clockText_of_parts {places w n : ℕ} {x : ℚ} (hplaces : places ≠ 0) (hn : n < 10 ^ places)
    (trim : Bool)
    (hnear : |signed (decide (x < 0)) (w + n / 10 ^ places) - x| ≤ 1 / 2 / 10 ^ places) :
    ClockText places x ((if decide (x < 0) then ['-'] else []) ++ paddedDigits 2 (w / 3600) ++
      ':' :: paddedDigits 2 (w / 60 % 60) ++ ':' :: paddedDigits 2 (w % 60) ++
        if trim ∧ n = 0 then [] else '.' :: paddedDigits places n) := by
  have hm : w / 60 % 60 < 60 := Nat.mod_lt _ (by decide)
  have hs : w % 60 < 60 := Nat.mod_lt _ (by decide)
  have hhours : 2 ≤ (paddedDigits 2 (w / 3600)).length := by
    rw [paddedDigits, List.length_append, List.length_replicate]
    omega
  have hwhole : w / 3600 * 3600 + w / 60 % 60 * 60 + w % 60 = w := by omega
  have hvalue : ∀ f : List Char, (digitsValue f : ℚ) = n →
      |signed (decide (x < 0)) ((digitsValue (paddedDigits 2 (w / 3600)) * 3600 +
        digitsValue (paddedDigits 2 (w / 60 % 60)) * 60 + digitsValue (paddedDigits 2 (w % 60)) : ℕ) +
          digitsValue f / 10 ^ places) - x| ≤ 1 / 2 / 10 ^ places := by
    intro f hf
    rw [digitsValue_places, digitsValue_places, digitsValue_places, hwhole, hf]
    exact hnear
  have hwidths : 2 ≤ (paddedDigits 2 (w / 3600)).length ∧
      (paddedDigits 2 (w / 60 % 60)).length = 2 ∧ (paddedDigits 2 (w % 60)).length = 2 :=
    ⟨hhours, length_paddedDigits (by omega) (by decide), length_paddedDigits (by omega) (by decide)⟩
  have hsixty : digitsValue (paddedDigits 2 (w / 60 % 60)) < 60 ∧
      digitsValue (paddedDigits 2 (w % 60)) < 60 := by
    rw [digitsValue_places, digitsValue_places]
    exact ⟨hm, hs⟩
  by_cases htrim : trim = true ∧ n = 0
  · rw [if_pos htrim]
    refine ⟨_, _, _, _, [], [], rfl, hwidths, ⟨all_isDigit_padded _ _, all_isDigit_padded _ _,
      all_isDigit_padded _ _, by rintro _ ⟨⟩⟩, hsixty, .inl ⟨rfl, rfl⟩, hvalue [] ?_⟩
    rw [htrim.2]
    rfl
  · rw [if_neg htrim]
    refine ⟨_, _, _, _, paddedDigits places n, _, rfl, hwidths, ⟨all_isDigit_padded _ _,
      all_isDigit_padded _ _, all_isDigit_padded _ _, all_isDigit_padded _ _⟩, hsixty,
      .inr ⟨rfl, length_paddedDigits hn (Nat.pos_of_ne_zero hplaces)⟩, hvalue _ ?_⟩
    rw [digitsValue_places]

/-- The seconds are a number of 64 bits, and their fraction does not round up to a second. -/
def NoCarry (places : ℕ) (x : ℚ) : Prop :=
  |x| < 2 ^ 64 ∧ Int.fract |x| < 1 - 1 / 2 / 10 ^ places

theorem toNat_toU64 {q : ℚ} (hq : 0 ≤ q) :
    (Float64.toU64 (Exact.ofQ q)).toNat = min 18446744073709551615 ⌊q⌋.toNat := by
  have hfloor := Int.floor_nonneg.mpr hq
  rw [Float64.toU64, Exact.toIntWithin_nonneg hq, UInt64.toNat_ofNat', Nat.mod_eq_of_lt (by omega)]
  omega

theorem formatTime_iff (x : ℚ) {places : ℕ} (hplaces : places ≠ 0) (hten : places ≤ 10)
    (trim : Bool) :
    ClockText places x (formatTime (Exact.ofQ x) places trim) ↔ NoCarry places x := by
  have hpow : (0 : ℚ) < 10 ^ places := by positivity
  have hpowLe : 10 ^ places ≤ 10 ^ 10 := Nat.pow_le_pow_right (by decide) hten
  have habs := abs_nonneg x
  obtain ⟨w, hw⟩ : ∃ w, (Float64.toU64 (Exact.ofQ |x|)).toNat = w := ⟨_, rfl⟩
  obtain ⟨n, hn⟩ : ∃ n, (Float64.toU64 (Exact.ofQ (nearest ((|x| - w) * 10 ^ places)))).toNat = n :=
    ⟨_, rfl⟩
  rw [formatTime_eq x hplaces trim hw hn]
  rw [toNat_toU64 habs] at hw
  have hfloor := Int.floor_nonneg.mpr habs
  have hfloorLe := Int.floor_le |x|
  have hwle : (w : ℚ) ≤ |x| := by
    have hle : (w : ℤ) ≤ ⌊|x|⌋ := by omega
    exact (Int.cast_le.mpr hle).trans hfloorLe
  have hy : 0 ≤ (|x| - w) * 10 ^ places := mul_nonneg (by linarith) hpow.le
  have hnearest := nearest_sign.2 hy
  rw [toNat_toU64 (by exact_mod_cast hnearest), Int.floor_intCast] at hn
  have hfront : '.' ∉ (if decide (x < 0) then ['-'] else []) ++ paddedDigits 2 (w / 3600) ++
      ':' :: paddedDigits 2 (w / 60 % 60) ++ ':' :: paddedDigits 2 (w % 60) := by
    simp only [List.mem_append, List.mem_cons, not_or]
    refine ⟨⟨⟨?_, point_not_mem (all_isDigit_padded _ _)⟩, by decide,
      point_not_mem (all_isDigit_padded _ _)⟩, by decide, point_not_mem (all_isDigit_padded _ _)⟩
    split_ifs <;> decide
  have hcarry : 10 ^ places ≤ n → ¬ClockText places x ((if decide (x < 0) then ['-'] else []) ++
      paddedDigits 2 (w / 3600) ++ ':' :: paddedDigits 2 (w / 60 % 60) ++
        ':' :: paddedDigits 2 (w % 60) ++
          if trim ∧ n = 0 then [] else '.' :: paddedDigits places n) := by
    intro hle
    have hpos : 0 < 10 ^ places := Nat.pow_pos (by decide)
    have hnot : ¬(trim = true ∧ n = 0) := fun h => absurd h.2 (by omega)
    rw [if_neg hnot]
    exact not_clockText_of_carry hle x hfront
  by_cases hbig : |x| < 2 ^ 64
  · have hwq : (w : ℚ) = ⌊|x|⌋ := by
      have hlt : ⌊|x|⌋ < 2 ^ 64 := by
        rw [Int.floor_lt]
        exact_mod_cast hbig
      have hwz : (w : ℤ) = ⌊|x|⌋ := by omega
      exact_mod_cast hwz
    have hfract : |x| - w = Int.fract |x| := by
      rw [hwq, Int.fract]
    have hless : (|x| - w) * 10 ^ places < 10 ^ places := by
      rw [hfract]
      exact mul_lt_of_lt_one_left hpow (Int.fract_lt_one _)
    have hle : nearest ((|x| - w) * 10 ^ places) ≤ 10 ^ places := by
      have hnot : ¬((10 ^ places : ℕ) : ℤ) < nearest ((|x| - w) * 10 ^ places) := by
        rw [Nearest.gt_iff (Int.natCast_nonneg _)]
        push_cast
        linarith
      push_cast at hnot
      exact not_lt.mp hnot
    have hnz : (n : ℤ) = nearest ((|x| - w) * 10 ^ places) := by
      have hlim : (10 : ℤ) ^ places ≤ 10 ^ 10 := by exact_mod_cast hpowLe
      omega
    have hcond : NoCarry places x ↔ n < 10 ^ places := by
      have hlast : ((10 ^ places - 1 : ℕ) : ℤ) < nearest ((|x| - w) * 10 ^ places) ↔
          10 ^ places ≤ n := by
        have hpos : 0 < 10 ^ places := Nat.pow_pos (by decide)
        omega
      rw [Nearest.gt_iff (Int.natCast_nonneg _)] at hlast
      rw [NoCarry, and_iff_right hbig, ← not_le, ← not_le, not_iff_not, ← hlast, hfract,
        Nat.cast_sub (Nat.pow_pos (by decide))]
      push_cast
      rw [← div_le_iff₀ hpow]
      have hsimp : ((10 : ℚ) ^ places - 1 + 1 / 2) / 10 ^ places = 1 - 1 / 2 / 10 ^ places := by
        field_simp
        ring
      rw [hsimp]
    rw [hcond]
    constructor
    · intro h
      by_contra hn
      exact hcarry (not_lt.mp hn) h
    · intro h
      refine clockText_of_parts hplaces h trim ?_
      obtain ⟨hlo, hhi⟩ := Nearest.near ((|x| - w) * 10 ^ places)
      rw [← hnz] at hlo hhi
      push_cast at hlo hhi
      have hx : signed (decide (x < 0)) |x| = x := by
        rw [signed]
        by_cases hneg : x < 0
        · rw [if_pos (decide_eq_true hneg), abs_of_neg hneg, neg_neg]
        · rw [if_neg (by rw [decide_eq_true_eq]; exact hneg), abs_of_nonneg (not_lt.mp hneg)]
      have hunit : ∀ y : ℚ, n - 1 / 2 ≤ (y - w) * 10 ^ places →
          (y - w) * 10 ^ places ≤ n + 1 / 2 → |w + n / 10 ^ places - y| ≤ 1 / 2 / 10 ^ places := by
        intro y hlo hhi
        have hdiff : w + n / 10 ^ places - y = (n - (y - w) * 10 ^ places) / 10 ^ places := by
          field_simp
          ring
        rw [hdiff, abs_div, abs_of_pos hpow, div_le_div_iff_of_pos_right hpow, abs_le]
        constructor <;> linarith
      have hsub := Binary64.signed_sub (decide (x < 0)) (w + n / 10 ^ places) |x|
      rw [hx] at hsub
      rw [hsub, Binary64.abs_signed]
      exact hunit |x| (by linarith) (by linarith)
  · have hge := not_lt.mp hbig
    have hfloorGe : (2 : ℤ) ^ 64 ≤ ⌊|x|⌋ := by
      rw [Int.le_floor]
      exact_mod_cast hge
    have hwmax : w = 18446744073709551615 := by omega
    have hone : 10 ^ places ≤ (|x| - w) * 10 ^ places := by
      rw [hwmax]
      push_cast
      exact le_mul_of_one_le_left hpow.le (by linarith)
    have hreach : ((10 ^ places - 1 : ℕ) : ℤ) < nearest ((|x| - w) * 10 ^ places) := by
      rw [Nearest.gt_iff (Int.natCast_nonneg _), Nat.cast_sub (Nat.pow_pos (by decide))]
      push_cast
      linarith
    have hpos : 0 < 10 ^ places := Nat.pow_pos (by decide)
    exact iff_of_false (hcarry (by omega)) fun h => hbig h.1

/-- **Printed values.** A number below 10^12 is printed as the numeral of its rounded value; a time
that has a fraction as a text that denotes it, exactly if its fraction does not round up to a whole
second. -/
theorem printed_values (v : ℚ) (places minWidth : ℕ) (r : ℚ) (n : ℤ) (trim : Bool) :
    (|v| < 10 ^ 12 → places ≤ 19 →
      ∃ s, writeFixedFloat (Exact.ofQ v) places minWidth =
          List.replicate (minWidth - s.length) ' ' ++ s ∧
        Numeral places (nearest (v * 10 ^ places) / 10 ^ places) s) ∧
    (0 < r → effectivePrecision 0 (some (Exact.ofQ r)) ≠ 0 →
      (ClockText (effectivePrecision 0 (some (Exact.ofQ r))) (n * r)
          (formatTime (Exact.ofQ (n * r)) (effectivePrecision 0 (some (Exact.ofQ r))) trim) ↔
        NoCarry (effectivePrecision 0 (some (Exact.ofQ r))) (n * r))) := by
  refine ⟨fun hv hplaces => writeFixedFloat_numeral hv hplaces minWidth, ?_⟩
  intro _ hne
  exact formatTime_iff (n * r) hne (effectivePrecision_le 0 _) trim

/-- A quarter past midnight in units of a hundredth. -/
theorem printed_values_quarter :
    ClockText (effectivePrecision 0 (some (Exact.ofQ (1 / 100)))) ((90025 : ℤ) * (1 / 100))
      (formatTime (Exact.ofQ ((90025 : ℤ) * (1 / 100)))
        (effectivePrecision 0 (some (Exact.ofQ (1 / 100)))) false) := by
  have hplaces : effectivePrecision 0 (some (Exact.ofQ (1 / 100))) = 2 := by decide +kernel
  refine ((printed_values 0 0 0 (1 / 100) 90025 false).2 (by norm_num) ?_).mpr ?_
  · rw [hplaces]
    decide
  · rw [hplaces]
    have hvalue : |((90025 : ℤ) : ℚ) * (1 / 100)| = (3601 / 4 : ℚ) := by
      rw [abs_of_nonneg (by norm_num)]
      norm_num
    have hfract : Int.fract (3601 / 4 : ℚ) = 1 / 4 := by
      rw [Int.fract_eq_iff]
      exact ⟨by norm_num, by norm_num, 900, by norm_num⟩
    rw [NoCarry, hvalue, hfract]
    norm_num

/-- Ninety-nine hundredths of a second, to one place. -/
theorem carry_lost :
    effectivePrecision 0 (some (Exact.ofQ (99 / 100))) = 1 ∧
      formatTime (Exact.ofQ ((1 : ℤ) * (99 / 100))) 1 false = "00:00:00.10".toList ∧
      ¬ClockText 1 ((1 : ℤ) * (99 / 100)) "00:00:00.10".toList := by
  have htext : formatTime (Exact.ofQ ((1 : ℤ) * (99 / 100))) 1 false = "00:00:00.10".toList := by
    decide +kernel
  refine ⟨by decide +kernel, htext, ?_⟩
  rw [← htext, formatTime_iff _ (by decide) (by decide)]
  rintro ⟨-, hfract⟩
  have hvalue : |((1 : ℤ) : ℚ) * (99 / 100)| = (99 / 100 : ℚ) := by
    rw [abs_of_nonneg (by norm_num)]
    norm_num
  have hself : Int.fract (99 / 100 : ℚ) = 99 / 100 := by
    rw [Int.fract_eq_iff]
    exact ⟨by norm_num, by norm_num, 0, by norm_num⟩
  rw [hvalue, hself] at hfract
  norm_num at hfract

end Canboat
