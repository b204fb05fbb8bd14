import Canboat.Lib.Binary64
import Mathlib.Algebra.Order.Ring.Abs
import Mathlib.Data.Rat.Cast.Order
import Mathlib.Tactic.FieldSimp
import Mathlib.Tactic.Linarith
import Mathlib.Tactic.Positivity
import Mathlib.Tactic.Ring

/-!
# How far a rounding goes

A binary64 number is the nearest one to the exact result of its operation. What is one rounds to
itself, and so does the shortest numeral of one.
-/

namespace Binary64

/-! ## Integers -/

theorem divRound_mul (n : ℕ) {b : ℕ} (hb : 0 < b) : divRound (n * b) b = n := by
  have hmod : n * b % b = 0 := Nat.mul_mod_left n b
  rw [divRound, hmod, Nat.mul_zero, if_pos hb, Nat.mul_div_cancel n hb]

theorem divRound_scale (a b : ℕ) {c : ℕ} (hc : 0 < c) :
    divRound (a * c) (b * c) = divRound a b := by
  have hdiv : a * c / (b * c) = a / b := Nat.mul_div_mul_right a b hc
  have hmod : a * c % (b * c) = a % b * c := Nat.mul_mod_mul_right c a b
  have hlt : 2 * (a % b * c) < b * c ↔ 2 * (a % b) < b := by
    rw [← Nat.mul_assoc]
    exact Nat.mul_lt_mul_right hc
  have hgt : b * c < 2 * (a % b * c) ↔ b < 2 * (a % b) := by
    rw [← Nat.mul_assoc]
    exact Nat.mul_lt_mul_right hc
  simp only [divRound, hdiv, hmod, hlt, hgt]

/-- Half a unit at most. -/
theorem divRound_near (a : ℕ) {b : ℕ} (hb : 0 < b) :
    2 * (divRound a b * b) ≤ 2 * a + b ∧ 2 * a ≤ 2 * (divRound a b * b) + b := by
  have hsplit : a / b * b + a % b = a := Nat.div_add_mod' a b
  have hlt := Nat.mod_lt a hb
  have hsucc : (a / b + 1) * b = a / b * b + b := Nat.succ_mul _ _
  unfold divRound
  split_ifs with hlow hhigh
  · omega
  · rw [hsucc]
    omega
  · rcases Nat.mod_two_eq_zero_or_one (a / b) with h | h
    · rw [h, Nat.add_zero]
      omega
    · rw [h, hsucc]
      omega

/-- The only such integer, where there is no other or it is even. -/
theorem divRound_eq {a b n : ℕ} (hb : 0 < b) (hlo : 2 * (n * b) ≤ 2 * a + b)
    (hhi : 2 * a ≤ 2 * (n * b) + b)
    (heven : n % 2 = 0 ∨ 2 * (n * b) < 2 * a + b ∧ 2 * a < 2 * (n * b) + b) :
    divRound a b = n := by
  have hsplit : a / b * b + a % b = a := Nat.div_add_mod' a b
  have hlt := Nat.mod_lt a hb
  have hn : n = a / b ∨ n = a / b + 1 := by
    rcases Nat.lt_trichotomy n (a / b) with h | h | h
    · have hmul : (n + 1) * b ≤ a / b * b := Nat.mul_le_mul_right b h
      rw [Nat.succ_mul] at hmul
      omega
    · exact .inl h
    · rcases Nat.eq_or_lt_of_le (Nat.succ_le_of_lt h) with h | h
      · exact .inr h.symm
      · have hmul : (a / b + 2) * b ≤ n * b := Nat.mul_le_mul_right b h
        rw [Nat.add_mul] at hmul
        omega
  rcases hn with rfl | rfl
  · unfold divRound
    split_ifs with hlow hhigh
    · rfl
    · omega
    · rcases heven with h | h
      · rw [h, Nat.add_zero]
      · omega
  · have hsucc : (a / b + 1) * b = a / b * b + b := Nat.succ_mul _ _
    rw [hsucc] at hlo hhi heven
    unfold divRound
    split_ifs with hlow hhigh
    · omega
    · rfl
    · rcases heven with h | h
      · have hodd : a / b % 2 = 1 := by omega
        rw [hodd]
      · omega

theorem exponentOf_eq {q e : ℕ} (hlo : e = 0 ∨ 2 ^ (52 + e) ≤ q) (hhi : q < 2 ^ (53 + e)) :
    exponentOf q = e := by
  have hpos : e ≠ 0 → q ≠ 0 := by
    rintro he rfl
    rcases hlo with h | h
    · exact he h
    · exact absurd h (Nat.not_le.mpr (Nat.two_pow_pos _))
  by_cases hq : q = 0
  · have he : e = 0 := by
      by_contra he
      exact hpos he hq
    subst hq he
    decide
  have hlt : q.log2 < 53 + e := (Nat.log2_lt hq).mpr hhi
  rw [exponentOf]
  rcases hlo with rfl | hlo
  · omega
  · have hle := (Nat.le_log2 hq).mpr hlo
    omega

/-! ## Roundings -/

/-- In units of the last place of the least exponent. -/
def Finite.magnitude (x : Finite) : ℕ := x.m * 2 ^ x.e

theorem Finite.natAbs_units (x : Finite) : x.units.natAbs = x.magnitude := by
  rw [Finite.units, Finite.magnitude]
  split
  · rw [Int.natAbs_neg, Int.natAbs_natCast]
  · rw [Int.natAbs_natCast]

theorem roundUnits_eq {neg : Bool} {a b m e : ℕ} (hexp : exponentOf (a / b) = e)
    (hround : divRound a (b * 2 ^ e) = m) (hm : m < 2 ^ 53) (he : e ≤ 2045)
    (hnormal : e = 0 ∨ 2 ^ 52 ≤ m) :
    roundUnits neg a b = .fin ⟨neg, m, e, hm, he, hnormal⟩ := by
  subst hexp hround
  rw [roundUnits]
  simp only [dif_pos hm, dif_pos he]

theorem roundUnits_carry {neg : Bool} {a b e : ℕ} (hexp : exponentOf (a / b) = e)
    (hround : 2 ^ 53 ≤ divRound a (b * 2 ^ e)) (he : e + 1 ≤ 2045) :
    roundUnits neg a b =
      .fin ⟨neg, 2 ^ 52, e + 1, by decide, he, Or.inr (Nat.le_refl _)⟩ := by
  subst hexp
  rw [roundUnits]
  simp only [dif_neg (Nat.not_lt.mpr hround), dif_pos he]

/-- The same quotient. -/
theorem roundUnits_scale (neg : Bool) (a b : ℕ) {c : ℕ} (hc : 0 < c) :
    roundUnits neg (a * c) (b * c) = roundUnits neg a b := by
  have hdiv : a * c / (b * c) = a / b := Nat.mul_div_mul_right a b hc
  have hround : ∀ e, divRound (a * c) (b * c * 2 ^ e) = divRound a (b * 2 ^ e) := by
    intro e
    rw [Nat.mul_right_comm]
    exact divRound_scale _ _ hc
  simp only [roundUnits, hdiv, hround]

theorem Finite.lt_pow (x : Finite) : x.magnitude < 2 ^ (53 + x.e) := by
  rw [Finite.magnitude, Nat.pow_add]
  exact Nat.mul_lt_mul_of_pos_right x.m_lt (Nat.two_pow_pos _)

theorem Finite.pow_le (x : Finite) (h : x.e ≠ 0) : 2 ^ (52 + x.e) ≤ x.magnitude := by
  rw [Finite.magnitude, Nat.pow_add]
  exact Nat.mul_le_mul_right _ (x.normal.resolve_left h)

theorem roundUnits_self (x : Finite) {b : ℕ} (hb : 0 < b) :
    roundUnits x.neg (x.magnitude * b) b = .fin x := by
  have hdiv : x.magnitude * b / b = x.magnitude := Nat.mul_div_cancel _ hb
  refine roundUnits_eq ?_ ?_ x.m_lt x.e_le x.normal
  · rw [hdiv]
    refine exponentOf_eq ?_ x.lt_pow
    by_cases h : x.e = 0
    · exact .inl h
    · exact .inr (x.pow_le h)
  · rw [Finite.magnitude, Nat.mul_assoc, Nat.mul_comm (2 ^ x.e)]
    exact divRound_mul x.m (Nat.mul_pos hb (Nat.two_pow_pos _))

/-- A significand goes up to the next power of two, but not beyond it. -/
theorem divRound_exponentOf_le (a : ℕ) {b : ℕ} (hb : 0 < b) :
    divRound a (b * 2 ^ exponentOf (a / b)) ≤ 2 ^ 53 := by
  generalize he : exponentOf (a / b) = e
  have hpos := Nat.mul_pos hb (Nat.two_pow_pos e)
  have hlog : a / b < 2 ^ (53 + e) := by
    by_cases hq : a / b = 0
    · rw [hq]
      exact Nat.two_pow_pos _
    · refine (Nat.log2_lt hq).mp ?_
      rw [exponentOf] at he
      omega
  have hlt : a < 2 ^ 53 * (b * 2 ^ e) := by
    rw [Nat.div_lt_iff_lt_mul hb, Nat.pow_add] at hlog
    calc a < 2 ^ 53 * 2 ^ e * b := hlog
      _ = 2 ^ 53 * (b * 2 ^ e) := by ring
  have hnear := (divRound_near a hpos).1
  by_contra hgt
  have hmul : (2 ^ 53 + 1) * (b * 2 ^ e) ≤ divRound a (b * 2 ^ e) * (b * 2 ^ e) :=
    Nat.mul_le_mul_right _ (Nat.not_le.mp hgt)
  rw [Nat.succ_mul] at hmul
  omega

theorem roundUnits_magnitude {neg : Bool} {a b : ℕ} (hb : 0 < b) {r : Finite}
    (h : roundUnits neg a b = .fin r) : r.neg = neg ∧
      r.magnitude = divRound a (b * 2 ^ exponentOf (a / b)) * 2 ^ exponentOf (a / b) := by
  rw [roundUnits] at h
  split_ifs at h with hm hfin hfin
  · cases h
    exact ⟨rfl, rfl⟩
  · have hup := Nat.le_antisymm (divRound_exponentOf_le a hb) (Nat.not_lt.mp hm)
    cases h
    rw [hup, Finite.magnitude]
    exact ⟨rfl, by ring⟩

/-- Half of what separates two neighbours at most: half the least unit, or a part of the
quotient. -/
theorem roundUnits_near {neg : Bool} {a b : ℕ} (hb : 0 < b) {r : Finite}
    (h : roundUnits neg a b = .fin r) :
    2 ^ 53 * (r.magnitude * b) ≤ 2 ^ 53 * a + (2 ^ 52 * b + a) ∧
      2 ^ 53 * a ≤ 2 ^ 53 * (r.magnitude * b) + (2 ^ 52 * b + a) := by
  rw [(roundUnits_magnitude hb h).2]
  generalize he : exponentOf (a / b) = e
  have hpos := Nat.mul_pos hb (Nat.two_pow_pos e)
  have hunit : 2 ^ 52 * (b * 2 ^ e) ≤ 2 ^ 52 * b + a := by
    by_cases h0 : e = 0
    · rw [h0, Nat.pow_zero, Nat.mul_one]
      exact Nat.le_add_right _ _
    · have hle : 2 ^ 52 ≤ a / b / 2 ^ e := by
        rw [← he]
        exact le_of_exponentOf (he ▸ h0)
      rw [Nat.div_div_eq_div_mul, Nat.le_div_iff_mul_le hpos] at hle
      exact Nat.le_add_left_of_le hle
  obtain ⟨hle, hge⟩ := divRound_near a hpos
  rw [Nat.mul_assoc, Nat.mul_comm (2 ^ e)]
  omega

/-- Quotients that are not near the end of the range. -/
theorem roundUnits_fin {neg : Bool} {a b t : ℕ} (h : a / b < 2 ^ t) (ht : t ≤ 2097) :
    ∃ r, roundUnits neg a b = .fin r := by
  have he : exponentOf (a / b) ≤ 2044 := by
    by_cases hq : a / b = 0
    · rw [hq]
      decide
    · have hlt := (Nat.log2_lt hq).mpr h
      rw [exponentOf]
      omega
  rw [roundUnits]
  split_ifs with hm hfin hfin
  · exact ⟨_, rfl⟩
  · omega
  · exact ⟨_, rfl⟩
  · omega

/-! ## Numerals -/

/-- The bounds of what rounds to a number, with `w` for its last place. -/
theorem Finite.bounds_of_nearest {x : Finite} {a b w : ℕ} (hw : b * 2 ^ x.e = w)
    (h : x.nearest a b = true) :
    4 * (x.m * w) ≤ 4 * (a * one) + (if x.m = 2 ^ 52 ∧ x.e ≠ 0 then w else 2 * w) ∧
      4 * (a * one) ≤ 4 * (x.m * w) + 2 * w ∧
      (x.m % 2 = 0 ∨ 4 * (x.m * w) < 4 * (a * one) + 2 * w ∧
        4 * (a * one) < 4 * (x.m * w) + 2 * w) := by
  have hexact : 4 * (x.m * 2 ^ x.e) * b = 4 * (x.m * w) := by
    rw [← hw]
    ring
  have habove : 2 * 2 ^ x.e * b = 2 * w := by
    rw [← hw]
    ring
  have hbelow : (if x.m = 2 ^ 52 ∧ x.e ≠ 0 then 1 else 2) * 2 ^ x.e * b =
      if x.m = 2 ^ 52 ∧ x.e ≠ 0 then w else 2 * w := by
    split
    · rw [← hw]
      ring
    · exact habove
  have ha : 4 * one * a = 4 * (a * one) := by ring
  rw [Finite.nearest] at h
  simp only [hexact, habove, hbelow, ha] at h
  have hle : (if x.m = 2 ^ 52 ∧ x.e ≠ 0 then w else 2 * w) ≤ 2 * w := by
    split
    · exact Nat.le_mul_of_pos_left w Nat.two_pos
    · exact Nat.le_refl _
  generalize (if x.m = 2 ^ 52 ∧ x.e ≠ 0 then w else 2 * w) = below at h hle ⊢
  split at h
  · rename_i heven
    obtain ⟨hlo, hhi⟩ := of_decide_eq_true h
    exact ⟨by omega, hhi, .inl heven⟩
  · obtain ⟨hlo, hhi⟩ := of_decide_eq_true h
    exact ⟨by omega, by omega, .inr ⟨by omega, hhi⟩⟩

/-- What is nearest to the quotient is what it rounds to. -/
theorem roundUnits_of_nearest (x : Finite) {a b : ℕ} (hb : 0 < b) (h : x.nearest a b = true) :
    roundUnits x.neg (a * one) b = .fin x := by
  obtain ⟨hbelow, habove, hties⟩ := x.bounds_of_nearest rfl h
  generalize a * one = a at *
  obtain ⟨neg, m, e, hm, he, hnormal⟩ := x
  dsimp only at *
  have hpos := Nat.mul_pos hb (Nat.two_pow_pos e)
  have hless : m * (b * 2 ^ e) + b * 2 ^ e ≤ 2 ^ 53 * (b * 2 ^ e) := by
    rw [← Nat.succ_mul]
    exact Nat.mul_le_mul_right _ hm
  have hhigh : a / b < 2 ^ (53 + e) := by
    rw [Nat.div_lt_iff_lt_mul hb, Nat.pow_add, Nat.mul_assoc, Nat.mul_comm (2 ^ e)]
    omega
  by_cases hlow : e = 0 ∨ 2 ^ 52 * (b * 2 ^ e) ≤ a
  · have hexp : exponentOf (a / b) = e := by
      refine exponentOf_eq (hlow.imp_right fun hle => ?_) hhigh
      rw [Nat.le_div_iff_mul_le hb, Nat.pow_add, Nat.mul_assoc, Nat.mul_comm (2 ^ e)]
      exact hle
    refine roundUnits_eq hexp (divRound_eq hpos ?_ ?_ ?_) hm he hnormal
    · split at hbelow <;> omega
    · omega
    · rcases hties with heven | ⟨hlo, hhi⟩
      · exact .inl heven
      · exact .inr ⟨by omega, by omega⟩
  · -- between the power of two and the number before it, which is half as far away
    rw [not_or] at hlow
    obtain ⟨h0, hlt⟩ := hlow
    have hpow : m = 2 ^ 52 := by
      by_contra hne
      have hmul : (2 ^ 52 + 1) * (b * 2 ^ e) ≤ m * (b * 2 ^ e) :=
        Nat.mul_le_mul_right _ (by have := hnormal.resolve_left h0; omega)
      rw [Nat.succ_mul] at hmul
      split at hbelow <;> omega
    subst hpow
    rw [if_pos ⟨rfl, h0⟩] at hbelow
    obtain ⟨k, rfl⟩ := Nat.exists_eq_add_one_of_ne_zero h0
    have hdouble : b * 2 ^ (k + 1) = 2 * (b * 2 ^ k) := by ring
    have hpos' := Nat.mul_pos hb (Nat.two_pow_pos k)
    refine roundUnits_carry ?_ (Nat.le_of_eq (divRound_eq hpos' ?_ ?_ (.inl rfl)).symm) he
    · refine exponentOf_eq (.inr ?_) ?_
      · rw [Nat.le_div_iff_mul_le hb, Nat.pow_add, Nat.mul_assoc, Nat.mul_comm (2 ^ k)]
        omega
      · rw [Nat.div_lt_iff_lt_mul hb, Nat.pow_add, Nat.mul_assoc, Nat.mul_comm (2 ^ k)]
        omega
    · omega
    · omega

theorem instPow_eq (m n : ℕ) : @HPow.hPow ℕ ℕ ℕ (@instHPow ℕ ℕ instPowNat) m n = m ^ n := rfl

theorem exists_pow : ∃ n < 1075, one = 2 ^ n := by
  refine ⟨1074, Nat.lt_succ_self 1074, ?_⟩
  rw [← instPow_eq, one]

theorem one_pos : 0 < one := by
  obtain ⟨n, -, hn⟩ := exists_pow
  rw [hn]
  exact Nat.two_pow_pos n

theorem ten_pow (n : ℕ) : 10 ^ n = 5 ^ n * 2 ^ n := by
  rw [← Nat.mul_pow]

/-- With enough places every number is a decimal. -/
theorem Finite.numeral?_places (x : Finite) {n k : ℕ} (h : 10 ^ n = k * one) :
    (x.numeral? 0 n).isSome = true := by
  have hone : 0 < one := one_pos
  have hround : divRound (x.m * 2 ^ x.e * 10 ^ n) one = x.m * 2 ^ x.e * k := by
    rw [h, ← Nat.mul_assoc]
    exact divRound_mul _ hone
  have hexact : 4 * (x.m * 2 ^ x.e) * 10 ^ n = 4 * one * (x.m * 2 ^ x.e * k) := by
    rw [h]
    ring
  have hnearest : x.nearest (x.m * 2 ^ x.e * k) (10 ^ n) = true := by
    have hpos : ∀ c, 0 < c → 0 < c * 2 ^ x.e * 10 ^ n := fun c hc =>
      Nat.mul_pos (Nat.mul_pos hc (Nat.two_pow_pos _)) (Nat.pow_pos (by decide))
    rw [Finite.nearest]
    simp only [hexact]
    split
    · exact decide_eq_true ⟨Nat.sub_le _ _, Nat.le_add_right _ _⟩
    · rename_i hodd
      have hm : 0 < 4 * one * (x.m * 2 ^ x.e * k) := by
        rw [← hexact, ← Nat.mul_assoc]
        exact hpos (4 * x.m) (by omega)
      refine decide_eq_true ⟨Nat.sub_lt hm (hpos _ ?_), Nat.lt_add_of_pos_right (hpos 2 Nat.two_pos)⟩
      split <;> decide
  rw [Finite.numeral?, Nat.pow_zero, Nat.mul_one, hround, List.find?_cons_of_pos, Option.map_some]
  · rfl
  · rw [Nat.mul_one]
    exact hnearest

theorem Finite.numeral?_nearest {x : Finite} {zeros places : ℕ} {r : ℕ × ℕ}
    (h : x.numeral? zeros places = some r) : x.nearest r.2 (10 ^ r.1) = true := by
  rw [Finite.numeral?] at h
  obtain ⟨n, hn, rfl⟩ := Option.map_eq_some_iff.mp h
  have hnearest := List.find?_some hn
  dsimp only at hnearest ⊢
  exact hnearest

/-- The shortest numeral rounds to the number. -/
theorem Finite.nearest_shortest (x : Finite) :
    x.nearest x.shortest.2 (10 ^ x.shortest.1) = true := by
  have hsome : ((List.range 1075).findSome? fun places => x.numeral? 0 places).isSome := by
    rw [List.findSome?_isSome_iff]
    obtain ⟨n, hn, hone⟩ := exists_pow
    refine ⟨n, List.mem_range.mpr hn, x.numeral?_places (k := 5 ^ n) ?_⟩
    rw [hone, ten_pow]
  rw [Finite.shortest]
  rcases hzeros : (List.range 309).reverse.findSome? fun zeros => x.numeral? zeros 0 with - | r
  · obtain ⟨r, hr⟩ := Option.isSome_iff_exists.mp hsome
    rw [Option.none_or, hr, Option.getD_some]
    obtain ⟨places, -, h⟩ := List.exists_of_findSome?_eq_some hr
    exact numeral?_nearest h
  · rw [Option.some_or, Option.getD_some]
    obtain ⟨zeros, -, h⟩ := List.exists_of_findSome?_eq_some hzeros
    exact numeral?_nearest h

theorem Finite.nearest_neg (x : Finite) (neg : Bool) (a b : ℕ) :
    Finite.nearest { x with neg := neg } a b = x.nearest a b := by
  rw [Finite.nearest, Finite.nearest]

/-! ## As rational numbers -/

def signed (neg : Bool) (q : ℚ) : ℚ := if neg then -q else q

def Finite.toRat (x : Finite) : ℚ := x.units / one

theorem Finite.toRat_eq (x : Finite) : x.toRat = signed x.neg (x.magnitude / one) := by
  rw [Finite.toRat, Finite.units, Finite.magnitude, signed]
  split
  · push_cast
    ring
  · push_cast
    rfl

theorem abs_signed (neg : Bool) (q : ℚ) : |signed neg q| = |q| := by
  rw [signed]
  split
  · exact abs_neg q
  · rfl

theorem signed_sub (neg : Bool) (p q : ℚ) : signed neg p - signed neg q = signed neg (p - q) := by
  simp only [signed]
  split
  · ring
  · rfl

theorem signed_false (q : ℚ) : signed false q = q := by
  rw [signed, if_neg Bool.false_ne_true]

theorem Finite.magnitude_neg (x : Finite) (neg : Bool) :
    Finite.magnitude { x with neg := neg } = x.magnitude := by
  rw [Finite.magnitude, Finite.magnitude]

theorem Finite.toRat_neg {x : Finite} (h : x.neg = false) (neg : Bool) :
    Finite.toRat { x with neg := neg } = signed neg x.toRat := by
  rw [Finite.toRat_eq, x.toRat_eq, h, signed_false, x.magnitude_neg]

theorem one_pos' : (0 : ℚ) < one := Nat.cast_pos.mpr one_pos

/-- The rounding of `a / b` units. -/
theorem abs_toRat_sub_le {neg : Bool} {a b : ℕ} (hb : 0 < b) {r : Finite}
    (h : roundUnits neg a b = .fin r) :
    |r.toRat - signed neg (a / b / one)| ≤ 1 / 2 / one + a / b / one / 2 ^ 53 := by
  obtain ⟨hneg, -⟩ := roundUnits_magnitude hb h
  obtain ⟨hle, hge⟩ := roundUnits_near hb h
  have hb' : (0 : ℚ) < b := Nat.cast_pos.mpr hb
  have hle' : (2 ^ 53 * (r.magnitude * b) : ℚ) ≤ 2 ^ 53 * a + (2 ^ 52 * b + a) := by
    exact_mod_cast hle
  have hge' : (2 ^ 53 * a : ℚ) ≤ 2 ^ 53 * (r.magnitude * b) + (2 ^ 52 * b + a) := by
    exact_mod_cast hge
  rw [r.toRat_eq, hneg, signed_sub, abs_signed]
  have hone := one_pos'
  generalize (one : ℚ) = u at *
  have hscale : (r.magnitude / u - a / b / u : ℚ) =
      (2 ^ 53 * (r.magnitude * b) - 2 ^ 53 * a) / (2 ^ 53 * b * u) := by
    field_simp
  have hbound : (1 / 2 / u + a / b / u / 2 ^ 53 : ℚ) =
      (2 ^ 52 * b + a) / (2 ^ 53 * b * u) := by
    field_simp
  have hpos : 0 < 2 ^ 53 * b * u := by positivity
  rw [hscale, hbound, abs_div, abs_of_pos hpos]
  refine div_le_div_of_nonneg_right (abs_sub_le_iff.mpr ⟨?_, ?_⟩) hpos.le
  · linarith
  · linarith

/-! ## Operations -/

theorem ofInt_one : ∃ x : Finite, ofInt 1 = .fin x ∧ x.neg = false ∧ x.isZero = false ∧
    x.units.natAbs = one :=
  ⟨⟨false, 2 ^ 52, 1022, by decide, by decide, .inr (Nat.le_refl _)⟩, by decide +kernel, rfl,
    by decide +kernel, by decide +kernel⟩

theorem ofInt_neg_one :
    ∃ x : Finite, ofInt (-1) = .fin x ∧ x.neg = true ∧ x.units.natAbs = one :=
  ⟨⟨true, 2 ^ 52, 1022, by decide, by decide, .inr (Nat.le_refl _)⟩, by decide +kernel, rfl,
    by decide +kernel⟩

theorem mul_one (x : Binary64) : x.mul (ofInt 1) = x := by
  obtain ⟨y, hy, hneg, hzero, hunits⟩ := ofInt_one
  rw [hy]
  cases x with
  | nan => rfl
  | inf s =>
      rw [mul, hzero, hneg, Bool.bne_false]
      rfl
  | fin x => rw [mul, hneg, hunits, Bool.bne_false, x.natAbs_units, roundUnits_self x one_pos]

/-- The sign of a numeral. -/
theorem neg_one_mul (x : Finite) :
    mul (ofInt (-1)) (.fin x) = .fin { x with neg := !x.neg } := by
  obtain ⟨y, hy, hneg, hunits⟩ := ofInt_neg_one
  rw [hy, mul, hneg, hunits, Bool.true_bne, x.natAbs_units, Nat.mul_comm]
  exact roundUnits_self { x with neg := !x.neg } one_pos

theorem ofRat_div (n : ℕ) {d : ℕ} (hd : 0 < d) :
    ofRat (n / d) = roundUnits false (n * one) d := by
  have hnum : 0 ≤ (n / d : ℚ).num := Rat.num_nonneg.mpr (by positivity)
  have hcross : (n / d : ℚ).num.natAbs * d = n * (n / d : ℚ).den := by
    have hd' : (d : ℚ) ≠ 0 := Nat.cast_ne_zero.mpr hd.ne'
    have hden := Rat.mul_den_eq_num (n / d : ℚ)
    have hcast : ((n / d : ℚ).num.natAbs : ℚ) = (n / d : ℚ).num := by
      rw [← Int.cast_natCast, Int.natAbs_of_nonneg hnum]
    have h : ((n / d : ℚ).num.natAbs * d : ℚ) = n * (n / d : ℚ).den := by
      rw [hcast, ← hden, mul_right_comm, div_mul_cancel₀ _ hd']
    exact_mod_cast h
  have hleft : (n / d : ℚ).num.natAbs * one * d = n * one * (n / d : ℚ).den := by
    rw [Nat.mul_right_comm, hcross, Nat.mul_right_comm]
  rw [ofRat, decide_eq_false (not_lt.mpr hnum), ← roundUnits_scale _ _ _ hd, hleft,
    Nat.mul_comm _ d, roundUnits_scale _ _ _ (n / d : ℚ).den_pos]

theorem ofRat_near {n d t : ℕ} (hd : 0 < d) (h : n * one / d < 2 ^ t) (ht : t ≤ 2097) :
    ∃ y : Finite, ofRat (n / d) = .fin y ∧ y.neg = false ∧
      |y.toRat - n / d| ≤ 1 / 2 / one + n / d / 2 ^ 53 := by
  obtain ⟨y, hy⟩ := @roundUnits_fin false _ _ _ h ht
  have hnear := abs_toRat_sub_le hd hy
  have hquotient : ((n * one : ℕ) / d / one : ℚ) = n / d := by
    have hone := one_pos'
    push_cast
    field_simp
  rw [hquotient] at hnear
  exact ⟨y, (ofRat_div n hd).trans hy, (roundUnits_magnitude hd hy).1, hnear⟩

/-! ## Whole numbers -/

theorem exponentOf_le {q e : ℕ} (h : q < 2 ^ (53 + e)) : exponentOf q ≤ e := by
  by_cases hq : q = 0
  · rw [hq]
    exact Nat.zero_le e
  · have hlt := (Nat.log2_lt hq).mpr h
    rw [exponentOf]
    omega

/-- Whole numbers of 53 bits are numbers. -/
theorem roundUnits_whole (neg : Bool) {n : ℕ} (h : n < 2 ^ 53) :
    ∃ y, roundUnits neg (n * one) 1 = .fin y ∧ y.neg = neg ∧ y.magnitude = n * one := by
  obtain ⟨k, hk, hone⟩ := exists_pow
  have hlt : n * one / 1 < 2 ^ (53 + k) := by
    rw [Nat.div_one, hone, Nat.pow_add]
    exact Nat.mul_lt_mul_of_pos_right h (Nat.two_pow_pos k)
  have hexp := exponentOf_le hlt
  obtain ⟨y, hy⟩ := @roundUnits_fin neg _ _ _ hlt (by omega)
  obtain ⟨hneg, hmagnitude⟩ := roundUnits_magnitude Nat.one_pos hy
  refine ⟨y, hy, hneg, ?_⟩
  generalize exponentOf (n * one / 1) = e at hexp hmagnitude
  have hsplit : n * one = n * 2 ^ (k - e) * 2 ^ e := by
    rw [hone, Nat.mul_assoc, ← Nat.pow_add, Nat.sub_add_cancel hexp]
  rw [hmagnitude, Nat.one_mul, hsplit, divRound_mul _ (Nat.two_pow_pos e)]

theorem ofInt_natCast {n : ℕ} (h : n < 2 ^ 53) :
    ∃ y : Finite, ofInt n = .fin y ∧ y.neg = false ∧ y.magnitude = n * one := by
  have hneg : decide ((n : ℤ) < 0) = false := decide_eq_false (by omega)
  rw [ofInt, hneg, Int.natAbs_natCast]
  exact roundUnits_whole false h

/-- A whole number of units, from a half on the next. -/
theorem round_fin (x : Finite) : ∃ y, round (.fin x) = .fin y ∧ y.neg = x.neg ∧
    y.magnitude = (2 * x.magnitude + one) / (2 * one) * one := by
  have hone := one_pos
  rw [round, x.natAbs_units]
  by_cases h : (2 * x.magnitude + one) / (2 * one) < 2 ^ 53
  · exact roundUnits_whole x.neg h
  · obtain ⟨k, -, hk⟩ := exists_pow
    -- beyond 53 bits there are whole numbers only
    have hle : k ≤ x.e := by
      rw [Nat.not_lt, Nat.le_div_iff_mul_le (Nat.mul_pos Nat.two_pos hone)] at h
      have hlt := x.lt_pow
      by_contra hgt
      have hpow : 2 ^ (53 + x.e) ≤ 2 ^ (52 + k) := Nat.pow_le_pow_right Nat.two_pos (by omega)
      rw [Nat.pow_add 2 52 k, ← hk] at hpow
      omega
    have hwhole : x.magnitude = x.m * 2 ^ (x.e - k) * one := by
      rw [Finite.magnitude, hk, Nat.mul_assoc, ← Nat.pow_add, Nat.sub_add_cancel hle]
    have hquotient : (2 * x.magnitude + one) / (2 * one) = x.m * 2 ^ (x.e - k) := by
      rw [hwhole]
      generalize x.m * 2 ^ (x.e - k) = n
      rw [← Nat.mul_assoc, Nat.mul_right_comm, Nat.add_comm,
        Nat.add_mul_div_left _ _ (Nat.mul_pos Nat.two_pos hone),
        Nat.div_eq_of_lt (by omega), Nat.zero_add]
    rw [hquotient, ← hwhole]
    refine ⟨x, ?_, rfl, rfl⟩
    have hself := roundUnits_self x Nat.one_pos
    rwa [Nat.mul_one] at hself

/-- Toward zero, within the bounds. -/
theorem toIntWithin_whole {lo hi : ℤ} {y : Finite} {n : ℕ} (h : y.magnitude = n * one)
    (hlo : lo ≤ -(n : ℤ)) (hhi : (n : ℤ) ≤ hi) :
    toIntWithin lo hi (.fin y) = if y.neg then -(n : ℤ) else n := by
  have hone : (one : ℤ) ≠ 0 := by
    have := one_pos
    omega
  have hunits : y.units.tdiv (one : ℕ) = if y.neg then -(n : ℤ) else n := by
    rw [Finite.units]
    rw [Finite.magnitude] at h
    rw [h]
    push_cast
    split
    · rw [← Int.neg_mul, Int.mul_tdiv_cancel _ hone]
    · rw [Int.mul_tdiv_cancel _ hone]
  rw [toIntWithin, hunits]
  split <;> omega

/-! ## Comparisons -/

theorem Finite.units_of_nonneg {x : Finite} (h : x.neg = false) : x.units = x.magnitude := by
  rw [Finite.units, h, Finite.magnitude, if_neg Bool.false_ne_true]

theorem le_fin (x y : Finite) : le (.fin x) (.fin y) = decide (x.units ≤ y.units) := by
  rw [Bool.eq_iff_iff]
  simp only [le, lt, beq, Bool.or_eq_true, decide_eq_true_eq, beq_iff_eq]
  exact le_iff_lt_or_eq.symm

theorem natCast_le_abs {n : ℕ} (hn : n < 2 ^ 53) (x : Finite) :
    le (ofInt n) (abs (.fin x)) = decide (n * one ≤ x.magnitude) := by
  obtain ⟨y, hy, hneg, hmagnitude⟩ := ofInt_natCast hn
  have hx : Finite.units { x with neg := false } = x.magnitude :=
    (Finite.units_of_nonneg rfl).trans (congrArg Nat.cast (x.magnitude_neg false))
  rw [hy, abs, le_fin, Finite.units_of_nonneg hneg, hx, hmagnitude]
  exact decide_eq_decide.mpr Nat.cast_le

end Binary64
