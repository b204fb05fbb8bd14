import Mathlib.Data.Rat.Floor
import Mathlib.Tactic.Linarith

/-!
# The nearest integer

Half away from zero, held within bounds, and when a residue of it is still near.
-/

/-- Half away from zero. -/
def nearest (y : ℚ) : ℤ := if 0 ≤ y then ⌊y + 1 / 2⌋ else -⌊-y + 1 / 2⌋

namespace Nearest

variable {y : ℚ} {lo hi : ℤ}

theorem near (y : ℚ) : y - 1 / 2 ≤ nearest y ∧ (nearest y : ℚ) ≤ y + 1 / 2 := by
  rw [nearest]
  split_ifs
  · have hle := Int.floor_le (y + 1 / 2)
    have hlt := Int.lt_floor_add_one (y + 1 / 2)
    constructor <;> linarith
  · have hle := Int.floor_le (-y + 1 / 2)
    have hlt := Int.lt_floor_add_one (-y + 1 / 2)
    push_cast
    constructor <;> linarith

theorem intCast (n : ℤ) : nearest n = n := by
  obtain ⟨hlo, hhi⟩ := near (n : ℚ)
  have hlt : ((nearest n : ℤ) : ℚ) < (n + 1 : ℤ) := by
    push_cast
    linarith
  have hgt : ((n - 1 : ℤ) : ℚ) < (nearest n : ℤ) := by
    push_cast
    linarith
  have hlt' : nearest n < n + 1 := by exact_mod_cast hlt
  have hgt' : n - 1 < nearest n := by exact_mod_cast hgt
  omega

/-- Below a bound that is not positive, a half already counts as one more. -/
theorem lt_iff (hlo : lo ≤ 0) : nearest y < lo ↔ y ≤ lo - 1 / 2 := by
  have hlo' : (lo : ℚ) ≤ 0 := by exact_mod_cast hlo
  rw [nearest]
  split_ifs with hy
  · have hnonneg : 0 ≤ ⌊y + 1 / 2⌋ := Int.floor_nonneg.mpr (by linarith)
    constructor
    · intro h
      omega
    · intro h
      linarith
  · have hswap : -⌊-y + 1 / 2⌋ < lo ↔ -lo + 1 ≤ ⌊-y + 1 / 2⌋ := by omega
    rw [hswap, Int.le_floor]
    push_cast
    constructor <;> intro h <;> linarith

/-- Above a bound that is not negative as well. -/
theorem gt_iff (hhi : 0 ≤ hi) : hi < nearest y ↔ hi + 1 / 2 ≤ y := by
  have hhi' : (0 : ℚ) ≤ hi := by exact_mod_cast hhi
  rw [nearest]
  split_ifs with hy
  · rw [← Int.add_one_le_iff, Int.le_floor]
    push_cast
    constructor <;> intro h <;> linarith
  · have hnonneg : 0 ≤ ⌊-y + 1 / 2⌋ := Int.floor_nonneg.mpr (by linarith)
    constructor
    · intro h
      omega
    · intro h
      linarith

/-- **When a reading is near.** The nearest integer, held within `bot` and `top`, is read back as
`m`, which is the same integer where it lies within `lo` and `hi`, and far from it elsewhere. The
reading is near the number if and only if the number is within a half of that range. -/
theorem reading_near_iff {bot top m n : ℤ} (hbot : bot ≤ lo) (hlo : lo ≤ 0) (hhi : 0 ≤ hi)
    (htop : hi ≤ top) (hn : n = max bot (min top (nearest y))) (hfit : m = n ↔ lo ≤ n ∧ n ≤ hi)
    (hfar : m ≠ n → 2 ≤ |m - n|) (hbelow : bot ≤ m) (habove : 0 ≤ n → m ≤ n) :
    |(m : ℚ) - y| ≤ 1 / 2 ↔
      (lo - 1 / 2 < y ∨ lo = bot ∧ y = lo - 1 / 2) ∧
        (y < hi + 1 / 2 ∨ hi = top ∧ y = hi + 1 / 2) := by
  obtain ⟨hnear, hnear'⟩ := near y
  rw [abs_le]
  constructor
  · rintro ⟨hm, hm'⟩
    have hsame : m = n := by
      by_contra hne
      have hgap := hfar hne
      rw [le_abs] at hgap
      by_cases hover : top < nearest y
      · -- held at the top, and the reading is not above
        have hy := (gt_iff (le_trans hhi htop)).mp hover
        have hle : (top : ℚ) ≤ m := by linarith
        have hle' : top ≤ m := by exact_mod_cast hle
        have := habove (by omega)
        omega
      by_cases hunder : nearest y < bot
      · have hy := (lt_iff (le_trans hbot hlo)).mp hunder
        have hle : (m : ℚ) ≤ bot := by linarith
        have hle' : m ≤ bot := by exact_mod_cast hle
        omega
      have hexact : n = nearest y := by omega
      have hle : (m : ℚ) - nearest y ≤ 1 := by linarith
      have hge : -1 ≤ (m : ℚ) - nearest y := by linarith
      have hle' : m - nearest y ≤ 1 := by exact_mod_cast hle
      have hge' : -1 ≤ m - nearest y := by exact_mod_cast hge
      omega
    obtain ⟨hge, hle⟩ := hfit.mp hsame
    have hge' : (lo : ℚ) ≤ m := by exact_mod_cast hsame ▸ hge
    have hle' : (m : ℚ) ≤ hi := by exact_mod_cast hsame ▸ hle
    constructor
    · rcases lt_or_ge ((lo : ℚ) - 1 / 2) y with hy | hy
      · exact .inl hy
      · have := (lt_iff hlo).mpr hy
        exact .inr ⟨by omega, by linarith⟩
    · rcases lt_or_ge y ((hi : ℚ) + 1 / 2) with hy | hy
      · exact .inl hy
      · have := (gt_iff hhi).mpr hy
        exact .inr ⟨by omega, by linarith⟩
  · rintro ⟨hlow, hhigh⟩
    rcases hlow with hlow | ⟨hedge, hlow⟩
    · have hge : ¬nearest y < lo := fun h => absurd ((lt_iff hlo).mp h) (not_le.mpr hlow)
      rcases hhigh with hhigh | ⟨hedge, hhigh⟩
      · have hle : ¬hi < nearest y := fun h => absurd ((gt_iff hhi).mp h) (not_le.mpr hhigh)
        have hexact : n = nearest y := by omega
        rw [hfit.mpr (by omega), hexact]
        constructor <;> linarith
      · have hover : hi < nearest y := (gt_iff hhi).mpr hhigh.ge
        have hexact : n = hi := by omega
        rw [hfit.mpr (by omega), hexact, hhigh]
        constructor <;> linarith
    · have hunder : nearest y < lo := (lt_iff hlo).mpr hlow.le
      have hexact : n = lo := by omega
      rw [hfit.mpr (by omega), hexact, hlow]
      constructor <;> linarith

end Nearest
