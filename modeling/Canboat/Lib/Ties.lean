import Mathlib.Data.Rat.Floor
import Mathlib.Algebra.Order.Floor.Semiring
import Mathlib.Tactic.Linarith

/-!
# Rounding with ties

A number that is not negative goes to the nearest natural number. Halfway between two it goes up, or
to the even one.
-/

namespace Canboat

inductive Tie
  | even
  | away
deriving DecidableEq, Repr

namespace Tie

/-- Whether a half goes up from here. -/
def up (tie : Tie) (n : ℕ) : Bool :=
  match tie with
  | .even => n % 2 = 1
  | .away => true

def nearest (tie : Tie) (q : ℚ) : ℕ :=
  let n := ⌊q⌋₊
  if q - n < 1 / 2 then n
  else if 1 / 2 < q - n then n + 1
  else if tie.up n then n + 1 else n

variable {q : ℚ} {n : ℕ}

theorem near (tie : Tie) (hq : 0 ≤ q) : |(tie.nearest q : ℚ) - q| ≤ 1 / 2 := by
  have hle := Nat.floor_le hq
  have hlt := Nat.lt_floor_add_one q
  rw [nearest, abs_le]
  split_ifs <;> push_cast <;> constructor <;> linarith

/-- An even number more is as much more when it is rounded. -/
theorem nearest_add (tie : Tie) (hq : 0 ≤ q) (k : ℕ) :
    tie.nearest (q + (2 * k : ℕ)) = tie.nearest q + 2 * k := by
  have hup : tie.up (⌊q⌋₊ + 2 * k) = tie.up ⌊q⌋₊ := by
    cases tie with
    | even =>
        rw [up, up]
        simp
    | away => rfl
  have hfloor : ⌊q + (2 * k : ℕ)⌋₊ = ⌊q⌋₊ + 2 * k := Nat.floor_add_natCast hq _
  have hrest : q + (2 * k : ℕ) - (⌊q⌋₊ + 2 * k : ℕ) = q - ⌊q⌋₊ := by
    push_cast
    ring
  rw [nearest, nearest]
  rw [hfloor, hrest, hup]
  split_ifs <;> omega

theorem nearest_le (tie : Tie) (hq : 0 ≤ q) (h : q < n + 1 / 2) : tie.nearest q ≤ n := by
  have hnear := (abs_le.mp (tie.near hq)).2
  have hlt : (tie.nearest q : ℚ) < (n + 1 : ℕ) := by
    push_cast
    linarith
  exact Nat.lt_succ_iff.mp (Nat.cast_lt.mp hlt)

/-- From halfway above an odd number on both ways go up. -/
theorem lt_nearest (tie : Tie) (hq : 0 ≤ q) (hodd : n % 2 = 1) (h : (n : ℚ) + 1 / 2 ≤ q) :
    n < tie.nearest q := by
  have hfloor : n ≤ ⌊q⌋₊ := Nat.le_floor (by linarith)
  have hle := Nat.floor_le hq
  rcases Nat.lt_or_eq_of_le hfloor with hlt | heq
  · rw [nearest]
    split_ifs <;> omega
  · rw [nearest]
    rw [← heq]
    have hup : tie.up n = true := by
      cases tie with
      | even => exact decide_eq_true hodd
      | away => rfl
    rw [if_neg (by linarith), if_pos hup, ite_self]
    exact Nat.lt_succ_self n

end Tie

end Canboat
