import Canboat.Core.Float64
import Mathlib.Data.Rat.Floor

/-!
# Exact arithmetic

The values of `f64` without the rounding: the rational numbers, and one value for what is no
number.
-/

namespace Canboat

def Exact : Type := Option ℚ

namespace Exact

def ofQ (q : ℚ) : Exact := some q

def nan : Exact := none

def map₂ (op : ℚ → ℚ → ℚ) : Exact → Exact → Exact
  | some x, some y => ofQ (op x y)
  | _, _ => nan

/-- A comparison, false of what is no number. -/
def compare (r : ℚ → ℚ → Bool) : Exact → Exact → Bool
  | some x, some y => r x y
  | _, _ => false

def div : Exact → Exact → Exact
  | some x, some y => if y = 0 then nan else ofQ (x / y)
  | _, _ => nan

/-- Half away from zero. -/
def round : Exact → Exact
  | some x => ofQ (if 0 ≤ x then ⌊x + 1 / 2⌋ else -⌊-x + 1 / 2⌋)
  | none => nan

def toIntWithin (lo hi : ℤ) : Exact → ℤ
  | some x => max lo (min hi (if 0 ≤ x then ⌊x⌋ else -⌊-x⌋))
  | none => 0

def ofBinary64 : Binary64 → Exact
  | .fin x => ofQ ((x.units : ℚ) / (Binary64.one : ℚ))
  | _ => nan

/-- The nearest number of the code. -/
def toBinary64 : Exact → Binary64
  | some x => Binary64.ofRat x
  | none => .nan

end Exact

instance : Float64 Exact where
  nan := Exact.nan
  ofRat := Exact.ofQ
  ofInt n := Exact.ofQ n
  ofBits32 bits := Exact.ofBinary64 (Binary64.ofBits32 bits)
  toBits32 x := x.toBinary64.toBits32
  add := Exact.map₂ (· + ·)
  sub := Exact.map₂ (· - ·)
  mul := Exact.map₂ (· * ·)
  div := Exact.div
  abs := Option.map (|·|)
  round := Exact.round
  lt := Exact.compare (· < ·)
  le := Exact.compare (· ≤ ·)
  beq := Exact.compare (· = ·)
  isFinite x := x.isSome
  isSignNegative x := Exact.compare (· < ·) x (Exact.ofQ 0)
  toIntWithin := Exact.toIntWithin
  display x := x.toBinary64.display
  displayFixed places x := x.toBinary64.displayFixed places

namespace Exact

theorem ofQ_injective {x y : ℚ} (h : ofQ x = ofQ y) : x = y := Option.some.inj h

@[simp] theorem ofQ_inj {x y : ℚ} : ofQ x = ofQ y ↔ x = y := ⟨ofQ_injective, congrArg ofQ⟩

@[simp] theorem ofQ_ne_nan (x : ℚ) : ofQ x ≠ nan := nofun

@[simp] theorem ofRat_eq (q : ℚ) : (Float64.ofRat q : Exact) = ofQ q := rfl

@[simp] theorem ofInt_eq (n : ℤ) : (Float64.ofInt n : Exact) = ofQ n := rfl

@[simp] theorem add_eq (x y : ℚ) : Float64.add (ofQ x) (ofQ y) = ofQ (x + y) := rfl

@[simp] theorem sub_eq (x y : ℚ) : Float64.sub (ofQ x) (ofQ y) = ofQ (x - y) := rfl

@[simp] theorem mul_eq (x y : ℚ) : Float64.mul (ofQ x) (ofQ y) = ofQ (x * y) := rfl

@[simp] theorem div_eq {x y : ℚ} (hy : y ≠ 0) : Float64.div (ofQ x) (ofQ y) = ofQ (x / y) :=
  if_neg hy

@[simp] theorem beq_eq (x y : ℚ) : Float64.beq (ofQ x) (ofQ y) = decide (x = y) := rfl

@[simp] theorem mul_nan (y : Exact) : Float64.mul nan y = nan := rfl

@[simp] theorem add_nan (y : Exact) : Float64.add nan y = nan := rfl

@[simp] theorem sub_nan (y : Exact) : Float64.sub nan y = nan := rfl

@[simp] theorem div_nan (y : Exact) : Float64.div nan y = nan := rfl

@[elab_as_elim, cases_eliminator]
theorem cases {motive : Exact → Prop} (nan : motive nan) (ofQ : ∀ q, motive (ofQ q)) (x : Exact) :
    motive x :=
  match x with
  | none => nan
  | some q => ofQ q

theorem beq_ofQ_iff {x : Exact} {y : ℚ} : Float64.beq x (ofQ y) = true ↔ x = ofQ y := by
  cases x with
  | nan => exact iff_of_false nofun (ofQ_ne_nan y).symm
  | ofQ x => rw [beq_eq, decide_eq_true_eq, ofQ_inj]

end Exact

end Canboat
