import Canboat.Core.Exact
import Canboat.Lib.Ties

/-!
# Exact arithmetic, rounded when it is written

The rational numbers again, now written to decimal places from their exact values.
-/

namespace Canboat

open Binary64 (decimal)

/-- Written with ties one way. -/
def Rounded (_ : Tie) : Type := Exact

instance (tie : Tie) : Float64 (Rounded tie) where
  __ := (inferInstance : Float64 Exact)
  displayFixed places x :=
    match x with
    | some q => decimal (q < 0) places (tie.nearest (|q| * 10 ^ places))
    | none => "NaN".toList

namespace Rounded

def ofQ (tie : Tie) (q : ℚ) : Rounded tie := Exact.ofQ q

variable {tie : Tie}

@[simp] theorem ofRat_eq (q : ℚ) : (Float64.ofRat q : Rounded tie) = ofQ tie q := rfl

@[simp] theorem ofInt_eq (n : ℤ) : (Float64.ofInt n : Rounded tie) = ofQ tie n := rfl

@[simp] theorem add_eq (x y : ℚ) : Float64.add (ofQ tie x) (ofQ tie y) = ofQ tie (x + y) := rfl

@[simp] theorem sub_eq (x y : ℚ) : Float64.sub (ofQ tie x) (ofQ tie y) = ofQ tie (x - y) := rfl

@[simp] theorem mul_eq (x y : ℚ) : Float64.mul (ofQ tie x) (ofQ tie y) = ofQ tie (x * y) := rfl

@[simp] theorem abs_eq (x : ℚ) : Float64.abs (ofQ tie x) = ofQ tie |x| := rfl

@[simp] theorem lt_eq (x y : ℚ) : Float64.lt (ofQ tie x) (ofQ tie y) = decide (x < y) := rfl

@[simp] theorem le_eq (x y : ℚ) : Float64.le (ofQ tie x) (ofQ tie y) = decide (x ≤ y) := rfl

end Rounded

end Canboat
