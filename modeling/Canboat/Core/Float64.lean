import Canboat.Lib.Binary64
import Mathlib.Algebra.Group.Int.Defs

/-!
# The arithmetic of `f64`

What the code does with its floating-point values. Its own are the binary64 numbers; the
rest of the model is stated over any values with these operations.
-/

namespace Canboat

class Float64 (F : Type) where
  nan : F
  /-- A literal. -/
  ofRat : ℚ → F
  /-- `as f64`. -/
  ofInt : ℤ → F
  /-- `f32::from_bits(bits) as f64`. -/
  ofBits32 : UInt32 → F
  /-- `(x as f32).to_bits()`. -/
  toBits32 : F → UInt32
  add : F → F → F
  sub : F → F → F
  mul : F → F → F
  div : F → F → F
  abs : F → F
  /-- Half away from zero. -/
  round : F → F
  lt : F → F → Bool
  le : F → F → Bool
  beq : F → F → Bool
  isFinite : F → Bool
  isSignNegative : F → Bool
  /-- `as` an integer type with these bounds. -/
  toIntWithin : ℤ → ℤ → F → ℤ
  /-- As `Display` writes it. -/
  display : F → List Char
  /-- With that many decimal places. -/
  displayFixed : ℕ → F → List Char

instance : Float64 Binary64 where
  nan := .nan
  ofRat := Binary64.ofRat
  ofInt := Binary64.ofInt
  ofBits32 := Binary64.ofBits32
  toBits32 := Binary64.toBits32
  add := Binary64.add
  sub := Binary64.sub
  mul := Binary64.mul
  div := Binary64.div
  abs := Binary64.abs
  round := Binary64.round
  lt := Binary64.lt
  le := Binary64.le
  beq := Binary64.beq
  isFinite := Binary64.isFinite
  isSignNegative := Binary64.isSignNegative
  toIntWithin := Binary64.toIntWithin
  display := Binary64.display
  displayFixed := Binary64.displayFixed

namespace Float64

variable {F : Type} [Float64 F]

/-- `as i64`. -/
def toI64 (v : F) : Int64 := Int64.ofInt (toIntWithin (-9223372036854775808) 9223372036854775807 v)

/-- `as u32`. -/
def toU32 (v : F) : UInt32 := UInt32.ofNat (toIntWithin 0 4294967295 v).toNat

/-- `as u64`. -/
def toU64 (v : F) : UInt64 := UInt64.ofNat (toIntWithin 0 18446744073709551615 v).toNat

/-- `10f64.powi(n)`. -/
def pow10 (n : ℕ) : F := ofInt (10 ^ n)

end Float64

end Canboat
