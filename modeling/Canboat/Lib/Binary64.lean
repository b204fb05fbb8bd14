import Mathlib.Algebra.Group.Nat.Defs
import Mathlib.Data.Rat.Init
import Mathlib.Data.Nat.Log
import Mathlib.Tactic.Common

/-!
# IEEE 754 binary64 numbers

A finite number is an integer significand at a power of two, an operation the exact
rational result rounded once, to the nearest number and to an even significand between two.
NaNs are one value.
-/

/-- The magnitude is `m * 2 ^ e` units of `2 ^ -1074`. -/
structure Binary64.Finite where
  neg : Bool
  m : ℕ
  e : ℕ
  m_lt : m < 2 ^ 53
  e_le : e ≤ 2045
  /-- Only the least exponent has a significand without its leading bit. -/
  normal : e = 0 ∨ 2 ^ 52 ≤ m
deriving DecidableEq, Repr

inductive Binary64
  | nan
  | inf (neg : Bool)
  | fin (x : Binary64.Finite)
deriving DecidableEq, Repr

namespace Binary64

/-! ## Rounding -/

/-- The nearest integer to `a / b`, the even one between two. -/
def divRound (a b : ℕ) : ℕ :=
  if 2 * (a % b) < b then a / b
  else if b < 2 * (a % b) then a / b + 1
  else a / b + a / b % 2

theorem div_le_divRound (a b : ℕ) : a / b ≤ divRound a b := by
  unfold divRound
  split
  · exact Nat.le_refl _
  · split <;> exact Nat.le_add_right _ _

/-- The exponent of the number nearest to a quotient with this integer part. -/
def exponentOf (q : ℕ) : ℕ := Nat.log2 q - 52

theorem le_of_exponentOf {q : ℕ} (hq : exponentOf q ≠ 0) : 2 ^ 52 ≤ q / 2 ^ exponentOf q := by
  have hne : q ≠ 0 := by
    rintro rfl
    exact hq (by decide)
  rw [Nat.le_div_iff_mul_le (Nat.two_pow_pos _), ← Nat.pow_add]
  refine Nat.le_trans (Nat.pow_le_pow_right Nat.two_pos ?_) (Nat.log2_self_le hne)
  unfold exponentOf at hq ⊢
  omega

/-- The number nearest to `a / b` units. -/
def roundUnits (neg : Bool) (a b : ℕ) : Binary64 :=
  let e := exponentOf (a / b)
  if hm : divRound a (b * 2 ^ e) < 2 ^ 53 then
    if he : e ≤ 2045 then
      .fin ⟨neg, divRound a (b * 2 ^ e), e, hm, he, by
        by_cases h0 : e = 0
        · exact Or.inl h0
        · refine Or.inr (Nat.le_trans ?_ (div_le_divRound _ _))
          rw [← Nat.div_div_eq_div_mul]
          exact le_of_exponentOf h0⟩
    else .inf neg
  -- rounded up to the next power of two
  else if he : e + 1 ≤ 2045 then .fin ⟨neg, 2 ^ 52, e + 1, by decide, he, Or.inr (Nat.le_refl _)⟩
  else .inf neg

/-- One in units of the last place of the least exponent. -/
def one : ℕ := 2 ^ 1074

def ofRat (q : ℚ) : Binary64 := roundUnits (q.num < 0) (q.num.natAbs * one) q.den

def ofInt (n : ℤ) : Binary64 := roundUnits (n < 0) (n.natAbs * one) 1

/-! ## Arithmetic -/

/-- In units, with its sign. -/
def Finite.units (x : Finite) : ℤ :=
  if x.neg then -((x.m * 2 ^ x.e : ℕ) : ℤ) else (x.m * 2 ^ x.e : ℕ)

def Finite.isZero (x : Finite) : Bool := x.m == 0

def isFinite : Binary64 → Bool
  | .fin _ => true
  | _ => false

def isSignNegative : Binary64 → Bool
  | .nan => false
  | .inf neg => neg
  | .fin x => x.neg

def neg : Binary64 → Binary64
  | .nan => .nan
  | .inf s => .inf !s
  | .fin x => .fin { x with neg := !x.neg }

def abs : Binary64 → Binary64
  | .nan => .nan
  | .inf _ => .inf false
  | .fin x => .fin { x with neg := false }

def add : Binary64 → Binary64 → Binary64
  | .nan, _ => .nan
  | _, .nan => .nan
  | .inf s, .inf t => if s = t then .inf s else .nan
  | .inf s, .fin _ => .inf s
  | .fin _, .inf t => .inf t
  | .fin x, .fin y =>
      let sum := x.units + y.units
      -- a zero sum is negative only from two negative zeros
      roundUnits (if sum = 0 then x.neg && y.neg else sum < 0) sum.natAbs 1

def sub (x y : Binary64) : Binary64 := x.add y.neg

def mul : Binary64 → Binary64 → Binary64
  | .nan, _ => .nan
  | _, .nan => .nan
  | .inf s, .inf t => .inf (s != t)
  | .inf s, .fin y => if y.isZero then .nan else .inf (s != y.neg)
  | .fin x, .inf t => if x.isZero then .nan else .inf (x.neg != t)
  | .fin x, .fin y => roundUnits (x.neg != y.neg) (x.units.natAbs * y.units.natAbs) one

def div : Binary64 → Binary64 → Binary64
  | .nan, _ => .nan
  | _, .nan => .nan
  | .inf _, .inf _ => .nan
  | .inf s, .fin y => .inf (s != y.neg)
  | .fin x, .inf t => roundUnits (x.neg != t) 0 1
  | .fin x, .fin y =>
      if y.isZero then if x.isZero then .nan else .inf (x.neg != y.neg)
      else roundUnits (x.neg != y.neg) (x.units.natAbs * one) y.units.natAbs

def lt : Binary64 → Binary64 → Bool
  | .nan, _ => false
  | _, .nan => false
  | .inf s, .inf t => s && !t
  | .inf s, .fin _ => s
  | .fin _, .inf t => !t
  | .fin x, .fin y => x.units < y.units

def beq : Binary64 → Binary64 → Bool
  | .inf s, .inf t => s == t
  | .fin x, .fin y => x.units == y.units
  | _, _ => false

def le (x y : Binary64) : Bool := x.lt y || x.beq y

/-- To the nearest integer, away from zero between two. -/
def round : Binary64 → Binary64
  | .fin x => roundUnits x.neg ((2 * x.units.natAbs + one) / (2 * one) * one) 1
  | x => x

/-- The integer toward zero, held between the bounds; zero for a NaN. -/
def toIntWithin (lo hi : ℤ) : Binary64 → ℤ
  | .nan => 0
  | .inf true => lo
  | .inf false => hi
  | .fin x => max lo (min hi (x.units.tdiv (one : ℕ)))

/-- A binary32 pattern; every one is a binary64 number. -/
def ofBits32 (bits : UInt32) : Binary64 :=
  let neg := bits.toNat / 2 ^ 31 = 1
  let exponent := bits.toNat / 2 ^ 23 % 2 ^ 8
  let fraction := bits.toNat % 2 ^ 23
  if exponent = 255 then if fraction = 0 then .inf neg else .nan
  else if exponent = 0 then roundUnits neg (fraction * one) (2 ^ 149)
  else roundUnits neg ((2 ^ 23 + fraction) * 2 ^ (exponent - 1) * one) (2 ^ 149)

/-- The binary32 pattern nearest to `a / b` of its own least units. -/
def bits32 (neg : Bool) (a b : ℕ) : UInt32 :=
  let e := Nat.log2 (a / b) - 23
  -- a carry out of the significand is a carry into the exponent
  let pattern := divRound a (b * 2 ^ e) + (if e = 0 then 0 else e * 2 ^ 23)
  UInt32.ofNat ((if neg then 2 ^ 31 else 0) + min pattern (255 * 2 ^ 23))

def toBits32 : Binary64 → UInt32
  | .nan => 0x7fc00000
  | .inf neg => bits32 neg (2 ^ 300) 1
  | .fin x => bits32 x.neg (x.m * 2 ^ x.e) (2 ^ 925)

/-! ## Decimal numerals -/

def digits (n : ℕ) : List Char := n.repr.toList

/-- Zero-padded on the left. -/
def paddedDigits (width n : ℕ) : List Char :=
  List.replicate (width - (digits n).length) '0' ++ digits n

/-- `n` units of the last of that many decimal places. -/
def decimal (neg : Bool) (places n : ℕ) : List Char :=
  (if neg then ['-'] else []) ++
    if places = 0 then digits n
    else digits (n / 10 ^ places) ++ '.' :: paddedDigits places (n % 10 ^ places)

/-- Not a number of the grammar of any decimal numeral. -/
def special : Binary64 → List Char
  | .inf true => "-inf".toList
  | .inf false => "inf".toList
  | _ => "NaN".toList

/-- The exact value, to that many decimal places. -/
def displayFixed (places : ℕ) : Binary64 → List Char
  | .fin x => decimal x.neg places (divRound (x.m * 2 ^ x.e * 10 ^ places) one)
  | x => x.special

/-- `a / b` rounds to the number, whatever its sign; it is halfway to a neighbour at most. -/
def Finite.nearest (x : Finite) (a b : ℕ) : Bool :=
  let exact := 4 * (x.m * 2 ^ x.e) * b
  let above := 2 * 2 ^ x.e * b
  let below := (if x.m = 2 ^ 52 ∧ x.e ≠ 0 then 1 else 2) * 2 ^ x.e * b
  if x.m % 2 = 0 then exact - below ≤ 4 * one * a ∧ 4 * one * a ≤ exact + above
  else exact - below < 4 * one * a ∧ 4 * one * a < exact + above

/-- A multiple of `10 ^ zeros / 10 ^ places` that rounds to the number, the closest first. -/
def Finite.numeral? (x : Finite) (zeros places : ℕ) : Option (ℕ × ℕ) :=
  let a := x.m * 2 ^ x.e * 10 ^ places
  let b := one * 10 ^ zeros
  ([divRound a b, a / b, a / b + 1].find? fun n =>
    x.nearest (n * 10 ^ zeros) (10 ^ places)).map fun n => (places, n * 10 ^ zeros)

/-- The fewest digits that round to the number. -/
def Finite.shortest (x : Finite) : ℕ × ℕ :=
  (((List.range 309).reverse.findSome? fun zeros => x.numeral? zeros 0).or
    ((List.range 1075).findSome? fun places => x.numeral? 0 places)).getD
      (1074, x.m * 2 ^ x.e * 10 ^ 1074 / one)

/-- The shortest numeral that reads back, without an exponent. -/
def display : Binary64 → List Char
  | .fin x => decimal x.neg x.shortest.1 x.shortest.2
  | x => x.special

example : add (ofRat (1 / 10)) (ofRat (2 / 10)) ≠ ofRat (3 / 10) := by decide +kernel

example : ofBits32 0x3fc00000 = ofRat (3 / 2) := by decide +kernel

end Binary64
