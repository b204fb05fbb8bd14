import Canboat.Decode.Value
import Canboat.Format.Timestamp

/-!
# Numbers, dates and times as text
-/

namespace Canboat

open Binary64 (digits paddedDigits)

variable {F : Type} [Float64 F]

/-- Decimal places until the resolution is a whole number, at most so many. -/
def precisionLoop : ℕ → F → ℕ
  | 0, _ => 0
  | n + 1, r =>
      if Float64.lt (Float64.ofInt 0) r ∧ Float64.lt r (Float64.ofInt 1) then
        precisionLoop n (Float64.mul r (Float64.ofInt 10)) + 1
      else 0

def precisionFor (resolution : F) : ℕ :=
  if ¬Float64.isFinite resolution ∨ Float64.le resolution (Float64.ofInt 0) then 0
  else precisionLoop 10 resolution

def effectivePrecision (precision : Precision) (resolution : Option F) : ℕ :=
  if 0 < precision then precision.val else precisionFor (resolution.getD (Float64.ofInt 1))

/-- Spaces on the left, up to a width. -/
def padLeft (width : ℕ) (s : List Char) : List Char :=
  List.replicate (width - s.length) ' ' ++ s

/-- Scaled, rounded and split; what does not scale goes to the general formatter. -/
def writeFixedFloat (v : F) (precision minWidth : ℕ) : List Char :=
  if ¬Float64.isFinite v ∨ Float64.le (Float64.ofInt 1000000000000) (Float64.abs v) then
    padLeft minWidth (Float64.displayFixed precision v)
  else
    let neg := Float64.isSignNegative v
    if precision = 0 then
      let rounded := Float64.toI64 (Float64.round v)
      padLeft minWidth
        ((if neg ∧ rounded ≠ 0 then ['-'] else []) ++ digits rounded.toInt.natAbs)
    else
      -- `as i128`
      let rounded := Float64.toIntWithin (-170141183460469231731687303715884105728)
        170141183460469231731687303715884105727
        (Float64.round (Float64.mul v (Float64.pow10 precision)))
      -- the quotient and the remainder `as u64`
      let intPart := rounded.natAbs / 10 ^ precision % 18446744073709551616
      let fracPart := rounded.natAbs % 10 ^ precision % 18446744073709551616
      padLeft minWidth
        ((if neg then ['-'] else []) ++
          digits intPart ++ '.' :: paddedDigits precision fracPart)

/-- `YYYY.MM.DD`. -/
def formatDate (days : UInt16) : List Char :=
  let (y, m, d) := daysToYmd days.toNat
  paddedDigits 4 y.toNat ++ '.' :: paddedDigits 2 m ++ '.' :: paddedDigits 2 d

/-- `HH:MM:SS` and a fraction. -/
def formatTime (seconds : F) (precision : ℕ) (trimZeroFraction : Bool) : List Char :=
  if ¬Float64.isFinite seconds then "00:00:00".toList
  else
    let sign := if Float64.lt seconds (Float64.ofInt 0) then ['-'] else []
    let abs := Float64.abs seconds
    let whole := Float64.toU64 abs
    let hms := sign ++ paddedDigits 2 (whole.toNat / 3600) ++
      ':' :: paddedDigits 2 (whole.toNat / 60 % 60) ++ ':' :: paddedDigits 2 (whole.toNat % 60)
    if precision = 0 then hms
    else
      let frac := Float64.mul (Float64.sub abs (Float64.ofInt whole.toNat))
        (Float64.pow10 precision)
      let fracRounded := Float64.toU64 (Float64.round frac)
      if trimZeroFraction ∧ fracRounded = 0 then hms
      else hms ++ '.' :: paddedDigits precision fracRounded.toNat

end Canboat
