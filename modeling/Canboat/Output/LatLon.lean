import Canboat.Output.Number

/-!
# Positions as text

In decimal degrees, in degrees and minutes, or in degrees, minutes and seconds.
-/

namespace Canboat

open Binary64 (paddedDigits)

variable {F : Type} [Float64 F]

/-- `f64::floor`; from 2⁵³ on every number is whole. -/
def floor (v : F) : F :=
  if Float64.lt (Float64.abs v) (Float64.ofInt 9007199254740992) then
    let t : F := Float64.ofInt (Float64.toIntWithin (-9007199254740992) 9007199254740992 v)
    if Float64.lt v t then Float64.sub t (Float64.ofInt 1) else t
  else v

inductive GeoFormat
  | Dd
  | Dm
  | Dms
deriving DecidableEq, Repr

/-- Zeros on the left, behind the sign. -/
def padZeros (width : ℕ) (s : List Char) : List Char :=
  match s with
  | '-' :: rest => '-' :: (List.replicate (width - 1 - rest.length) '0' ++ rest)
  | _ => List.replicate (width - s.length) '0' ++ s

/-- A longitude's name. -/
def isLon (name : String) : Bool := name.toList.tails.any "ongit".toList.isPrefixOf

/-- The letter of the hemisphere. -/
def writeDirection (dd : F) (name : String) : Char :=
  if isLon name then
    if Float64.le (Float64.ofInt 0) dd then 'E' else 'W'
  else if Float64.le (Float64.ofInt 0) dd then 'N'
  else 'S'

def writeLatlon (dd : F) (name : String) (geo : GeoFormat) : List Char :=
  let dir := writeDirection dd name
  let abs := Float64.abs dd
  let deg := floor abs
  let rem := Float64.sub abs deg
  match geo with
  | .Dd => padLeft 10 (Float64.displayFixed 7 dd)
  | .Dm =>
      let minutes := Float64.mul rem (Float64.ofInt 60)
      paddedDigits 2 (Float64.toU32 deg).toNat ++ 'd' :: ' ' ::
        (padLeft 6 (Float64.displayFixed 3 minutes) ++ [' ', dir])
  | .Dms =>
      let minutes := floor (Float64.mul rem (Float64.ofInt 60))
      let seconds := Float64.sub (Float64.mul rem (Float64.ofInt 3600))
        (Float64.mul (Float64.ofInt 60) minutes)
      -- the cap on the fractional seconds
      let up := Float64.le (Float64.ofRat 59.9995) seconds
      let minutes := if up then Float64.add minutes (Float64.ofInt 1) else minutes
      let seconds := if up then Float64.ofInt 0 else seconds
      let carry := Float64.le (Float64.ofInt 60) minutes
      let deg := if carry then Float64.add deg (Float64.ofInt 1) else deg
      let minutes := if carry then Float64.ofInt 0 else minutes
      paddedDigits 2 (Float64.toU32 deg).toNat ++ 'd' :: ' ' ::
        (paddedDigits 2 (Float64.toU32 minutes).toNat ++ '\'' :: ' ' ::
          (padZeros 6 (Float64.displayFixed 3 seconds) ++ ['"', dir]))

end Canboat
