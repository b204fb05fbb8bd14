import Mathlib.Data.Nat.Notation

/-!
# Bit-level extraction

Fields are packed LSB-first within each byte, byte by byte from low to high.
Machine arithmetic wraps.
-/

namespace Canboat

/-- Result of an integer field extraction. -/
structure Extracted where
  /-- Sign-extended if signed, post-offset. -/
  value : Int64
  /-- Largest value of the width read. -/
  max : Int64
  /-- The bit pattern, before sign extension and offset. -/
  raw : UInt64
deriving DecidableEq, Repr

/-- Read `remaining` bits from bit `firstBit` of the first byte on: the value, the mask of
its width, and the number of bits there were. -/
def extractLoop (firstBit magnitude remaining : ℕ) (value maxV : UInt64) :
    List UInt8 → UInt64 × UInt64 × ℕ
  | [] => (value, maxV, magnitude)
  | byte :: data =>
      if remaining = 0 then (value, maxV, magnitude)
      else
        let inThisByte := min (8 - firstBit) remaining
        let allOnes : UInt64 := (1 <<< UInt64.ofNat inThisByte) - 1
        let mask := allOnes <<< UInt64.ofNat firstBit
        let chunk := (byte.toUInt64 &&& mask) >>> UInt64.ofNat firstBit
        let value := value ||| (chunk <<< UInt64.ofNat magnitude)
        let maxV := maxV ||| (allOnes <<< UInt64.ofNat magnitude)
        if firstBit + inThisByte ≥ 8 then
          extractLoop (firstBit + inThisByte - 8) (magnitude + inThisByte)
            (remaining - inThisByte) value maxV data
        -- less than the rest of this byte was wanted, so nothing remains
        else (value, maxV, magnitude + inThisByte)

/-- Extract `bits` bits from bit `bitOffset` on; `none` when the field starts past the end
of the data. A field that runs off the end is cut to what is there. -/
def extractBits (data : List UInt8) (bitOffset bits : ℕ) (signed : Bool) (offset : Int64) :
    Option Extracted :=
  if bits = 0 ∨ bits > 64 then none
  else
    let byteOffset := bitOffset >>> 3
    if byteOffset ≥ data.length then none
    else
      let (value, maxV, extracted) :=
        extractLoop (bitOffset &&& 7) 0 bits 0 0 (data.drop byteOffset)
      if extracted = 0 then none
      else if signed then
        let max := (maxV >>> 1).toInt64
        if offset ≠ 0 then
          some { value := value.toInt64 + offset, max := max + offset, raw := value }
        else
          let signBit : UInt64 := 1 <<< UInt64.ofNat (extracted - 1)
          let valueSigned :=
            if value &&& signBit ≠ 0 then value.toInt64 ||| ~~~maxV.toInt64 else value.toInt64
          some { value := valueSigned, max, raw := value }
      else if offset ≠ 0 then
        some { value := value.toInt64 + offset, max := maxV.toInt64 + offset, raw := value }
      else some { value := value.toInt64, max := maxV.toInt64, raw := value }

/-- The top of the range stands for no data: of three bits or more the last two values, of
two bits the last. -/
def isUnavailable (extracted : Extracted) : Bool :=
  let reserved : Int64 := if extracted.max ≥ 7 then 2 else if extracted.max > 1 then 1 else 0
  reserved > 0 && extracted.max - reserved < extracted.value

inductive Sentinel
  | none
  | unknown
  | outOfRange
  | reserved
deriving DecidableEq, Repr

/-- Compare the bit pattern with a field's hints. -/
def classifySentinel (extracted : Extracted) (unknown outOfRange reserved : Option UInt64) :
    Sentinel :=
  if unknown = some extracted.raw then .unknown
  else if outOfRange = some extracted.raw then .outOfRange
  else if reserved = some extracted.raw then .reserved
  else .none

example : extractBits [0xab, 0xbc] 4 12 false 0 =
    some { value := 0xbca, max := 0xfff, raw := 0xbca } := by decide

example : extractBits [0xfe, 0xff] 0 16 true 0 =
    some { value := -2, max := 0x7fff, raw := 0xfffe } := by decide

end Canboat
