import Canboat.Schema.Types

/-!
# Decoded values

A field's value with the schema entry it was decoded against, and the decoded message.
-/

namespace Canboat

/-- Metadata that comes from another definition than the field's own. -/
structure FieldOverrides (F : Type) where
  unit : Option String
  resolution : Option F
  /-- Zero is no override. -/
  precision : Precision

mutual

inductive FieldValue (F : Type)
  | number (v : F)
  | integer (v : Int64)
  | float (v : F)
  | binary (bytes : List UInt8)
  | lookup (value : UInt64) (name : Option String)
  | bitField (value : UInt64) (bits : List (UInt64 × String))
  | string (s : List Char)
  | date (days : UInt16)
  | time (raw : Int64) (seconds : F)
  | mmsi (v : UInt32)
  | pgn (value : UInt32) (description : Option String)
  | isoName (value : UInt64) (subfields : List (DecodedField F))
  | reserved (value : UInt64) (bytes : List UInt8) (bitLength : UInt32)
  | spare (value : UInt64) (bytes : List UInt8) (bitLength : UInt32)
  | notAvailable
  | outOfRange (value : UInt64)
  | reservedValue (value : UInt64)
  | unsupported (fieldType : String)

structure DecodedField (F : Type) where
  info : FieldInfo F
  value : FieldValue F
  bitOffset : Option UInt32
  bitLength : Option UInt32
  /-- The iteration of a repeating set, from zero. -/
  repeatIndex : Option UInt32
  /-- 1 for "list", 2 for "list2", 0 outside the repeating sets. -/
  repeatSet : UInt8
  overrides : Option (FieldOverrides F)

end

namespace DecodedField

variable {F : Type} (f : DecodedField F)

def order : UInt8 := f.info.order

def unit : Option String := (f.overrides.bind (·.unit)).or f.info.unit

def resolution : Option F := (f.overrides.bind (·.resolution)).or f.info.resolution

def precision : Precision :=
  match f.overrides with
  | some o => if 0 < o.precision then o.precision else f.info.precision
  | none => f.info.precision

def partOfPrimaryKey : Bool := f.info.partOfPrimaryKey.getD false

end DecodedField

structure DecodedPgn (F : Type) where
  timestamp : Option String
  prio : UInt8
  pgn : UInt32
  src : UInt8
  dst : UInt8
  description : String
  id : Identifier
  idIsPinned : Bool
  data : List UInt8
  fields : List (DecodedField F)
  /-- The decoder reached the start field of the first and of the second set. -/
  hasRepeatingSet : Bool × Bool
  /-- By `order - 1`, the position of a field outside the sets; the least value for none. -/
  indexByOrder : List Int8

end Canboat
