import Canboat.Core.Float64
import Mathlib.Algebra.GroupWithZero.Nat

/-!
# The PGN database

The types of the tables that the build script generates, and the lookups in them.
-/

namespace Canboat

inductive FieldType
  | number
  | decimal
  | float
  | binary
  | lookup
  | bitLookup
  | indirectLookup
  | date
  | time
  | duration
  | stringFix
  | stringLz
  | stringLau
  | variable
  | mmsi
  | pgn
  | isoName
  | reserved
  | spare
  | dynamicFieldKey
  | dynamicFieldLength
  | dynamicFieldValue
  | fieldIndex
deriving DecidableEq, Repr

/-- Decimal places to display; the build script sets 0 for none of its own, 1, 3 or 7. -/
abbrev Precision := Fin 8

instance eightNeZero : NeZero 8 := ⟨by decide⟩

/-- How a PGN is sent. -/
inductive PacketType
  | single
  | fast
  | iso
  | mixed
deriving DecidableEq, Repr

def isIdentChar (c : Char) : Bool := c.isAlphanum || c == '_'

/-- An `Id` of the schema. -/
structure Identifier where
  val : String
  ident : val.toList.all isIdentChar = true
deriving DecidableEq, Repr

structure FieldInfo (F : Type) where
  order : UInt8
  id : Identifier
  name : String
  bitLength : Option UInt32
  bitOffset : Option UInt32
  resolution : Option F
  signed : Option Bool
  offset : Option Int64
  unknownValue : Option UInt64
  outOfRangeValue : Option UInt64
  reservedValue : Option UInt64
  unit : Option String
  physicalQuantity : Option String
  fieldType : Option FieldType
  lookupEnumeration : Option String
  lookupBitEnumeration : Option String
  lookupIndirectEnumeration : Option String
  lookupIndirectEnumerationFieldOrder : Option UInt8
  lookupFieldTypeEnumeration : Option String
  matchValue : Option Int64
  partOfPrimaryKey : Option Bool
  condition : Option String
  unitOffset : F
  precision : Precision
  isDynamicLengthMarker : Bool

/-- A number of this width with nothing else said of it; small definitions are written from it. -/
def FieldInfo.number {F : Type} (zero : F) (order : UInt8) (id : Identifier) (bitLength : UInt32) :
    FieldInfo F where
  order := order
  id := id
  name := id.val
  bitLength := some bitLength
  bitOffset := none
  resolution := none
  signed := none
  offset := none
  unknownValue := none
  outOfRangeValue := none
  reservedValue := none
  unit := none
  physicalQuantity := none
  fieldType := some .number
  lookupEnumeration := none
  lookupBitEnumeration := none
  lookupIndirectEnumeration := none
  lookupIndirectEnumerationFieldOrder := none
  lookupFieldTypeEnumeration := none
  matchValue := none
  partOfPrimaryKey := none
  condition := none
  unitOffset := zero
  precision := 0
  isDynamicLengthMarker := false

/-- A repeating set of fields, by their orders. -/
structure RepeatingFieldSet where
  size : Option UInt32
  startField : Option UInt32
  countField : Option UInt32
  /-- A walk over the fields gets past the set. -/
  size_pos : ∀ n ∈ size, 0 < n
deriving DecidableEq

def RepeatingFieldSet.none : RepeatingFieldSet := ⟨.none, .none, .none, nofun⟩

theorem RepeatingFieldSet.pos_of_some {n : UInt32} (h : 0 < n) : ∀ m ∈ some n, 0 < m := by
  rintro _ ⟨⟩
  exact h

structure PgnInfo (F : Type) where
  pgn : UInt32
  id : Identifier
  description : String
  packetType : PacketType
  fallback : Option Bool
  priority : Option UInt8
  length : Option UInt32
  fields : List (FieldInfo F)
  repeatingFieldSet1 : RepeatingFieldSet
  repeatingFieldSet2 : RepeatingFieldSet
  idIsPinned : Bool

/-! ## Lookup tables

The generated indexes are sorted by distinct keys, so a search finds the entry with the key. -/

structure LookupValue where
  value : UInt64
  name : String
  id : Option String
deriving DecidableEq, Repr

structure LookupTable where
  name : String
  values : List LookupValue
  distinct : (values.map (·.value)).Nodup

def LookupTable.get (t : LookupTable) (value : UInt64) : Option LookupValue :=
  t.values.find? (·.value = value)

structure BitLookupValue where
  bit : Fin 64
  name : String
deriving DecidableEq, Repr

structure BitLookupTable where
  name : String
  values : List BitLookupValue
  distinct : (values.map (·.bit)).Nodup

def BitLookupTable.get (t : BitLookupTable) (bit : Fin 64) : Option BitLookupValue :=
  t.values.find? (·.bit = bit)

structure IndirectLookupValue where
  value1 : UInt64
  value2 : UInt64
  name : String
deriving DecidableEq, Repr

structure IndirectLookupTable where
  name : String
  values : List IndirectLookupValue
  distinct : (values.map fun v => (v.value1, v.value2)).Nodup

def IndirectLookupTable.get (t : IndirectLookupTable) (value1 value2 : UInt64) :
    Option IndirectLookupValue :=
  t.values.find? fun v => v.value1 = value1 ∧ v.value2 = value2

structure LookupFieldTypeValue (F : Type) where
  value : UInt64
  name : String
  fieldType : Option String
  bits : Option UInt32
  resolution : Option F
  unit : Option String
  lookupEnumeration : Option String
  signed : Bool
  precision : Precision

structure LookupFieldTypeTable (F : Type) where
  name : String
  values : List (LookupFieldTypeValue F)
  distinct : (values.map (·.value)).Nodup

def LookupFieldTypeTable.get {F : Type} (t : LookupFieldTypeTable F) (value : UInt64) :
    Option (LookupFieldTypeValue F) :=
  t.values.find? (·.value = value)

/-! ## The database -/

/-- Field types whose decoding may decode another definition's fields. -/
def FieldType.Nests (t : FieldType) : Prop :=
  t = .isoName ∨ t = .variable ∨ t = .dynamicFieldValue

instance : DecidablePred FieldType.Nests := fun t => by
  unfold FieldType.Nests
  infer_instance

inductive Units
  | si
  | metric
deriving DecidableEq, Repr

structure PgnDatabase (F : Type) where
  units : Units
  pgns : List (PgnInfo F)
  lookups : List LookupTable
  bitLookups : List BitLookupTable
  indirectLookups : List IndirectLookupTable
  fieldTypeLookups : List (LookupFieldTypeTable F)
  /-- An ISO NAME is an address claim's payload, which holds no NAME in its turn. -/
  claimFlat : ∀ p ∈ pgns, p.pgn = 60928 → ∀ f ∈ p.fields, ∀ t ∈ f.fieldType, ¬t.Nests

namespace PgnDatabase

variable {F : Type} (db : PgnDatabase F)

def pgnVariants (pgn : UInt32) : List (PgnInfo F) := db.pgns.filter (·.pgn = pgn)

def firstPgn (pgn : UInt32) : Option (PgnInfo F) := db.pgns.find? (·.pgn = pgn)

def pgnById (id : Identifier) : Option (PgnInfo F) := db.pgns.find? (·.id = id)

def lookup (name : String) : Option LookupTable := db.lookups.find? (·.name = name)

def bitLookup (name : String) : Option BitLookupTable := db.bitLookups.find? (·.name = name)

def indirectLookup (name : String) (value1 value2 : UInt64) : Option String :=
  (db.indirectLookups.find? (·.name = name)).bind fun t => (t.get value1 value2).map (·.name)

def fieldTypeLookup (name : String) (key : UInt64) : Option (LookupFieldTypeValue F) :=
  (db.fieldTypeLookups.find? (·.name = name)).bind fun t => t.get key

end PgnDatabase

end Canboat
