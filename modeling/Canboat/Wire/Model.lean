import Canboat.Core.Utf8
import Canboat.Decode.Fields
import Canboat.Decode.Units
import Canboat.Lib.Checked

/-!
# The wire form

A decoded message without its references to the schema, and the message that a receiver makes of
it by its own schema. The frame bytes, and the handshake that makes both schemas the same, are
left out.
-/

namespace Canboat

variable {F : Type} [Float64 F]

structure WireOverrides (F : Type) where
  unit : Option String
  resolution : Option F
  precision : Precision

mutual

/-- A value without its labels. -/
inductive WireValue (F : Type)
  | Number (v : F)
  | Integer (v : Int64)
  | Float (v : F)
  | Binary (bytes : List UInt8)
  | Lookup (value : UInt64)
  | BitField (value : UInt64)
  | String (s : List Char)
  | Date (days : UInt16)
  | Time (raw : Int64) (seconds : F)
  | Mmsi (v : UInt32)
  | Pgn (value : UInt32)
  | IsoName (value : UInt64) (subfields : List (WireField F))
  | Reserved (value : UInt64) (bytes : List UInt8) (bitLength : UInt32)
  | Spare (value : UInt64) (bytes : List UInt8) (bitLength : UInt32)
  | NotAvailable
  | OutOfRange (value : UInt64)
  | ReservedValue (value : UInt64)
  | Unsupported

/-- A field by its order. -/
structure WireField (F : Type) where
  order : UInt8
  repeatIndex : Option UInt32
  repeatSet : UInt8
  value : WireValue F
  overrides : Option (WireOverrides F)

end

structure WirePgn (F : Type) where
  timestamp : Option String
  prio : UInt8
  pgn : UInt32
  src : UInt8
  dst : UInt8
  pgnIdHash : UInt64
  hasRepeatingSet : Bool × Bool
  fields : List (WireField F)

/-! ## To the wire -/

def pgnIdHash (id : Identifier) : UInt64 :=
  (utf8Bytes id.val.toList).foldl (fun h b => (h <<< 5) + h + b.toUInt64) 5381

def WireOverrides.ofOverrides (o : FieldOverrides F) : WireOverrides F where
  unit := o.unit
  resolution := o.resolution
  precision := o.precision

mutual

def WireValue.ofValue : FieldValue F → WireValue F
  | .number x => .Number x
  | .integer x => .Integer x
  | .float x => .Float x
  | .binary b => .Binary b
  | .lookup value _ => .Lookup value
  | .bitField value _ => .BitField value
  | .string s => .String s
  | .date d => .Date d
  | .time raw seconds => .Time raw seconds
  | .mmsi m => .Mmsi m
  | .pgn value _ => .Pgn value
  | .isoName value subfields => .IsoName value (WireField.ofFields subfields)
  | .reserved value bytes bitLength => .Reserved value bytes bitLength
  | .spare value bytes bitLength => .Spare value bytes bitLength
  | .notAvailable => .NotAvailable
  | .outOfRange value => .OutOfRange value
  | .reservedValue value => .ReservedValue value
  | .unsupported _ => .Unsupported

def WireField.ofField : DecodedField F → WireField F
  | ⟨info, value, _, _, repeatIndex, repeatSet, overrides⟩ =>
      { order := info.order, repeatIndex, repeatSet, value := WireValue.ofValue value
        overrides := overrides.map WireOverrides.ofOverrides }

def WireField.ofFields : List (DecodedField F) → List (WireField F)
  | [] => []
  | f :: fields => WireField.ofField f :: WireField.ofFields fields

end

def WirePgn.ofPgn (d : DecodedPgn F) : WirePgn F where
  timestamp := d.timestamp
  prio := d.prio
  pgn := d.pgn
  src := d.src
  dst := d.dst
  pgnIdHash := Canboat.pgnIdHash d.id
  hasRepeatingSet := d.hasRepeatingSet
  fields := WireField.ofFields d.fields

/-! ## From the wire -/

/-- A map with the definitions inserted in their order. -/
def PgnIndex.get (db : PgnDatabase F) (hash : UInt64) : Option (PgnInfo F) :=
  db.pgns.reverse.find? fun p => pgnIdHash p.id = hash

/-- An order from zero on; that of no field gives the first. -/
def fieldByOrder (info : PgnInfo F) (order : UInt8) : Except Fault (FieldInfo F) :=
  match info.fields with
  | [] => .error .index
  | first :: _ => .ok ((info.fields[(order - 1).toNat]?).getD first)

/-- Only the field's own unit is one of the schema. -/
def staticUnit (wireUnit : String) (info : FieldInfo F) : Option String :=
  if info.unit = some wireUnit then some wireUnit else none

/-- From the unit of the producer's field to that of this one. -/
def rehydrateNumber (x : F) (info : FieldInfo F) (peerField : Option (FieldInfo F)) : F :=
  match peerField.bind (·.unit), info.unit with
  | some fromUnit, some toUnit => (convertUnit x fromUnit toUnit).getD x
  | _, _ => x

/-- The name in the field's lookup table, or else in its table of field types. -/
def rehydrateName (db : PgnDatabase F) (info : FieldInfo F) (value : UInt64) : Option String :=
  (((info.lookupEnumeration.bind db.lookup).bind (·.get value)).map (·.name)).or
    ((info.lookupFieldTypeEnumeration.bind fun n => db.fieldTypeLookup n value).map (·.name))

/-- The set bits that the table names, from the lowest. -/
def rehydrateBits (db : PgnDatabase F) (info : FieldInfo F) (value : UInt64) :
    List (UInt64 × String) :=
  match info.lookupBitEnumeration.bind db.bitLookup with
  | none => []
  | some table => (List.finRange 64).filterMap fun bit =>
      if value &&& bitValue bit ≠ 0 then (table.get bit).map fun v => (bitValue bit, v.name) else none

def WireOverrides.rehydrate (info : FieldInfo F) (o : WireOverrides F) : FieldOverrides F where
  unit := o.unit.bind fun u => staticUnit u info
  resolution := o.resolution
  precision := o.precision

mutual

def rehydrateValue (pgnInfo : PgnInfo F) (info : FieldInfo F) (peerField : Option (FieldInfo F))
    (db : PgnDatabase F) : WireValue F → Except Fault (FieldValue F)
  | .Number x => .ok (.number (rehydrateNumber x info peerField))
  | .Integer x => .ok (.integer x)
  | .Float x => .ok (.float x)
  | .Binary b => .ok (.binary b)
  | .Lookup value => .ok (.lookup value (rehydrateName db info value))
  | .BitField value => .ok (.bitField value (rehydrateBits db info value))
  | .String s => .ok (.string s)
  | .Date d => .ok (.date d)
  | .Time raw seconds => .ok (.time raw seconds)
  | .Mmsi m => .ok (.mmsi m)
  | .Pgn value => .ok (.pgn value ((db.firstPgn value).map (·.description)))
  -- the fields of a NAME go by the definition that holds it
  | .IsoName value subfields => do
      let subfields ← rehydrateFields pgnInfo none db subfields
      return .isoName value subfields
  | .Reserved value bytes bitLength => .ok (.reserved value bytes bitLength)
  | .Spare value bytes bitLength => .ok (.spare value bytes bitLength)
  | .NotAvailable => .ok .notAvailable
  | .OutOfRange value => .ok (.outOfRange value)
  | .ReservedValue value => .ok (.reservedValue value)
  | .Unsupported => .ok (.unsupported "UNSUPPORTED")

def WireField.rehydrate (pgnInfo : PgnInfo F) (peerPgn : Option (PgnInfo F)) (db : PgnDatabase F) :
    WireField F → Except Fault (DecodedField F)
  | ⟨order, repeatIndex, repeatSet, value, overrides⟩ => do
      let info ← fieldByOrder pgnInfo order
      let peerField := peerPgn.bind fun p => p.fields[(order - 1).toNat]?
      let value ← rehydrateValue pgnInfo info peerField db value
      return { info, value, bitOffset := none, bitLength := none, repeatIndex, repeatSet
               overrides := overrides.map (·.rehydrate info) }

def rehydrateFields (pgnInfo : PgnInfo F) (peerPgn : Option (PgnInfo F)) (db : PgnDatabase F) :
    List (WireField F) → Except Fault (List (DecodedField F))
  | [] => .ok []
  | f :: fields => do
      let f ← WireField.rehydrate pgnInfo peerPgn db f
      let fields ← rehydrateFields pgnInfo peerPgn db fields
      return f :: fields

end

/-- The index by order, as the decoder makes it but for its last position. -/
def rehydrateIndexFrom : ℕ → List (DecodedField F) → List Int8 → List Int8
  | _, [], idx => idx
  | pos, f :: fields, idx =>
      if f.repeatSet = 0 ∧ f.order ≠ 0 ∧ f.order.toNat - 1 < indexSlots ∧ pos ≤ 127 then
        rehydrateIndexFrom (pos + 1) fields (idx.set (f.order.toNat - 1) (Int8.ofNat pos))
      else rehydrateIndexFrom (pos + 1) fields idx

def rehydrateIndex (fields : List (DecodedField F)) : List Int8 :=
  rehydrateIndexFrom 0 fields (List.replicate indexSlots noPosition)

/-- A message of a definition that the receiver knows. The schema of the producer is another view
of the same definitions. -/
def WirePgn.rehydrate (embedded : Units → PgnDatabase F) (db : PgnDatabase F) (peerUnits : Units)
    (w : WirePgn F) : Except Fault (Option (DecodedPgn F)) :=
  match PgnIndex.get db w.pgnIdHash with
  | none => .ok none
  | some info => do
      let peerPgn := if peerUnits ≠ db.units then (embedded peerUnits).pgnById info.id else none
      let fields ← rehydrateFields info peerPgn db w.fields
      return some
        { timestamp := w.timestamp, prio := w.prio, pgn := w.pgn, src := w.src, dst := w.dst
          description := info.description, id := info.id, idIsPinned := info.idIsPinned
          data := [], fields, hasRepeatingSet := w.hasRepeatingSet
          indexByOrder := rehydrateIndex fields }

end Canboat
