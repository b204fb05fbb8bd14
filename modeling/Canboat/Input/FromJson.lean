import Canboat.Decode.Fields
import Canboat.Input.AnalyzerJson
import Canboat.Snapshot.Store

/-!
# A record out of a JSON line

The near-inverse of the JSON output: the fields outside the repeating sets, as far as a
converter reads them.
-/

namespace Canboat

open AnalyzerJson

variable {F : Type} [Float64 F]

/-- The number that a lookup's table has for a name. -/
def resolveLookupName (db : PgnDatabase F) (fi : FieldInfo F) (name : List Char) :
    Option UInt64 := do
  let table ← (fi.lookupEnumeration.or fi.lookupBitEnumeration).or fi.lookupIndirectEnumeration
  let t ← db.lookup table
  (t.values.find? (·.name.toList = name)).map (·.value)

/-- What the decoder keeps as an integer: resolution 1, or none, and no unit. -/
def isIntegerField (fi : FieldInfo F) : Bool :=
  ((fi.resolution.map fun r => Float64.beq r (Float64.ofInt 1)).getD true) && fi.unit.isNone

def nestedOrBareInt (line field : List Char) : Option Int64 :=
  (lookupInt line field).or (int line field)

def mmsiFromJson (line field : List Char) : Option UInt32 :=
  match lookupInt line field with
  | some v => if 0 ≤ v ∧ v ≤ 4294967295 then some v.toUInt64.toUInt32 else none
  | none => (value line field).bind fun v => parseU32 (trim v)

/-- The field's key: its `id` in a `-camel` line, its name in another. -/
def fieldKey (useCamel : Bool) (fi : FieldInfo F) : List Char :=
  if useCamel then fi.id.val.toList else fi.name.toList

/-- `none` for a field that is not in the line, or of a type that no converter reads. -/
def fieldValueFromJson (line : List Char) (fi : FieldInfo F) (db : PgnDatabase F)
    (useCamel : Bool) : Option (FieldValue F) :=
  let name := fieldKey useCamel fi
  match fi.fieldType with
  | some .lookup | some .bitLookup | some .indirectLookup | some .dynamicFieldKey
  | some .fieldIndex =>
      match lookupInt line name with
      | some v => some (.lookup v.toUInt64 none)
      | none => do
          let text ← value line name
          let v ← resolveLookupName db fi text
          some (.lookup v none)
  | some .date => (nestedOrBareInt line name).map fun v => .date v.toUInt64.toUInt16
  | some .time | some .duration =>
      (nestedOrBareInt line name).map fun v =>
        let res := fi.resolution.getD (Float64.ofInt 1)
        -- whole seconds are written for a resolution of whole seconds
        .time v (if Float64.le (Float64.ofInt 1) res then Float64.ofInt v.toInt
          else Float64.mul (Float64.ofInt v.toInt) res)
  | some .mmsi => (mmsiFromJson line name).map .mmsi
  | some .pgn => (nestedOrBareInt line name).map fun v => .pgn v.toUInt64.toUInt32 none
  | some .stringFix | some .stringLz | some .stringLau | some .variable =>
      (value line name).map .string
  | some .float => (number line name).map .float
  | some .number | some .decimal | none =>
      if isIntegerField fi then (int line name).map .integer else (number line name).map .number
  | some .binary | some .isoName | some .reserved | some .spare | some .dynamicFieldLength
  | some .dynamicFieldValue => none

/-- A field that a line gives, without its place in a payload. -/
def DecodedField.fromJson (fi : FieldInfo F) (value : FieldValue F) : DecodedField F :=
  { info := fi, value, bitOffset := none, bitLength := none, repeatIndex := none, repeatSet := 0,
    overrides := none }

/-- The definition that a line is of; a `-camel` line names it. -/
def jsonPgnInfo (db : PgnDatabase F) (camelId : Option String) (pgn : UInt32) :
    Option (PgnInfo F) :=
  match camelId with
  | some id => (db.pgns.find? (·.id.val = id)).or (db.firstPgn pgn)
  | none => db.firstPgn pgn

def jsonToDecoded (line : List Char) (db : PgnDatabase F) : Option (DecodedPgn F) := do
  let camelId := camelWrapperId (String.ofList line)
  let useCamel := camelId.isSome
  let pgn ← (int line "pgn".toList).map (·.toUInt64.toUInt32)
  let info ← jsonPgnInfo db camelId pgn
  let fields := info.fields.filterMap fun fi =>
    (fieldValueFromJson line fi db useCamel).map (.fromJson fi)
  some
    { timestamp := (value line "timestamp".toList).map String.ofList
      prio := ((int line "prio".toList).getD 0).toUInt64.toUInt8
      pgn
      src := ((int line "src".toList).getD 0).toUInt64.toUInt8
      dst := ((int line "dst".toList).getD 255).toUInt64.toUInt8
      description := info.description
      id := info.id
      idIsPinned := info.idIsPinned
      data := []
      fields
      hasRepeatingSet := (false, false)
      indexByOrder := buildIndexByOrder fields }

omit [Float64 F] in
/-- A definition is found by its identifier where no other has it. -/
theorem jsonPgnInfo_of_id {db : PgnDatabase F} {info : PgnInfo F} (hmem : info ∈ db.pgns)
    (hids : ∀ p ∈ db.pgns, p.id = info.id → p = info) (pgn : UInt32) :
    jsonPgnInfo db (some info.id.val) pgn = some info := by
  rw [jsonPgnInfo]
  cases hfind : db.pgns.find? (·.id.val = info.id.val) with
  | none =>
      have hval : decide (info.id.val = info.id.val) = true := decide_eq_true rfl
      exact absurd hval (List.find?_eq_none.mp hfind _ hmem)
  | some p =>
      have hval : p.id.val = info.id.val := by simpa using List.find?_some hfind
      have hid : p.id = info.id := by
        cases hp : p.id
        cases hi : info.id
        rw [hp, hi] at hval
        cases hval
        rfl
      rw [hids p (List.mem_of_find?_eq_some hfind) hid]
      rfl

/-- The record of a line, once its number and definition are known. -/
def readRecord (line : List Char) (db : PgnDatabase F) (info : PgnInfo F) (pgn : UInt32)
    (useCamel : Bool) : DecodedPgn F :=
  let fields := info.fields.filterMap fun fi =>
    (fieldValueFromJson line fi db useCamel).map (.fromJson fi)
  { timestamp := (value line "timestamp".toList).map String.ofList
    prio := ((int line "prio".toList).getD 0).toUInt64.toUInt8
    pgn
    src := ((int line "src".toList).getD 0).toUInt64.toUInt8
    dst := ((int line "dst".toList).getD 255).toUInt64.toUInt8
    description := info.description
    id := info.id
    idIsPinned := info.idIsPinned
    data := []
    fields
    hasRepeatingSet := (false, false)
    indexByOrder := buildIndexByOrder fields }

theorem jsonToDecoded_eq {line : List Char} {db : PgnDatabase F} {camelId : Option String}
    {pgn : Int64} {info : PgnInfo F} (hcamel : camelWrapperId (String.ofList line) = camelId)
    (hpgn : int line "pgn".toList = some pgn)
    (hinfo : jsonPgnInfo db camelId pgn.toUInt64.toUInt32 = some info) :
    jsonToDecoded line db =
      some (readRecord line db info pgn.toUInt64.toUInt32 camelId.isSome) := by
  rw [jsonToDecoded, hcamel, hpgn]
  simp only [Option.map_some, Option.bind_eq_bind, Option.bind_some]
  rw [hinfo]
  rfl

/-- Two lines with the same values give the same record. -/
theorem readRecord_congr {line line' : List Char} {db : PgnDatabase F} {info : PgnInfo F}
    {pgn : UInt32} {useCamel useCamel' : Bool}
    (htimestamp : value line "timestamp".toList = value line' "timestamp".toList)
    (hprio : int line "prio".toList = int line' "prio".toList)
    (hsrc : int line "src".toList = int line' "src".toList)
    (hdst : int line "dst".toList = int line' "dst".toList)
    (hfields : ∀ fi ∈ info.fields,
      fieldValueFromJson line fi db useCamel = fieldValueFromJson line' fi db useCamel') :
    readRecord line db info pgn useCamel = readRecord line' db info pgn useCamel' := by
  have hmap : (info.fields.filterMap fun fi =>
      (fieldValueFromJson line fi db useCamel).map (DecodedField.fromJson fi)) =
      info.fields.filterMap fun fi =>
        (fieldValueFromJson line' fi db useCamel').map (DecodedField.fromJson fi) :=
    List.filterMap_congr fun fi hfi => by rw [hfields fi hfi]
  rw [readRecord, readRecord, hmap, htimestamp, hprio, hsrc, hdst]

end Canboat
