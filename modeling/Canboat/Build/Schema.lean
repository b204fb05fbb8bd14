import Canboat.Core.Parse
import Canboat.Core.Units
import Canboat.Schema.Types

/-!
# The two generated schemas

The build script writes the definitions of canboat.json twice, in SI units and in practical ones,
and the tables of field types once.
-/

namespace Canboat.Codegen

/-! ## canboat.json -/

structure RawField where
  order : UInt8
  id : Identifier
  name : String
  bitLength : Option UInt32
  bitOffset : Option UInt32
  resolution : Option ℚ
  signed : Option Bool
  offset : Option Int64
  rangeMin : Option ℚ
  rangeMax : Option ℚ
  unknownValue : Option UInt64
  outOfRangeValue : Option UInt64
  reservedValue : Option UInt64
  unit : Option String
  physicalQuantity : Option String
  fieldType : Option FieldType
  lookupEnumeration : Option String
  lookupBitEnumeration : Option String
  lookupIndirectEnumeration : Option String
  lookupIndirectEnumerationFieldOrder : Option UInt8
  lookupFieldTypeEnumeration : Option String
  matchValue : Option Int64
  partOfPrimaryKey : Option Bool
  condition : Option String

structure RawPgn where
  pgn : UInt32
  id : Identifier
  description : String
  packetType : PacketType
  fallback : Option Bool
  priority : Option UInt8
  length : Option UInt32
  fields : List RawField
  repeatingFieldSet1 : RepeatingFieldSet
  repeatingFieldSet2 : RepeatingFieldSet
  idIsPinned : Bool

structure RawFieldTypeValue where
  value : UInt64
  name : String
  fieldType : Option String
  bits : Option (List Char)
  resolution : Option ℚ
  unit : Option String
  lookupEnumeration : Option String

structure RawFieldTypeLookup where
  name : String
  values : List RawFieldTypeValue
  distinct : (values.map (·.value)).Nodup

structure CanboatJson where
  pgns : List RawPgn
  lookups : List LookupTable
  bitLookups : List BitLookupTable
  indirectLookups : List IndirectLookupTable
  fieldTypeLookups : List RawFieldTypeLookup
  claimFlat : ∀ p ∈ pgns, p.pgn = 60928 → ∀ f ∈ p.fields, ∀ t ∈ f.fieldType, ¬t.Nests
  /-- The unit of a dynamic value comes from its key. -/
  dynamicUnitless : ∀ p ∈ pgns, ∀ f ∈ p.fields, f.fieldType = some .dynamicFieldValue →
    f.unit = none

section

variable {F : Type} [Float64 F]

/-! ## Fields -/

/-- What depends on the units. -/
structure FieldView (F : Type) where
  resolution : Option F
  unit : Option String
  rangeMin : Option F
  rangeMax : Option F
  unitOffset : F
  precision : Precision
  isDynamicLengthMarker : Bool

/-- Whether the two views of a field differ. -/
def fieldConverts (f : RawField) : Bool :=
  match f.unit with
  | some unit =>
      if unit ∈ ["rad", "rad/s", "Pa", "C"] then true
      else if unit = "K" then !f.signed.getD false
      else false
  | none => false

def baseView (f : RawField) : FieldView F where
  resolution := f.resolution.map Float64.ofRat
  unit := f.unit
  rangeMin := f.rangeMin.map Float64.ofRat
  rangeMax := f.rangeMax.map Float64.ofRat
  unitOffset := Float64.ofInt 0
  precision :=
    if f.physicalQuantity = some "GEOGRAPHICAL_LATITUDE" ∨
        f.physicalQuantity = some "GEOGRAPHICAL_LONGITUDE" then 7 else 0
  isDynamicLengthMarker := f.name = "Length"

/-- Resolution and range by a factor. -/
def FieldView.scale (v : FieldView F) (op : F → F) (unit : String) : FieldView F :=
  { v with
    resolution := v.resolution.map op
    rangeMin := v.rangeMin.map op
    rangeMax := v.rangeMax.map op
    unit := some unit }

/-- `f64::max`. -/
def maxF (x y : F) : F := if Float64.lt x y then y else x

def fieldView (f : RawField) (units : Units) : FieldView F :=
  let v : FieldView F := baseView f
  if units = .si then v
  else if f.unit = some "rad" then
    let v := v.scale (Float64.mul · radToDeg) "deg"
    { v with rangeMax := v.rangeMax.map (maxF · (Float64.ofInt 360)), precision := 1 }
  else if f.unit = some "rad/s" then v.scale (Float64.mul · radToDeg) "deg/s"
  else if f.unit = some "K" ∧ f.signed.getD false = false then
    { v with
      unitOffset := Float64.ofRat (-27315 / 100)
      rangeMin := v.rangeMin.map (Float64.sub · (Float64.ofRat (27315 / 100)))
      -- canboat's own 275.15
      rangeMax := v.rangeMax.map (Float64.sub · (Float64.ofRat (27515 / 100)))
      unit := some "C" }
  else if f.unit = some "Pa" then
    { v.scale (Float64.div · (Float64.ofInt 100000)) "bar" with precision := 3 }
  else if f.unit = some "C" then v.scale (Float64.div · (Float64.ofInt 3600)) "Ah"
  else v

def emitField (f : RawField) (v : FieldView F) : FieldInfo F where
  order := f.order
  id := f.id
  name := f.name
  bitLength := f.bitLength
  bitOffset := f.bitOffset
  resolution := v.resolution
  signed := f.signed
  offset := f.offset
  unknownValue := f.unknownValue
  outOfRangeValue := f.outOfRangeValue
  reservedValue := f.reservedValue
  unit := v.unit
  physicalQuantity := f.physicalQuantity
  fieldType := f.fieldType
  lookupEnumeration := f.lookupEnumeration
  lookupBitEnumeration := f.lookupBitEnumeration
  lookupIndirectEnumeration := f.lookupIndirectEnumeration
  lookupIndirectEnumerationFieldOrder := f.lookupIndirectEnumerationFieldOrder
  lookupFieldTypeEnumeration := f.lookupFieldTypeEnumeration
  matchValue := f.matchValue
  partOfPrimaryKey := f.partOfPrimaryKey
  condition := f.condition
  unitOffset := v.unitOffset
  precision := v.precision
  isDynamicLengthMarker := v.isDynamicLengthMarker

/-- A field in the units. -/
def RawField.info (f : RawField) (units : Units) : FieldInfo F := emitField f (fieldView f units)

def emitFieldArray (fields : List RawField) (units : Units) : List (FieldInfo F) :=
  fields.map (·.info units)

/-- Both schemas refer to one array where no field of the definition converts. -/
def fieldsOf (fields : List RawField) (units : Units) : List (FieldInfo F) :=
  if units = .metric ∧ fields.any fieldConverts then emitFieldArray fields .metric
  else emitFieldArray fields .si

theorem fieldView_of_not_converts {f : RawField} (h : fieldConverts f = false) (units : Units) :
    (fieldView f units : FieldView F) = baseView f := by
  rw [fieldConverts] at h
  cases units with
  | si => rfl
  | metric =>
      rw [fieldView, if_neg (by decide)]
      cases hunit : f.unit with
      | none => simp
      | some unit =>
          rw [hunit] at h
          simp only [List.mem_cons, List.not_mem_nil, or_false] at h
          split_ifs at h with hscaled hkelvin
          · have hsigned : f.signed.getD false = true := by simpa using h
            simp [hkelvin, hsigned]
          · simp only [not_or] at hscaled
            simp [hscaled, hkelvin]

/-- The shared array is the array of each. -/
theorem fieldsOf_eq (fields : List RawField) (units : Units) :
    (fieldsOf fields units : List (FieldInfo F)) = fields.map (·.info units) := by
  rw [fieldsOf]
  split_ifs with h
  · rw [h.1]
    rfl
  · cases units with
    | si => rfl
    | metric =>
        refine List.map_congr_left fun f hf => ?_
        have hnot : fieldConverts f = false := by
          by_contra hc
          exact h ⟨rfl, List.any_eq_true.mpr ⟨f, hf, by simpa using hc⟩⟩
        rw [RawField.info, RawField.info, fieldView_of_not_converts hnot,
          fieldView_of_not_converts hnot]

def emitPgn (p : RawPgn) (units : Units) : PgnInfo F where
  pgn := p.pgn
  id := p.id
  description := p.description
  packetType := p.packetType
  fallback := p.fallback
  priority := p.priority
  length := p.length
  fields := fieldsOf p.fields units
  repeatingFieldSet1 := p.repeatingFieldSet1
  repeatingFieldSet2 := p.repeatingFieldSet2
  idIsPinned := p.idIsPinned

/-! ## Field types -/

structure ComputedFt where
  signed : Bool
  precision : Precision
deriving DecidableEq, Repr

/-- The entry in practical units, whichever schema will hold it, and what is derived. -/
def computeFt (v : RawFieldTypeValue) : LookupFieldTypeValue F :=
  let emit (c : ComputedFt) (resolution : Option F) (unit : Option String) :
      LookupFieldTypeValue F :=
    { value := v.value, name := v.name, fieldType := v.fieldType, bits := v.bits.bind parseU32,
      resolution, unit, lookupEnumeration := v.lookupEnumeration, signed := c.signed,
      precision := c.precision }
  let resolution : Option F := v.resolution.map Float64.ofRat
  match v.unit with
  | none => emit ⟨false, 0⟩ resolution none
  | some unit =>
      let signed := unit ∈ ["rad", "rad/s", "deg", "deg/s"]
      if unit = "rad" then
        emit ⟨signed, 1⟩ (resolution.map (Float64.mul · radToDeg)) (some "deg")
      else if unit = "rad/s" then
        emit ⟨signed, 0⟩ (resolution.map (Float64.mul · radToDeg)) (some "deg/s")
      else if unit = "Pa" then
        emit ⟨signed, 3⟩ (resolution.map (Float64.div · (Float64.ofInt 100000))) (some "bar")
      else if unit = "C" then
        emit ⟨signed, 0⟩ (resolution.map (Float64.div · (Float64.ofInt 3600))) (some "Ah")
      else emit ⟨signed, 0⟩ resolution (some unit)

theorem computeFt_value (v : RawFieldTypeValue) : (computeFt v : LookupFieldTypeValue F).value =
    v.value := by
  rw [computeFt]
  cases v.unit with
  | none => rfl
  | some unit =>
      dsimp only
      split_ifs <;> rfl

def emitFtLookup (t : RawFieldTypeLookup) : LookupFieldTypeTable F where
  name := t.name
  values := t.values.map computeFt
  distinct := by
    rw [List.map_map, show (fun v : LookupFieldTypeValue F => v.value) ∘ computeFt =
      RawFieldTypeValue.value from funext computeFt_value]
    exact t.distinct

/-! ## The database -/

def embedded (j : CanboatJson) (units : Units) : PgnDatabase F where
  units := units
  pgns := j.pgns.map (emitPgn · units)
  lookups := j.lookups
  bitLookups := j.bitLookups
  indirectLookups := j.indirectLookups
  fieldTypeLookups := j.fieldTypeLookups.map emitFtLookup
  claimFlat := by
    intro p hp hpgn f hf t ht
    obtain ⟨r, hr, rfl⟩ := List.mem_map.mp hp
    rw [emitPgn, fieldsOf_eq] at hf
    obtain ⟨g, hg, rfl⟩ := List.mem_map.mp hf
    exact j.claimFlat r hr hpgn g hg t ht

end

end Canboat.Codegen
