import Canboat.Build.Schema
import Canboat.Core.Exact
import Canboat.Decode.Fields

/-!
# One value in two unit systems

What the two databases decode for a numeric field, with exact arithmetic.
-/

namespace Canboat

open Codegen

/-! ## Numbers with a unit -/

section

variable {F : Type} [Float64 F]

def FieldValue.asF64 : FieldValue F → Option F
  | .number v | .float v => some v
  | .integer v => some (Float64.ofInt v.toInt)
  | .time _ seconds => some seconds
  | .date d => some (Float64.ofInt d.toNat)
  | .mmsi v => some (Float64.ofInt v.toNat)
  | _ => none

omit [Float64 F] in
/-- The number of a lookup. -/
def FieldValue.lookupValue : FieldValue F → Option UInt64
  | .lookup value _ => some value
  | .bitField value _ => some value
  | _ => none

/-- A decoded number and its unit. -/
def DecodedField.reading (d : DecodedField F) : Option (F × Option String) :=
  d.value.asF64.map (·, d.unit)

/-- The unit that stands for another in practical use. -/
def practicalUnit (signed : Bool) (unit : String) : String :=
  if unit = "rad" then "deg"
  else if unit = "rad/s" then "deg/s"
  else if unit = "Pa" then "bar"
  else if unit = "C" then "Ah"
  else if unit = "K" ∧ signed = false then "C"
  else unit

/-- A number in SI units, in practical ones. -/
def practical (signed : Bool) (r : F × Option String) : Option (F × Option String) :=
  match r.2 with
  | none => some r
  | some unit =>
      (convertUnit r.1 unit (practicalUnit signed unit)).map (·, some (practicalUnit signed unit))

end

/-! ## Static fields -/

/-- The types of the fields that are numbers. -/
def numericTypes : List FieldType := [.number, .decimal, .fieldIndex, .float]

/-- The number that the payload has for the field, unless that is a mark for no value. -/
def rawNumber (f : RawField) (data : List UInt8) (bitOffset bitLength : UInt32) : Option ℤ :=
  let signed := if f.offset.getD 0 ≠ 0 then false else f.signed.getD false
  (extractBits data bitOffset.toNat bitLength.toNat signed 0).bind fun ex =>
    if classifySentinel ex f.unknownValue f.outOfRangeValue f.reservedValue = .none then
      some ex.value.toInt
    else none

def rawFloat (data : List UInt8) (bitOffset bitLength : UInt32) : Option Exact :=
  if bitLength ≠ 32 then none
  else (extractBits data bitOffset.toNat 32 false 0).map fun ex =>
    Float64.ofBits32 ex.value.toUInt64.toUInt32

def rawValue (f : RawField) (data : List UInt8) (bitOffset bitLength : UInt32) : Option Exact :=
  if f.fieldType = some .float then rawFloat data bitOffset bitLength
  else (rawNumber f data bitOffset bitLength).map fun n => Float64.ofInt n

/-- `raw * Resolution + Offset`. -/
def scaledRaw (f : RawField) (raw : Exact) : Exact :=
  Float64.add (Float64.mul raw (Exact.ofQ (f.resolution.getD 1)))
    (Float64.ofInt (f.offset.getD 0).toInt)

/-- What a database decodes for the field at a place of the payload. -/
def staticReading (j : CanboatJson) (units : Units) (p : RawPgn) (f : RawField)
    (data : List UInt8) (bitOffset : UInt32) (ctx : DecodeContext Exact) :
    Option (Exact × Option String) :=
  (decodeOneFieldAt (claimFields (embedded j units)) (f.info units) (emitPgn p units) data
    (embedded j units) bitOffset ctx).bind fun r => r.1.reading

/-- The SI database has the number and the unit of canboat.json, and the Metric database has
the same in practical units. -/
def StaticAgrees (j : CanboatJson) (p : RawPgn) (f : RawField) (data : List UInt8)
    (bitOffset bitLength : UInt32) (ctx : DecodeContext Exact) : Prop :=
  staticReading j .si p f data bitOffset ctx =
      (rawValue f data bitOffset bitLength).map (fun raw => (scaledRaw f raw, f.unit)) ∧
    staticReading j .metric p f data bitOffset ctx =
      (staticReading j .si p f data bitOffset ctx).bind (practical (f.signed.getD false))

/-- Units that a factor relates. -/
def scaledUnits : List String := ["rad", "rad/s", "Pa", "C"]

/-- A scaled number has a Resolution for its factor, and no Offset. A FLOAT is decoded without
Resolution, Offset and factor, so none of them may tell in its value. -/
def StaticFaithful (f : RawField) (raw : Exact) : Prop :=
  if f.fieldType = some .float then
    scaledRaw f raw = raw ∧ (fieldConverts f = true → raw = Exact.nan ∨
      raw = Exact.ofQ 0 ∧ ∃ unit ∈ scaledUnits, f.unit = some unit)
  else
    ∀ unit ∈ scaledUnits, f.unit = some unit →
      if f.resolution.isSome then f.offset.getD 0 = 0
      else Float64.add raw (Float64.ofInt (f.offset.getD 0).toInt) = Exact.ofQ 0

/-- The types that are decoded as a number. -/
def IsDecimal (f : RawField) : Prop :=
  f.fieldType = some .number ∨ f.fieldType = some .decimal ∨ f.fieldType = some .fieldIndex

/-- `raw * resolution + offset + unit_offset`. -/
def viewed (f : FieldInfo Exact) (n : ℤ) : Exact :=
  Float64.add
    (Float64.add (Float64.mul (Float64.ofInt n) (f.resolution.getD (Float64.ofInt 1)))
      (Float64.ofInt (f.offset.getD 0).toInt))
    f.unitOffset

theorem decodeNumber_asF64 (f : FieldInfo Exact) (data : List UInt8) (bitOffset bitLength : UInt32)
    (signed : Bool) :
    (decodeNumber f data bitOffset bitLength signed).asF64 =
      ((extractBits data bitOffset.toNat bitLength.toNat
        (if f.offset.getD 0 ≠ 0 then false else signed) 0).bind fun ex =>
          if classifySentinel ex f.unknownValue f.outOfRangeValue f.reservedValue = .none then
            some ex.value.toInt
          else none).map (viewed f) := by
  rw [decodeNumber]
  simp only [extracted]
  cases extractBits data bitOffset.toNat bitLength.toNat
    (if f.offset.getD 0 ≠ 0 then false else signed) 0 with
  | none => rfl
  | some ex =>
      simp only [Option.bind_some, sentinelFieldValue]
      cases classifySentinel ex f.unknownValue f.outOfRangeValue f.reservedValue with
      | none =>
          simp only [Option.getD_none, if_true, Option.map_some]
          split_ifs with hint
          · obtain ⟨hone, -, -, hzero, hoffset⟩ := hint
            simp only [Exact.ofInt_eq, Exact.beq_ofQ_iff] at hone hzero hoffset
            simp only [viewed, Exact.ofInt_eq, hone, hzero, hoffset]
            simp [FieldValue.asF64]
          · rfl
      | unknown => rfl
      | outOfRange => rfl
      | reserved => rfl

theorem radToDeg_eq : (radToDeg : Exact) = Exact.ofQ (180000000000000000 / 3141592653589793) := by
  rw [radToDeg, Exact.ofInt_eq, Exact.ofRat_eq, Exact.div_eq (by norm_num)]
  norm_num

/-- What the two views of a scaled field have to do with each other. -/
structure ScaledBy (f : RawField) (unit : String) (k : ℚ) : Prop where
  ne_one : k ≠ 1
  resolution : (fieldView f .metric : FieldView Exact).resolution =
    f.resolution.map fun r => Exact.ofQ (r * k)
  viewUnit : (fieldView f .metric : FieldView Exact).unit =
    some (practicalUnit (f.signed.getD false) unit)
  unitOffset : (fieldView f .metric : FieldView Exact).unitOffset = Exact.ofQ 0
  converts : fieldConverts f = true
  convert : ∀ v : Exact, convertUnit v unit (practicalUnit (f.signed.getD false) unit) =
    some (Float64.mul v (Exact.ofQ k))

theorem div_eq_mul (v : Exact) {k : ℚ} (hk : k ≠ 0) :
    Float64.div v (Exact.ofQ k) = Float64.mul v (Exact.ofQ (1 / k)) := by
  cases v with
  | nan => rfl
  | ofQ x => rw [Exact.div_eq hk, Exact.mul_eq, mul_one_div]

theorem exists_scaledBy {f : RawField} {unit : String} (hmem : unit ∈ scaledUnits)
    (hunit : f.unit = some unit) : ∃ k, ScaledBy f unit k := by
  simp only [scaledUnits, List.mem_cons, List.not_mem_nil, or_false] at hmem
  rcases hmem with rfl | rfl | rfl | rfl
  · refine ⟨180000000000000000 / 3141592653589793, by norm_num, ?_, ?_, ?_, ?_, fun v => ?_⟩
    · simp [fieldView, hunit, FieldView.scale, baseView, radToDeg_eq, Function.comp_def]
    · simp [fieldView, hunit, FieldView.scale, practicalUnit]
    · simp [fieldView, hunit, FieldView.scale, baseView]
    · simp [fieldConverts, hunit]
    · simp [convertUnit, practicalUnit, radToDeg_eq]
  · refine ⟨180000000000000000 / 3141592653589793, by norm_num, ?_, ?_, ?_, ?_, fun v => ?_⟩
    · simp [fieldView, hunit, FieldView.scale, baseView, radToDeg_eq, Function.comp_def]
    · simp [fieldView, hunit, FieldView.scale, practicalUnit]
    · simp [fieldView, hunit, FieldView.scale, baseView]
    · simp [fieldConverts, hunit]
    · simp [convertUnit, practicalUnit, radToDeg_eq]
  · refine ⟨1 / 100000, by norm_num, ?_, ?_, ?_, ?_, fun v => ?_⟩
    · simp [fieldView, hunit, FieldView.scale, baseView, div_eq_mul, Function.comp_def]
    · simp [fieldView, hunit, FieldView.scale, practicalUnit]
    · simp [fieldView, hunit, FieldView.scale, baseView]
    · simp [fieldConverts, hunit]
    · simp [convertUnit, practicalUnit, div_eq_mul]
  · refine ⟨1 / 3600, by norm_num, ?_, ?_, ?_, ?_, fun v => ?_⟩
    · simp [fieldView, hunit, FieldView.scale, baseView, div_eq_mul, Function.comp_def]
    · simp [fieldView, hunit, FieldView.scale, practicalUnit]
    · simp [fieldView, hunit, FieldView.scale, baseView]
    · simp [fieldConverts, hunit]
    · simp [convertUnit, practicalUnit, div_eq_mul]

section

variable (j : CanboatJson) (units : Units) (p : RawPgn) {f : RawField} (data : List UInt8)
  (bitOffset : UInt32) (ctx : DecodeContext Exact) {bitLength : UInt32}
  (hlength : f.bitLength = some bitLength)

include hlength

theorem staticReading_number (htype : IsDecimal f) :
    staticReading j units p f data bitOffset ctx =
      (rawNumber f data bitOffset bitLength).map fun n =>
        (viewed (f.info units) n, (fieldView f units : FieldView Exact).unit) := by
  have hinfo : (f.info units : FieldInfo Exact).fieldType = f.fieldType := rfl
  have hbits : (f.info units : FieldInfo Exact).bitLength = some bitLength := hlength
  have hsigned : (f.info units : FieldInfo Exact).signed = f.signed := rfl
  have hvalue := decodeNumber_asF64 (f.info units) data bitOffset bitLength (f.signed.getD false)
  have hread : staticReading j units p f data bitOffset ctx =
      (decodeNumber (f.info units) data bitOffset bitLength (f.signed.getD false)).asF64.map
        (·, (fieldView f units : FieldView Exact).unit) := by
    rw [staticReading, decodeOneFieldAt, decodeSelfContained]
    rcases htype with h | h | h
    all_goals
      rw [hinfo, h, if_neg (by decide), hbits]
      simp only [decodeFixed, hinfo, h, hsigned]
      rfl
  rw [hread, hvalue, Option.map_map]
  rfl

theorem staticReading_float (htype : f.fieldType = some .float) :
    staticReading j units p f data bitOffset ctx =
      (rawFloat data bitOffset bitLength).map
        (·, (fieldView f units : FieldView Exact).unit) := by
  have hinfo : (f.info units : FieldInfo Exact).fieldType = f.fieldType := rfl
  have hbits : (f.info units : FieldInfo Exact).bitLength = some bitLength := hlength
  have hvalue : (decodeFloat data bitOffset bitLength : FieldValue Exact).asF64 =
      rawFloat data bitOffset bitLength := by
    rw [decodeFloat, rawFloat]
    split_ifs
    · rfl
    · rw [extracted]
      cases hex : extractBits data bitOffset.toNat (32 : UInt32).toNat false 0 <;>
        simp [show extractBits data bitOffset.toNat 32 false 0 = _ from hex, FieldValue.asF64]
  rw [← hvalue, staticReading, decodeOneFieldAt, decodeSelfContained, hinfo, htype,
    if_neg (by decide), hbits]
  simp only [decodeFixed, hinfo, htype]
  rfl

end

/-- The units of a field, by what the build script does with them. -/
theorem fieldConverts_cases (f : RawField) :
    fieldConverts f = false ∨ (∃ unit ∈ scaledUnits, f.unit = some unit) ∨
      f.unit = some "K" ∧ f.signed.getD false = false := by
  rw [fieldConverts]
  cases f.unit with
  | none => exact .inl rfl
  | some unit =>
      by_cases hscaled : unit ∈ scaledUnits
      · exact .inr (.inl ⟨unit, hscaled, rfl⟩)
      · dsimp only
        split_ifs with hmem hkelvin
        · exact absurd hmem hscaled
        · cases hsigned : f.signed.getD false with
          | false => exact .inr (.inr ⟨congrArg some hkelvin, rfl⟩)
          | true => exact .inl rfl
        · exact .inl rfl

theorem fieldConverts_kelvin {f : RawField} (hunit : f.unit = some "K")
    (hsigned : f.signed.getD false = false) : fieldConverts f = true := by
  simp [fieldConverts, hunit, hsigned]

theorem practical_of_not_converts {f : RawField} (h : fieldConverts f = false) (v : Exact) :
    practical (f.signed.getD false) (v, f.unit) = some (v, f.unit) := by
  rw [practical]
  rw [fieldConverts] at h
  cases hunit : f.unit with
  | none => rfl
  | some unit =>
      rw [hunit] at h
      simp only [List.mem_cons, List.not_mem_nil, or_false] at h
      have hsame : practicalUnit (f.signed.getD false) unit = unit := by
        split_ifs at h with hscaled hkelvin
        · have hsigned : f.signed.getD false = true := by simpa using h
          simp [practicalUnit, hkelvin, hsigned]
        · simp only [not_or] at hscaled
          simp [practicalUnit, hscaled, hkelvin]
      dsimp only
      rw [hsame, convertUnit, if_pos rfl, Option.map_some]

theorem ScaledBy.practical_eq {f : RawField} {unit : String} {k : ℚ} (h : ScaledBy f unit k)
    (hunit : f.unit = some unit) (v : Exact) :
    practical (f.signed.getD false) (v, f.unit) =
      some (Float64.mul v (Exact.ofQ k), (fieldView f .metric : FieldView Exact).unit) := by
  rw [practical, hunit]
  dsimp only
  rw [h.convert, h.viewUnit, Option.map_some]

theorem practical_kelvin {f : RawField} (hunit : f.unit = some "K")
    (hsigned : f.signed.getD false = false) (v : Exact) :
    practical (f.signed.getD false) (v, f.unit) =
      some (Float64.sub v (Exact.ofQ (27315 / 100)), some "C") := by
  rw [practical, hunit, hsigned]
  rfl

theorem eq_mul_iff {k : ℚ} (hk : k ≠ 1) (x : ℚ) : x = x * k ↔ x = 0 := by
  constructor
  · intro h
    have hsub : x * (k - 1) = 0 := by rw [mul_sub, mul_one, ← h, sub_self]
    exact (mul_eq_zero.mp hsub).resolve_right (sub_ne_zero.mpr hk)
  · rintro rfl
    rw [zero_mul]

theorem baseView_resolution (f : RawField) :
    (baseView f : FieldView Exact).resolution.getD (Float64.ofInt 1) =
      Exact.ofQ (f.resolution.getD 1) := by
  rw [show (baseView f : FieldView Exact).resolution = f.resolution.map Float64.ofRat from rfl]
  cases f.resolution <;> simp

theorem baseView_unitOffset (f : RawField) :
    (baseView f : FieldView Exact).unitOffset = Exact.ofQ 0 := rfl

theorem viewed_eq {f : RawField} {units : Units} {resolution unitOffset : ℚ}
    (hres : (fieldView f units).resolution.getD (Float64.ofInt 1) = Exact.ofQ resolution)
    (hunitOffset : (fieldView f units).unitOffset = Exact.ofQ unitOffset) (n : ℤ) :
    viewed (f.info units) n =
      Exact.ofQ (n * resolution + (f.offset.getD 0).toInt + unitOffset) := by
  rw [viewed, show (f.info units : FieldInfo Exact).resolution = (fieldView f units).resolution
    from rfl, show (f.info units : FieldInfo Exact).unitOffset = (fieldView f units).unitOffset
    from rfl, hres, hunitOffset]
  rfl

theorem viewed_of_not_converts {f : RawField} {units : Units}
    (hview : (fieldView f units : FieldView Exact) = baseView f) (n : ℤ) :
    viewed (f.info units) n = scaledRaw f (Float64.ofInt n) := by
  rw [viewed_eq (by rw [hview]; exact baseView_resolution f)
    (by rw [hview]; exact baseView_unitOffset f), add_zero]
  rfl

/-- The metric number of a field is the SI number in practical units. -/
theorem metric_iff_faithful {f : RawField} (hfloat : f.fieldType ≠ some .float) (n : ℤ) :
    some (viewed (f.info .metric) n, (fieldView f .metric : FieldView Exact).unit) =
        practical (f.signed.getD false) (scaledRaw f (Float64.ofInt n), f.unit) ↔
      StaticFaithful f (Float64.ofInt n) := by
  have hscaledRaw : scaledRaw f (Float64.ofInt n) =
      Exact.ofQ (n * f.resolution.getD 1 + (f.offset.getD 0).toInt) := rfl
  rw [StaticFaithful, if_neg hfloat]
  rcases fieldConverts_cases f with hnot | ⟨unit, hmem, hunit⟩ | ⟨hunit, hsigned⟩
  · have hview := fieldView_of_not_converts (F := Exact) hnot .metric
    rw [viewed_of_not_converts hview, practical_of_not_converts hnot, hview]
    refine iff_of_true rfl fun unit hmem hunit => ?_
    obtain ⟨k, hk⟩ := exists_scaledBy hmem hunit
    exact absurd (hnot.symm.trans hk.converts) (by decide)
  · obtain ⟨k, hk⟩ := exists_scaledBy hmem hunit
    have hres : (fieldView f .metric : FieldView Exact).resolution.getD (Float64.ofInt 1) =
        Exact.ofQ ((f.resolution.map (· * k)).getD 1) := by
      rw [hk.resolution]
      cases f.resolution <;> simp
    rw [viewed_eq hres hk.unitOffset, hk.practical_eq hunit, hscaledRaw, Option.some_inj,
      Prod.mk.injEq, Exact.mul_eq, Exact.ofQ_inj, add_zero, and_iff_left rfl]
    trans if f.resolution.isSome then f.offset.getD 0 = 0
      else Float64.add (Float64.ofInt n) (Float64.ofInt (f.offset.getD 0).toInt) = Exact.ofQ 0
    · cases f.resolution with
      | some r =>
          have hzero : f.offset.getD 0 = 0 ↔ ((f.offset.getD 0).toInt : ℚ) = 0 := by
            rw [Int.cast_eq_zero, ← Int64.toInt_zero, Int64.toInt_inj]
          rw [Option.isSome_some, if_pos rfl, hzero, ← eq_mul_iff hk.ne_one]
          simp only [Option.map_some, Option.getD_some]
          rw [add_mul, mul_assoc, add_right_inj]
      | none =>
          simp only [Option.map_none, Option.getD_none, Option.isSome_none, mul_one,
            Bool.false_eq_true, if_false, Exact.ofInt_eq, Exact.add_eq, Exact.ofQ_inj]
          exact eq_mul_iff hk.ne_one _
    · exact ⟨fun h _ _ _ => h, fun h => h unit hmem hunit⟩
  · have hview : (fieldView f .metric : FieldView Exact).unitOffset = Exact.ofQ (-27315 / 100) ∧
        (fieldView f .metric : FieldView Exact).unit = some "C" ∧
        (fieldView f .metric : FieldView Exact).resolution = (baseView f).resolution := by
      simp [fieldView, hunit, hsigned]
    rw [viewed_eq (by rw [hview.2.2]; exact baseView_resolution f) hview.1,
      practical_kelvin hunit hsigned, hview.2.1, hscaledRaw, Exact.sub_eq]
    refine iff_of_true (by congr 3; ring) fun unit hmem hscaled => ?_
    rw [hunit, Option.some_inj] at hscaled
    subst hscaled
    exact absurd hmem (by decide)

section

variable (j : CanboatJson) (p : RawPgn) {f : RawField} (data : List UInt8) (bitOffset : UInt32)
  (ctx : DecodeContext Exact) {bitLength : UInt32} (hlength : f.bitLength = some bitLength)

include hlength

theorem float_iff_faithful (htype : f.fieldType = some .float) {raw : Exact}
    (hraw : rawFloat data bitOffset bitLength = some raw) :
    scaledRaw f raw = raw ∧ staticReading j .metric p f data bitOffset ctx =
        practical (f.signed.getD false) (raw, f.unit) ↔ StaticFaithful f raw := by
  rw [StaticFaithful, if_pos htype, staticReading_float j .metric p data bitOffset ctx hlength htype,
    hraw, Option.map_some]
  refine and_congr_right fun _ => ?_
  rcases fieldConverts_cases f with hnot | ⟨unit, hmem, hunit⟩ | ⟨hunit, hsigned⟩
  · rw [practical_of_not_converts hnot, fieldView_of_not_converts hnot]
    exact iff_of_true rfl fun h => absurd (hnot.symm.trans h) (by decide)
  · obtain ⟨k, hk⟩ := exists_scaledBy hmem hunit
    rw [hk.practical_eq hunit, Option.some_inj, Prod.mk.injEq, and_iff_left rfl]
    cases raw with
    | nan => exact iff_of_true rfl fun _ => .inl rfl
    | ofQ x =>
        rw [Exact.mul_eq, Exact.ofQ_inj, eq_mul_iff hk.ne_one]
        constructor
        · rintro rfl _
          exact .inr ⟨rfl, unit, hmem, hunit⟩
        · intro h
          obtain h | ⟨h, -⟩ := h hk.converts
          · exact absurd h (Exact.ofQ_ne_nan x)
          · exact Exact.ofQ_injective h
  · have hview : (fieldView f .metric : FieldView Exact).unit = some "C" := by
      simp [fieldView, hunit, hsigned]
    rw [practical_kelvin hunit hsigned, hview, Option.some_inj, Prod.mk.injEq, and_iff_left rfl]
    cases raw with
    | nan => exact iff_of_true rfl fun _ => .inl rfl
    | ofQ x =>
        rw [Exact.sub_eq, Exact.ofQ_inj]
        refine iff_of_false (by intro h; linarith) fun h => ?_
        obtain h | ⟨-, unit, hmem, hscaled⟩ := h (fieldConverts_kelvin hunit hsigned)
        · exact absurd h (Exact.ofQ_ne_nan x)
        · rw [hunit, Option.some_inj] at hscaled
          subst hscaled
          exact absurd hmem (by decide)

theorem staticAgrees_iff (htype : f.fieldType ∈ numericTypes.map some) :
    StaticAgrees j p f data bitOffset bitLength ctx ↔
      ∀ raw ∈ rawValue f data bitOffset bitLength, StaticFaithful f raw := by
  by_cases hfloat : f.fieldType = some .float
  · have hsi := staticReading_float j .si p data bitOffset ctx hlength hfloat
    have hmetric := staticReading_float j .metric p data bitOffset ctx hlength hfloat
    rw [StaticAgrees, rawValue, if_pos hfloat]
    cases hraw : rawFloat data bitOffset bitLength with
    | none =>
        rw [hsi, hmetric, hraw]
        exact iff_of_true ⟨rfl, rfl⟩ nofun
    | some raw =>
        have hiff := float_iff_faithful j p data bitOffset ctx hlength hfloat hraw
        rw [hsi, hraw]
        simp only [Option.map_some, Option.bind_some, Option.mem_some_iff, forall_eq',
          Option.some_inj, Prod.mk.injEq]
        rw [← hiff, eq_comm (a := raw)]
        exact and_congr_left' (and_iff_left rfl)
  · have hdecimal : IsDecimal f := by
      simp only [numericTypes, List.map_cons, List.map_nil, List.mem_cons, List.not_mem_nil,
        or_false] at htype
      rcases htype with h | h | h | h
      · exact .inl h
      · exact .inr (.inl h)
      · exact .inr (.inr h)
      · exact absurd h hfloat
    have hsi := staticReading_number j .si p data bitOffset ctx hlength hdecimal
    have hmetric := staticReading_number j .metric p data bitOffset ctx hlength hdecimal
    rw [StaticAgrees, rawValue, if_neg hfloat, hsi, hmetric]
    cases rawNumber f data bitOffset bitLength with
    | none => exact iff_of_true ⟨rfl, rfl⟩ nofun
    | some n =>
        simp only [Option.map_some, Option.bind_some, Option.mem_some_iff, forall_eq']
        rw [viewed_of_not_converts rfl]
        exact (and_iff_right rfl).trans (metric_iff_faithful hfloat n)

end

/-! ## Dynamic fields -/

/-- An entry as canboat.json has it; the build script does not read its `Signed`. -/
structure DeclaredFieldType extends RawFieldTypeValue where
  signed : Bool

def fieldTypeEntry (j : CanboatJson) (table : String) (key : UInt64) : Option RawFieldTypeValue :=
  (j.fieldTypeLookups.find? (·.name = table)).bind fun t => t.values.find? (·.value = key)

/-- The entry of the key in the payload. -/
def keyEntry (j : CanboatJson) (key : RawField) (data : List UInt8) (bitOffset : UInt32) :
    Option RawFieldTypeValue := do
  let bitLength ← key.bitLength
  let table ← key.lookupFieldTypeEnumeration
  let ex ← extractBits data bitOffset.toNat bitLength.toNat false 0
  fieldTypeEntry j table ex.raw

def IsNumberEntry (e : RawFieldTypeValue) : Prop :=
  ∃ ft, e.fieldType = some ft ∧
    (startsWith ft "NUMBER" ∨ startsWith ft "FIX" ∨ startsWith ft "UFIX")

/-- The width of the value, by the length before it or by the entry. -/
def valueBits (e : RawFieldTypeValue) (length : Option UInt32) : UInt32 :=
  ((length.map (· * 8)).or (e.bits.bind parseU32)).getD 0

def dynamicRaw (data : List UInt8) (bitOffset bits : UInt32) (signed : Bool) : Option ℤ :=
  (extractBits data bitOffset.toNat bits.toNat signed 0).bind fun ex =>
    if isUnavailable ex then none else some ex.value.toInt

/-- Whether the decoder takes the value of the entry for signed. -/
def readSigned (e : RawFieldTypeValue) : Bool :=
  (computeFt e : LookupFieldTypeValue Exact).signed ||
    (e.fieldType.map (startsWith · "FIX")).getD false

/-- `raw * Resolution`. -/
def scaledEntry (e : RawFieldTypeValue) (raw : ℤ) : Exact :=
  Float64.mul (Float64.ofInt raw) (Exact.ofQ (e.resolution.getD 1))

/-- What a database decodes for the key and the value at their places of the payload. -/
def dynamicReading (j : CanboatJson) (units : Units) (p : RawPgn) (key value : RawField)
    (data : List UInt8) (keyOffset valueOffset : UInt32) (length : Option UInt32)
    (ctx : DecodeContext Exact) : Option (Exact × Option String) := do
  let db := embedded j units
  let k ← decodeOneFieldAt (claimFields db) (key.info units) (emitPgn p units) data db keyOffset ctx
  let v ← decodeOneFieldAt (claimFields db) (value.info units) (emitPgn p units) data db valueOffset
    { k.2.2 with dynamicLengthBytes := length }
  v.1.reading

/-- As for a static field. -/
def DynamicAgrees (j : CanboatJson) (p : RawPgn) (key value : RawField) (data : List UInt8)
    (keyOffset valueOffset : UInt32) (length : Option UInt32) (ctx : DecodeContext Exact)
    (e : DeclaredFieldType) : Prop :=
  dynamicReading j .si p key value data keyOffset valueOffset length ctx =
      (dynamicRaw data valueOffset (valueBits e.toRawFieldTypeValue length) e.signed).map
        (fun raw => (scaledEntry e.toRawFieldTypeValue raw, e.unit)) ∧
    dynamicReading j .metric p key value data keyOffset valueOffset length ctx =
      (dynamicReading j .si p key value data keyOffset valueOffset length ctx).bind
        (practical e.signed)

/-- The sign that the decoder takes makes no difference for the payload, and the unit is none
that would have two views. -/
def DynamicFaithful (e : DeclaredFieldType) (data : List UInt8) (bitOffset bits : UInt32) : Prop :=
  let read := dynamicRaw data bitOffset bits (readSigned e.toRawFieldTypeValue)
  let declared := dynamicRaw data bitOffset bits e.signed
  (read = declared ∨ read.isSome ∧ declared.isSome ∧ e.resolution = some 0) ∧
    (declared.isSome → (∀ unit ∈ scaledUnits, e.unit ≠ some unit) ∧
      (e.unit = some "K" → e.signed = true))

theorem fieldTypeLookup_embedded (j : CanboatJson) (units : Units) (table : String) (key : UInt64) :
    (embedded j units : PgnDatabase Exact).fieldTypeLookup table key =
      (fieldTypeEntry j table key).map computeFt := by
  rw [PgnDatabase.fieldTypeLookup, fieldTypeEntry, Option.map_bind,
    show (embedded j units : PgnDatabase Exact).fieldTypeLookups =
      j.fieldTypeLookups.map emitFtLookup from rfl, List.find?_map, Option.bind_map]
  refine congrArg₂ Option.bind rfl (funext fun t => ?_)
  rw [Function.comp_apply, Function.comp_apply, LookupFieldTypeTable.get,
    show (emitFtLookup t : LookupFieldTypeTable Exact).values = t.values.map computeFt from rfl,
    List.find?_map]
  simp only [Function.comp_def, computeFt_value]

theorem note_dynamicFieldType {F : Type} [Float64 F] (ctx : DecodeContext F) (f : FieldInfo F)
    (value : FieldValue F) : (ctx.note f value).dynamicFieldType = ctx.dynamicFieldType := by
  cases value <;> simp only [DecodeContext.note] <;> split_ifs <;> rfl

theorem computeFt_fieldType (e : RawFieldTypeValue) :
    (computeFt e : LookupFieldTypeValue Exact).fieldType = e.fieldType ∧
      (computeFt e : LookupFieldTypeValue Exact).bits = e.bits.bind parseU32 := by
  rw [computeFt]
  cases e.unit with
  | none => exact ⟨rfl, rfl⟩
  | some unit =>
      dsimp only
      split_ifs <;> exact ⟨rfl, rfl⟩

theorem computeFt_resolution (e : RawFieldTypeValue) (hunit : ∀ unit ∈ scaledUnits, e.unit ≠ some unit) :
    (computeFt e : LookupFieldTypeValue Exact).resolution = e.resolution.map Float64.ofRat ∧
      (computeFt e : LookupFieldTypeValue Exact).unit = e.unit := by
  rw [computeFt]
  cases h : e.unit with
  | none => exact ⟨rfl, rfl⟩
  | some unit =>
      have hnot : unit ∉ scaledUnits := fun hmem => hunit unit hmem h
      simp only [scaledUnits, List.mem_cons, List.not_mem_nil, or_false, not_or] at hnot
      simp [hnot]

theorem computeFt_unit_of_scaled (e : RawFieldTypeValue) {unit : String} (hmem : unit ∈ scaledUnits)
    (hunit : e.unit = some unit) :
    (computeFt e : LookupFieldTypeValue Exact).unit ≠ some unit := by
  rw [computeFt, hunit]
  simp only [scaledUnits, List.mem_cons, List.not_mem_nil, or_false] at hmem
  rcases hmem with rfl | rfl | rfl | rfl <;> simp

section

variable (j : CanboatJson) (units : Units) (p : RawPgn) (data : List UInt8) (ctx : DecodeContext Exact)

/-- After the key, the context holds its entry. -/
theorem decode_key {key : RawField} (htype : key.fieldType = some .dynamicFieldKey)
    (keyOffset : UInt32) {e : RawFieldTypeValue} (hentry : keyEntry j key data keyOffset = some e) :
    ∃ d bits ctx', decodeOneFieldAt (claimFields (embedded j units)) (key.info units)
        (emitPgn p units) data (embedded j units) keyOffset ctx = some (d, bits, ctx') ∧
      ctx'.dynamicFieldType = some (computeFt e) := by
  simp only [keyEntry, Option.bind_eq_bind, Option.bind_eq_some_iff] at hentry
  obtain ⟨bitLength, hlength, table, htable, ex, hex, hentry⟩ := hentry
  have hinfo : (key.info units : FieldInfo Exact).fieldType = some .dynamicFieldKey := htype
  have hbits : (key.info units : FieldInfo Exact).bitLength = some bitLength := hlength
  have hlookup : (key.info units : FieldInfo Exact).lookupFieldTypeEnumeration = some table := htable
  rw [decodeOneFieldAt, hinfo, if_neg (by decide), decodeSelfContained, hinfo, hbits]
  refine ⟨_, _, _, rfl, ?_⟩
  rw [note_dynamicFieldType]
  simp only [hinfo]
  rw [decodeDynamicFieldKey, hex]
  dsimp only
  rw [hlookup, Option.bind_some, fieldTypeLookup_embedded, hentry, Option.map_some]

theorem decodeDynamicNumber_asF64 (bitOffset bits : UInt32) (signed : Bool)
    (entry : LookupFieldTypeValue Exact) :
    (decodeDynamicNumber data bitOffset bits signed entry).asF64 =
      (dynamicRaw data bitOffset bits signed).map fun raw : ℤ =>
        Float64.mul (Float64.ofInt raw) (entry.resolution.getD (Float64.ofInt 1)) := by
  rw [decodeDynamicNumber, extracted, dynamicRaw]
  cases extractBits data bitOffset.toNat bits.toNat signed 0 with
  | none => rfl
  | some ex =>
      dsimp only [Option.bind_some]
      split_ifs with hnone hint
      · rfl
      · rw [FieldValue.asF64, Option.map_some, (Exact.beq_ofQ_iff (y := (1 : ℤ))).mp hint.1,
          Exact.ofInt_eq, Exact.mul_eq, Int.cast_one, mul_one]
      · rfl

theorem decode_value {value : RawField} (htype : value.fieldType = some .dynamicFieldValue)
    (hunit : value.unit = none) (valueOffset : UInt32) {e : RawFieldTypeValue}
    (hnumber : IsNumberEntry e) (hctx : ctx.dynamicFieldType = some (computeFt e)) :
    ((decodeOneFieldAt (claimFields (embedded j units)) (value.info units) (emitPgn p units) data
        (embedded j units) valueOffset ctx).bind fun r => r.1.reading) =
      (dynamicRaw data valueOffset (valueBits e ctx.dynamicLengthBytes) (readSigned e)).map
        fun raw : ℤ =>
          (Float64.mul (Float64.ofInt raw)
            ((computeFt e : LookupFieldTypeValue Exact).resolution.getD (Float64.ofInt 1)),
            (computeFt e : LookupFieldTypeValue Exact).unit) := by
  have hinfo : (value.info units : FieldInfo Exact).fieldType = some .dynamicFieldValue := htype
  obtain ⟨ft, hft, hstarts⟩ := hnumber
  have hentryType : (computeFt e : LookupFieldTypeValue Exact).fieldType = some ft :=
    (computeFt_fieldType e).1.trans hft
  have hbits : ((ctx.dynamicLengthBytes.map (· * 8)).or
      (ctx.dynamicFieldType.bind (·.bits))).getD 0 = valueBits e ctx.dynamicLengthBytes := by
    rw [hctx, Option.bind_some, (computeFt_fieldType e).2]
    rfl
  have hsigned : ((computeFt e : LookupFieldTypeValue Exact).signed || startsWith ft "FIX") =
      readSigned e := by
    rw [readSigned, hft]
    rfl
  have hvalue : decodeDynamicFieldValue (claimFields (embedded j units)) data valueOffset
      (embedded j units) ctx =
      (decodeDynamicNumber data valueOffset (valueBits e ctx.dynamicLengthBytes) (readSigned e)
        (computeFt e), valueBits e ctx.dynamicLengthBytes) := by
    simp only [decodeDynamicFieldValue, hbits]
    rw [hctx]
    simp only [decodeDynamicValue, hentryType, if_pos hstarts, hsigned]
  have hunits : (value.info units : FieldInfo Exact).unit = none := by
    have hnot : fieldConverts value = false := by rw [fieldConverts, hunit]
    rw [RawField.info, fieldView_of_not_converts hnot]
    exact hunit
  rw [decodeOneFieldAt, hinfo, if_neg (by decide), decodeSelfContained, hinfo]
  dsimp only
  rw [hvalue, hctx, Option.bind_some, DecodedField.reading, DecodedField.unit]
  dsimp only [DecodedField.single, Option.map_some, Option.bind_some]
  rw [decodeDynamicNumber_asF64, Option.map_map, hunits, Option.or_none]
  rfl

theorem dynamicReading_eq {key value : RawField} (hkey : key.fieldType = some .dynamicFieldKey)
    (htype : value.fieldType = some .dynamicFieldValue) (hunit : value.unit = none)
    (keyOffset valueOffset : UInt32) (length : Option UInt32) {e : RawFieldTypeValue}
    (hentry : keyEntry j key data keyOffset = some e) (hnumber : IsNumberEntry e) :
    dynamicReading j units p key value data keyOffset valueOffset length ctx =
      (dynamicRaw data valueOffset (valueBits e length) (readSigned e)).map fun raw : ℤ =>
        (Float64.mul (Float64.ofInt raw)
          ((computeFt e : LookupFieldTypeValue Exact).resolution.getD (Float64.ofInt 1)),
          (computeFt e : LookupFieldTypeValue Exact).unit) := by
  obtain ⟨d, bits, ctx', hdecode, hctx⟩ := decode_key j units p data ctx hkey keyOffset hentry
  rw [dynamicReading, hdecode]
  exact decode_value j units p data { ctx' with dynamicLengthBytes := length } htype hunit
    valueOffset hnumber hctx

/-- A reading of the entry is of one unit, whichever database made it. -/
theorem practical_iff {e : DeclaredFieldType} (hscaled : ∀ unit ∈ scaledUnits, e.unit ≠ some unit)
    (v : Exact) :
    some (v, e.unit) = practical e.signed (v, e.unit) ↔ (e.unit = some "K" → e.signed = true) := by
  cases hunit : e.unit with
  | none => exact iff_of_true rfl nofun
  | some unit =>
      have hnot : unit ∉ scaledUnits := fun hmem => hscaled unit hmem hunit
      simp only [scaledUnits, List.mem_cons, List.not_mem_nil, or_false, not_or] at hnot
      rw [practical]
      by_cases hkelvin : unit = "K" ∧ e.signed = false
      · obtain ⟨rfl, hsigned⟩ := hkelvin
        rw [hsigned]
        refine iff_of_false (fun h => ?_) (by simp)
        have hunits := congrArg (fun r => r.bind (·.2)) h
        exact absurd hunits (by simp [practicalUnit, convertUnit])
      · have hsame : practicalUnit e.signed unit = unit := by simp [practicalUnit, hnot, hkelvin]
        dsimp only
        rw [hsame, convertUnit, if_pos rfl]
        refine iff_of_true rfl fun h => ?_
        have hsigned : e.signed ≠ false := fun hs => hkelvin ⟨Option.some_inj.mp h, hs⟩
        simpa using hsigned

theorem scaledEntry_eq_iff (e : RawFieldTypeValue) (n m : ℤ) :
    scaledEntry e n = scaledEntry e m ↔ n = m ∨ e.resolution = some 0 := by
  rw [scaledEntry, scaledEntry, Exact.ofInt_eq, Exact.ofInt_eq, Exact.mul_eq, Exact.mul_eq,
    Exact.ofQ_inj, mul_eq_mul_right_iff, Int.cast_inj]
  refine or_congr_right ?_
  cases e.resolution with
  | none => simp
  | some r => simp

theorem dynamicAgrees_iff {key value : RawField} (hkey : key.fieldType = some .dynamicFieldKey)
    (htype : value.fieldType = some .dynamicFieldValue) (hunit : value.unit = none)
    (keyOffset valueOffset : UInt32) (length : Option UInt32) {e : DeclaredFieldType}
    (hentry : keyEntry j key data keyOffset = some e.toRawFieldTypeValue)
    (hnumber : IsNumberEntry e.toRawFieldTypeValue) :
    DynamicAgrees j p key value data keyOffset valueOffset length ctx e ↔
      DynamicFaithful e data valueOffset (valueBits e.toRawFieldTypeValue length) := by
  have hreading := fun units => dynamicReading_eq j units p data ctx hkey htype hunit keyOffset
    valueOffset length hentry hnumber
  rw [DynamicAgrees, DynamicFaithful, hreading .si, hreading .metric]
  cases dynamicRaw data valueOffset (valueBits e.toRawFieldTypeValue length) e.signed with
  | none =>
      cases dynamicRaw data valueOffset (valueBits e.toRawFieldTypeValue length)
          (readSigned e.toRawFieldTypeValue) with
      | none => simp
      | some n => simp
  | some m =>
      cases dynamicRaw data valueOffset (valueBits e.toRawFieldTypeValue length)
          (readSigned e.toRawFieldTypeValue) with
      | none => simp
      | some n =>
          simp only [Option.map_some, Option.bind_some, Option.some_inj, Option.isSome_some,
            true_and, forall_const, Prod.mk.injEq]
          by_cases hscaled : ∀ unit ∈ scaledUnits, e.unit ≠ some unit
          · obtain ⟨hres, hsame⟩ := computeFt_resolution e.toRawFieldTypeValue hscaled
            have hmul : Float64.mul (Float64.ofInt n) ((computeFt e.toRawFieldTypeValue :
                LookupFieldTypeValue Exact).resolution.getD (Float64.ofInt 1)) =
                scaledEntry e.toRawFieldTypeValue n := by
              rw [hres, scaledEntry]
              cases e.resolution <;> simp
            rw [hmul, hsame, practical_iff hscaled, scaledEntry_eq_iff, and_iff_left rfl,
              and_iff_right hscaled]
          · refine iff_of_false (fun h => hscaled ?_) (fun h => hscaled h.2.1)
            intro unit hmem hunits
            exact computeFt_unit_of_scaled e.toRawFieldTypeValue hmem hunits (h.1.2.trans hunits)

end

/-! ## Both kinds of field -/

/-- When the two databases describe one value: for a static field, where the factor of its unit
reaches the whole value; for a dynamic one, where its entry has no second view and its sign shows
no difference. -/
theorem units_agree_iff (j : CanboatJson) {p : RawPgn} (hp : p ∈ j.pgns) :
    (∀ f ∈ p.fields, f.fieldType ∈ numericTypes.map some → ∀ bitLength ∈ f.bitLength,
      ∀ data bitOffset ctx, StaticAgrees j p f data bitOffset bitLength ctx ↔
        ∀ raw ∈ rawValue f data bitOffset bitLength, StaticFaithful f raw) ∧
    (∀ key ∈ p.fields, ∀ value ∈ p.fields, key.fieldType = some .dynamicFieldKey →
      value.fieldType = some .dynamicFieldValue → ∀ data keyOffset valueOffset length ctx,
      ∀ e : DeclaredFieldType, keyEntry j key data keyOffset = some e.toRawFieldTypeValue →
        IsNumberEntry e.toRawFieldTypeValue →
        (DynamicAgrees j p key value data keyOffset valueOffset length ctx e ↔
          DynamicFaithful e data valueOffset (valueBits e.toRawFieldTypeValue length))) := by
  refine ⟨fun f _ htype bitLength hlength data bitOffset ctx =>
    staticAgrees_iff j p data bitOffset ctx hlength htype, ?_⟩
  intro key _ value hvalue hkey htype data keyOffset valueOffset length ctx e hentry hnumber
  exact dynamicAgrees_iff j p data ctx hkey htype (j.dynamicUnitless p hp value hvalue htype)
    keyOffset valueOffset length hentry hnumber

/-! ### Heading and rudder angle -/

/-- A field with nothing said of it but its type; small definitions are written from it. -/
def typedField (order : UInt8) (id : Identifier) (type : FieldType) : RawField where
  order := order
  id := id
  name := id.val
  bitLength := none
  bitOffset := none
  resolution := none
  signed := none
  offset := none
  rangeMin := none
  rangeMax := none
  unknownValue := none
  outOfRangeValue := none
  reservedValue := none
  unit := none
  physicalQuantity := none
  fieldType := some type
  lookupEnumeration := none
  lookupBitEnumeration := none
  lookupIndirectEnumeration := none
  lookupIndirectEnumerationFieldOrder := none
  lookupFieldTypeEnumeration := none
  matchValue := none
  partOfPrimaryKey := none
  condition := none

def headingField : RawField :=
  { (typedField 2 ⟨"heading", by decide⟩ .number) with
    bitLength := some 16
    bitOffset := some 8
    resolution := some (1 / 10000)
    unknownValue := some 65535
    outOfRangeValue := some 65534
    reservedValue := some 65533
    unit := some "rad" }

def keyField : RawField :=
  { (typedField 4 ⟨"key", by decide⟩ .dynamicFieldKey) with
    bitLength := some 12
    bitOffset := some 16
    lookupFieldTypeEnumeration := some "BANDG_KEY_VALUE" }

def valueField : RawField :=
  { (typedField 6 ⟨"value", by decide⟩ .dynamicFieldValue) with bitOffset := some 32 }

def instrumentPgn : RawPgn where
  pgn := 130824
  id := ⟨"bGKeyValueData", by decide⟩
  description := "B&G: key-value data"
  packetType := .fast
  fallback := none
  priority := some 2
  length := none
  fields := [headingField, keyField, valueField]
  repeatingFieldSet1 := .none
  repeatingFieldSet2 := .none
  idIsPinned := false

def rudderAngle : DeclaredFieldType where
  value := 11
  name := "Rudder Angle"
  fieldType := some "NUMBER"
  bits := some ['1', '6']
  resolution := some (1 / 10000)
  unit := some "rad"
  lookupEnumeration := none
  signed := true

def windSpeedTrue : DeclaredFieldType where
  value := 79
  name := "Wind Speed True"
  fieldType := some "NUMBER"
  bits := some ['1', '6']
  resolution := some (1 / 100)
  unit := some "m/s"
  lookupEnumeration := none
  signed := false

def instrumentJson : CanboatJson where
  pgns := [instrumentPgn]
  lookups := []
  bitLookups := []
  indirectLookups := []
  fieldTypeLookups :=
    [⟨"BANDG_KEY_VALUE", [rudderAngle.toRawFieldTypeValue, windSpeedTrue.toRawFieldTypeValue],
      by decide⟩]
  claimFlat := by simp [instrumentPgn]
  dynamicUnitless := by simp [instrumentPgn, headingField, keyField, valueField, typedField]

/-- The payload of a key with a value of two bytes. -/
def instrumentData (key low high : UInt8) : List UInt8 := [0x7d, 0x99, key, 0x20, low, high]

theorem units_agree_instruments :
    (∀ data ctx, StaticAgrees instrumentJson instrumentPgn headingField data 8 16 ctx) ∧
    ∀ ctx, DynamicAgrees instrumentJson instrumentPgn keyField valueField
      (instrumentData 79 0x10 0x27) 16 32 (some 2) ctx windSpeedTrue := by
  have hmem : instrumentPgn ∈ instrumentJson.pgns := List.mem_singleton_self _
  obtain ⟨hstatic, hdynamic⟩ := units_agree_iff instrumentJson hmem
  refine ⟨fun data ctx => ?_, fun ctx => ?_⟩
  · refine (hstatic headingField (by simp [instrumentPgn]) (by decide) 16 rfl data 8 ctx).mpr ?_
    intro raw _
    rw [StaticFaithful, if_neg (by decide)]
    exact fun unit _ _ => rfl
  · refine (hdynamic keyField (by simp [instrumentPgn]) valueField (by simp [instrumentPgn]) rfl rfl
      (instrumentData 79 0x10 0x27) 16 32 (some 2) ctx windSpeedTrue rfl
      ⟨"NUMBER", rfl, .inl (by decide)⟩).mpr ?_
    refine ⟨.inl (by decide), fun _ => ⟨by decide, nofun⟩⟩

/-- The SI database has no angle in radians for the key. -/
theorem not_units_agree_rudderAngle :
    keyEntry instrumentJson keyField (instrumentData 11 0x10 0x27) 16 =
        some rudderAngle.toRawFieldTypeValue ∧
      ¬DynamicAgrees instrumentJson instrumentPgn keyField valueField
        (instrumentData 11 0x10 0x27) 16 32 (some 2) .empty rudderAngle := by
  refine ⟨rfl, fun h => ?_⟩
  rw [dynamicAgrees_iff instrumentJson instrumentPgn (instrumentData 11 0x10 0x27) .empty rfl rfl rfl
    16 32 (some 2) rfl ⟨"NUMBER", rfl, .inl (by decide)⟩] at h
  exact (h.2 (by decide)).1 "rad" (by decide) rfl

end Canboat
