import Canboat.Decode.Shapes
import Canboat.Decode.Units
import Canboat.Input.Spelling
import Canboat.Input.Styles

/-!
# What a line preserves

The fields outside the repeating sets, written and read back: a converter reads the same of
them, but for what the text of a number, of a string and of a field index leaves out.
-/

namespace Canboat

open Json AnalyzerJson
open Binary64 (digits paddedDigits)

/-! ## What a converter reads -/

section

variable {F : Type}

def FieldValue.stringContent : FieldValue F → Option (List Char)
  | .string s => some s
  | _ => none

end

/-- A time that is written as whole seconds. -/
def DecodedField.WholeSeconds (f : DecodedField Binary64) : Prop :=
  (∃ raw seconds, f.value = .time raw seconds) ∧
    (f.info.resolution.map fun r => Float64.le (Float64.ofInt 1) r) = some true

/-- Decimal places of the field's numbers. -/
def DecodedField.places (f : DecodedField Binary64) : ℕ :=
  effectivePrecision f.precision f.resolution

/-- What is read back is what was written, as far as the text has it. -/
structure ReadsBack (f : DecodedField Binary64) (v : FieldValue Binary64) : Prop where
  /-- A number is the one that is printed. -/
  float : f.info.fieldType ≠ some .fieldIndex → ¬f.WholeSeconds →
    Option.Rel (Within f.places) f.value.asF64 v.asF64
  integer : (∀ x, f.value ≠ .number x) → ¬f.WholeSeconds → v.asI64 = f.value.asI64
  seconds : f.WholeSeconds → ∃ x, f.value.asF64 = some x ∧
    v.asI64 = some (Float64.toI64 x) ∧ v.asF64 = some (Float64.ofInt (Float64.toI64 x).toInt)
  /-- A field index is read as a lookup. -/
  lookup : f.info.fieldType ≠ some .fieldIndex → v.lookupValue = f.value.lookupValue
  /-- A string keeps its escapes. -/
  string : v.stringContent = f.value.stringContent.map fun s => s.flatMap (escape true)

/-- The reader takes an integer or a lookup's number where the decoder keeps one. -/
structure Recoverable (db : PgnDatabase Binary64) (f : DecodedField Binary64) : Prop where
  read : f.info.isRead = true
  type : f.info.fieldType ≠ some .bitLookup ∧ f.info.fieldType ≠ some .variable
  integers : f.info.fieldType ∈ [some .number, some .decimal, some .fieldIndex] →
    f.info.fieldType = some .fieldIndex ∨ isIntegerField f.info = true → f.info.Unscaled
  numbers : ∀ raw name, f.value = .lookup raw name → raw.toNat < 9223372036854775808
  names : PlainNames f.value
  /-- No name of a lookup is a word for the lack of one. -/
  words : ∀ word ∈ ["null", "Reserved", "Out Of Range"],
    resolveLookupName db f.info word.toList = none

/-! ## One value -/

theorem within_refl (places : ℕ) (o : Option Binary64) : Option.Rel (Within places) o o := by
  cases o with
  | none => exact .none
  | some x => exact .some (Within.refl places x)

/-- A value of which a converter reads the same. -/
theorem ReadsBack.of_eq {f : DecodedField Binary64} {v : FieldValue Binary64}
    (hseconds : ¬f.WholeSeconds)
    (hfloat : f.info.fieldType ≠ some .fieldIndex → v.asF64 = f.value.asF64)
    (hint : v.asI64 = f.value.asI64)
    (hlookup : f.info.fieldType ≠ some .fieldIndex → v.lookupValue = f.value.lookupValue)
    (hstring : f.value.stringContent = none) (hstring' : v.stringContent = none) :
    ReadsBack f v where
  float hne _ := by
    rw [hfloat hne]
    exact within_refl _ _
  integer _ _ := hint
  seconds h := absurd h hseconds
  lookup := hlookup
  string := by rw [hstring, hstring', Option.map_none]

theorem not_wholeSeconds {f : DecodedField Binary64}
    (h : ∀ raw seconds, f.value ≠ .time raw seconds) : ¬f.WholeSeconds := by
  rintro ⟨⟨raw, seconds, hv⟩, -⟩
  exact h raw seconds hv

theorem ofNat_toUInt64 (v : UInt64) : (Int64.ofNat v.toNat).toUInt64 = v := by
  apply UInt64.toBitVec_inj.mp
  simp

theorem ofNat_toUInt16 (v : UInt16) : (Int64.ofNat v.toNat).toUInt64.toUInt16 = v := by
  apply UInt16.toBitVec_inj.mp
  simp

theorem isIntegerField_of_unscaled {fi : FieldInfo Binary64} (h : fi.Unscaled) :
    isIntegerField fi = true := by
  obtain ⟨hres, hunit, -⟩ := h
  rw [isIntegerField, hunit]
  cases hr : fi.resolution with
  | none => rfl
  | some r =>
      rw [hr] at hres
      exact Bool.and_eq_true_iff.mpr ⟨hres, rfl⟩

/-! ### By the type of the field -/

section

variable {fi : FieldInfo Binary64} {line : List Char} {db : PgnDatabase Binary64} {useCamel : Bool}

theorem fromJson_number (htype : fi.fieldType ∈ [some .number, some .decimal]) :
    fieldValueFromJson line fi db useCamel =
      if isIntegerField fi then (int line (fieldKey useCamel fi)).map .integer
      else (number line (fieldKey useCamel fi)).map .number := by
  simp only [List.mem_cons, List.not_mem_nil, or_false] at htype
  rcases htype with h | h
  · simp only [fieldValueFromJson, h]
  · simp only [fieldValueFromJson, h]

theorem fromJson_lookup (htype : fi.fieldType ∈ [some .lookup, some .bitLookup,
      some .indirectLookup, some .dynamicFieldKey, some .fieldIndex]) :
    fieldValueFromJson line fi db useCamel =
      ((int line (fieldKey useCamel fi)).map fun v => .lookup v.toUInt64 none).or
        ((value line (fieldKey useCamel fi)).bind fun text =>
          (resolveLookupName db fi text).map fun v => .lookup v none) := by
  have hread : fieldValueFromJson line fi db useCamel =
      ((lookupInt line (fieldKey useCamel fi)).map fun v => .lookup v.toUInt64 none).or
        ((value line (fieldKey useCamel fi)).bind fun text =>
          (resolveLookupName db fi text).bind fun v => some (.lookup v none)) := by
    simp only [List.mem_cons, List.not_mem_nil, or_false] at htype
    rcases htype with h | h | h | h | h
    all_goals
      simp only [fieldValueFromJson, h]
      cases lookupInt line (fieldKey useCamel fi) <;> rfl
  rw [hread, lookupInt_eq_int]
  simp only [Option.map_eq_bind]
  rfl

theorem fromJson_time (htype : fi.fieldType ∈ [some .time, some .duration]) :
    fieldValueFromJson line fi db useCamel =
      (int line (fieldKey useCamel fi)).map fun v =>
        .time v (if Float64.le (Float64.ofInt 1) (fi.resolution.getD (Float64.ofInt 1)) then
          Float64.ofInt v.toInt
        else Float64.mul (Float64.ofInt v.toInt) (fi.resolution.getD (Float64.ofInt 1))) := by
  simp only [List.mem_cons, List.not_mem_nil, or_false] at htype
  rcases htype with h | h
  · simp only [fieldValueFromJson, h, nestedOrBareInt, lookupInt_eq_int, Option.or_self]
  · simp only [fieldValueFromJson, h, nestedOrBareInt, lookupInt_eq_int, Option.or_self]

theorem fromJson_text (htype : fi.IsText) :
    fieldValueFromJson line fi db useCamel =
      (value line (fieldKey useCamel fi)).map .string := by
  simp only [FieldInfo.IsText, List.mem_cons, List.not_mem_nil, or_false] at htype
  rcases htype with h | h | h
  all_goals simp only [fieldValueFromJson, h]

end

/-- Without a resolution of a second or more, the reader takes the same seconds. -/
theorem seconds_of_not_whole {resolution : Option Binary64}
    (h : (resolution.map fun r => Float64.le (Float64.ofInt 1) r) ≠ some true) (n : ℤ) :
    (if Float64.le (Float64.ofInt 1) (resolution.getD (Float64.ofInt 1)) then Float64.ofInt n
      else Float64.mul (Float64.ofInt n) (resolution.getD (Float64.ofInt 1))) =
      Float64.mul (Float64.ofInt n) (resolution.getD (Float64.ofInt 1)) := by
  cases resolution with
  | none =>
      have hone : Float64.mul (Float64.ofInt n) (Float64.ofInt 1 : Binary64) = Float64.ofInt n :=
        Binary64.mul_one _
      rw [Option.getD_none, hone, ite_self]
  | some r =>
      rw [Option.map_some] at h
      rw [Option.getD_some, if_neg fun hle => h (congrArg some hle)]

theorem not_other {fi : FieldInfo Binary64} (hread : fi.isRead = true) :
    fi.fieldType ∉ [some .reserved, some .spare, some .binary, some .isoName,
      some .dynamicFieldLength, some .dynamicFieldValue] := by
  intro h
  simp only [List.mem_cons, List.not_mem_nil, or_false] at h
  rcases h with h | h | h | h | h | h
  all_goals
    rw [FieldInfo.isRead, h] at hread
    cases hread

section

variable {includeEmpty : Bool} {style : CamelCase} {db : PgnDatabase Binary64}
  {f : DecodedField Binary64} {line t : List Char} {useCamel : Bool}
  (hf : Recoverable db f) (ht : EndsValue t)
  (hvalue : value line (fieldKey useCamel f.info) =
    valueText (writeLeaf (styleOptions includeEmpty style) f f.value ++ t))

include ht hvalue

theorem reads_integer {v : Int64} (hv : f.value = .integer v)
    (htype : f.info.fieldType ∈ [some .number, some .decimal, some .fieldIndex])
    (hunscaled : f.info.Unscaled) :
    ∃ w, fieldValueFromJson line f.info db useCamel = some w ∧ ReadsBack f w := by
  have hfinds : Finds line (fieldKey useCamel f.info) (writeInt v.toInt) := by
    refine Spells.finds ?_ ht hvalue
    rw [hv]
    exact spells_keyed (isWord_writeInt v.toInt) (bareText_writeInt _).noBraces
  have hint : int line (fieldKey useCamel f.info) = some v := by
    rw [hfinds.int_bare (bare_writeInt v.toInt), parseI64_writeInt]
  have hseconds : ¬f.WholeSeconds := not_wholeSeconds (by simp [hv])
  by_cases hindex : f.info.fieldType = some .fieldIndex
  · refine ⟨.lookup v.toUInt64 none, ?_, .of_eq hseconds ?_ ?_ ?_ ?_ rfl⟩
    · rw [fromJson_lookup (by rw [hindex]; decide), hint, Option.map_some, Option.some_or]
    all_goals simp [hv, hindex, FieldValue.asI64, FieldValue.stringContent]
  · refine ⟨.integer v, ?_, .of_eq hseconds ?_ ?_ ?_ ?_ rfl⟩
    · rw [fromJson_number (by simpa [hindex] using htype),
        if_pos (isIntegerField_of_unscaled hunscaled), hint, Option.map_some]
    all_goals simp [hv, FieldValue.stringContent]

theorem reads_number {v : Binary64} (hv : f.value = .number v)
    (htype : f.info.fieldType ∈ [some .number, some .decimal, some .fieldIndex])
    (hscaled : ¬f.info.Unscaled) (hintegers : f.info.fieldType = some .fieldIndex ∨
      isIntegerField f.info = true → f.info.Unscaled) :
    ∃ w, fieldValueFromJson line f.info db useCamel = some w ∧ ReadsBack f w := by
  obtain ⟨word, htext, hprints⟩ := writeFixedFloat_prints
    (effectivePrecision_le f.precision f.resolution) v
    (if effectivePrecision f.precision f.resolution = 7 ∧ f.unit = some "deg" then 10 else 0)
  have hbare := bare_prints hprints
  have hfinds : Finds line (fieldKey useCamel f.info) word := by
    refine Spells.finds (.word ?_) ht hvalue
    rw [hv]
    refine Eq.subst (motive := fun s => IsWord s word) htext.symm ?_
    exact isWord_padded hbare.1 hbare.2 _
  obtain ⟨x, hx, hwithin⟩ := hprints.reads (effectivePrecision_le f.precision f.resolution)
  have hnumber := hfinds.number_bare hbare hx
  have hindex : f.info.fieldType ≠ some .fieldIndex := fun h => hscaled (hintegers (Or.inl h))
  have hkept : ¬isIntegerField f.info = true := fun h => hscaled (hintegers (Or.inr h))
  have hseconds : ¬f.WholeSeconds := not_wholeSeconds (by simp [hv])
  refine ⟨.number x, ?_, ⟨fun _ _ => ?_, fun h => absurd hv (h v), fun h => absurd h hseconds,
    fun _ => ?_, ?_⟩⟩
  · rw [fromJson_number (by simpa [hindex] using htype), if_neg hkept, hnumber, Option.map_some]
  · rw [hv]
    exact .some hwithin
  · rw [hv]
    rfl
  · rw [hv]
    rfl

theorem reads_float {v : Binary64} (hv : f.value = .float v)
    (htype : f.info.fieldType = some .float) :
    ∃ w, fieldValueFromJson line f.info db useCamel = some w ∧ ReadsBack f w := by
  have hfinds : Finds line (fieldKey useCamel f.info) v.display := by
    refine Spells.finds (.word ?_) ht hvalue
    rw [hv]
    exact isWord_bare (bare_display v).1 (bare_display v).2
  have hnumber := hfinds.number_bare (bare_display v) (parseF64_display v)
  have hseconds : ¬f.WholeSeconds := not_wholeSeconds (by simp [hv])
  refine ⟨.float v, ?_, .of_eq hseconds ?_ ?_ ?_ ?_ rfl⟩
  · simp only [fieldValueFromJson, htype, hnumber, Option.map_some]
  all_goals simp [hv, FieldValue.stringContent]

theorem reads_lookup {raw : UInt64} {name : Option String} (hv : f.value = .lookup raw name)
    (htype : f.info.fieldType ∈ [some .lookup, some .indirectLookup, some .dynamicFieldKey])
    (hroom : raw.toNat < 9223372036854775808) (hnames : PlainNames f.value) :
    ∃ w, fieldValueFromJson line f.info db useCamel = some w ∧ ReadsBack f w := by
  have hfinds : Finds line (fieldKey useCamel f.info) (digits raw.toNat) := by
    refine Spells.finds ?_ ht hvalue
    rw [hv] at hnames ⊢
    have hname : AddsMembers ((if name.isNone = true ∧
        ¬(styleOptions includeEmpty style).includeEmpty = true then []
        else nameOrNull name) ++ keySuffix f) := by
      refine .append ?_ (addsMembers_keySuffix f)
      split
      · exact .nil
      · exact addsMembers_nameOrNull hnames
    have hspells := spells_members (isWord_digits raw.toNat) (bareText_digits _).noBraces hname
    simp only [writeLeaf, if_pos (show (styleOptions includeEmpty style).nameValue = true from rfl)]
    simpa only [List.append_assoc] using hspells
  have hint : int line (fieldKey useCamel f.info) = some (Int64.ofNat raw.toNat) := by
    rw [hfinds.int_bare ⟨Json.digits_ne_nil _, all_digits _⟩, parseI64_digits hroom]
  have hseconds : ¬f.WholeSeconds := not_wholeSeconds (by simp [hv])
  refine ⟨.lookup raw none, ?_, .of_eq hseconds ?_ ?_ ?_ ?_ rfl⟩
  · rw [fromJson_lookup (by revert htype; simp; tauto), hint, Option.map_some, Option.some_or,
      ofNat_toUInt64]
  all_goals simp [hv, FieldValue.asI64, FieldValue.asF64, FieldValue.lookupValue, FieldValue.stringContent]

theorem reads_date {days : UInt16} (hv : f.value = .date days)
    (htype : f.info.fieldType = some .date) :
    ∃ w, fieldValueFromJson line f.info db useCamel = some w ∧ ReadsBack f w := by
  have hfinds : Finds line (fieldKey useCamel f.info) (digits days.toNat) := by
    refine Spells.finds ?_ ht hvalue
    rw [hv]
    exact spells_named (isWord_digits _) (bareText_digits _).noBraces (noBraces_formatDate days)
  have hint : int line (fieldKey useCamel f.info) = some (Int64.ofNat days.toNat) := by
    rw [hfinds.int_bare ⟨Json.digits_ne_nil _, all_digits _⟩,
      parseI64_digits (days.toNat_lt.trans (by decide))]
  have hseconds : ¬f.WholeSeconds := not_wholeSeconds (by simp [hv])
  refine ⟨.date days, ?_, .of_eq hseconds ?_ ?_ ?_ ?_ rfl⟩
  · simp only [fieldValueFromJson, htype, nestedOrBareInt, lookupInt_eq_int, hint, Option.or_self,
      Option.map_some, ofNat_toUInt16]
  all_goals simp [hv, FieldValue.stringContent]

theorem reads_pgn {v : UInt32} {description : Option String} (hv : f.value = .pgn v description)
    (htype : f.info.fieldType = some .pgn) (hnames : PlainNames f.value) :
    ∃ w, fieldValueFromJson line f.info db useCamel = some w ∧ ReadsBack f w := by
  have hfinds : Finds line (fieldKey useCamel f.info) (digits v.toNat) := by
    refine Spells.finds ?_ ht hvalue
    rw [hv] at hnames ⊢
    have hname : AddsMembers (optionalName description) := by
      cases description with
      | none => exact .nil
      | some s => exact @addsMembers_nameOrNull (some s) hnames
    exact spells_members (isWord_digits v.toNat) (bareText_digits _).noBraces hname
  have hint : int line (fieldKey useCamel f.info) = some (Int64.ofNat v.toNat) := by
    rw [hfinds.int_bare ⟨Json.digits_ne_nil _, all_digits _⟩,
      parseI64_digits (v.toNat_lt.trans (by decide))]
  have hseconds : ¬f.WholeSeconds := not_wholeSeconds (by simp [hv])
  refine ⟨.pgn v none, ?_, .of_eq hseconds ?_ ?_ ?_ ?_ rfl⟩
  · simp only [fieldValueFromJson, htype, nestedOrBareInt, lookupInt_eq_int, hint, Option.or_self,
      Option.map_some, toUInt32_ofNat]
  all_goals simp [hv, FieldValue.asI64, FieldValue.asF64, FieldValue.lookupValue, FieldValue.stringContent]

theorem reads_mmsi {v : UInt32} (hv : f.value = .mmsi v) (htype : f.info.fieldType = some .mmsi) :
    ∃ w, fieldValueFromJson line f.info db useCamel = some w ∧ ReadsBack f w := by
  have hfinds : Finds line (fieldKey useCamel f.info) (paddedDigits 9 v.toNat) := by
    refine Spells.finds ?_ ht hvalue
    rw [hv]
    exact spells_keyed (isWord_writeMmsi v) (noBraces_writeMmsi v)
  have hint : int line (fieldKey useCamel f.info) = some (Int64.ofNat v.toNat) := by
    rw [hfinds.int_bare (bare_padded 9 v.toNat), parseI64_padded (v.toNat_lt.trans (by decide))]
  have hmmsi : mmsiFromJson line (fieldKey useCamel f.info) = some v := by
    have hlt := v.toNat_lt
    have htoInt : (Int64.ofNat v.toNat).toInt = v.toNat := Int64.toInt_ofNat_of_lt (by omega)
    have hnonneg : 0 ≤ Int64.ofNat v.toNat ∧ Int64.ofNat v.toNat ≤ 4294967295 := by
      rw [Int64.le_iff_toInt_le, Int64.le_iff_toInt_le, htoInt]
      exact ⟨Int.natCast_nonneg _, by
        show (v.toNat : ℤ) ≤ 4294967295
        omega⟩
    rw [mmsiFromJson, lookupInt_eq_int, hint]
    dsimp only
    rw [if_pos hnonneg, toUInt32_ofNat]
  have hseconds : ¬f.WholeSeconds := not_wholeSeconds (by simp [hv])
  refine ⟨.mmsi v, ?_, .of_eq hseconds ?_ ?_ ?_ ?_ rfl⟩
  · simp only [fieldValueFromJson, htype, hmmsi, Option.map_some]
  all_goals simp [hv, FieldValue.stringContent]

theorem reads_string {s : List Char} (hv : f.value = .string s) (htype : f.info.IsText) :
    ∃ w, fieldValueFromJson line f.info db useCamel = some w ∧ ReadsBack f w := by
  have hword : value line (fieldKey useCamel f.info) = some (s.flatMap (escape true)) := by
    rw [hvalue, hv]
    exact isWord_quoted (chars_flatMap_escape true s) t ht
  have hseconds : ¬f.WholeSeconds := not_wholeSeconds (by simp [hv])
  refine ⟨.string (s.flatMap (escape true)), ?_, ?_⟩
  · rw [fromJson_text htype, hword, Option.map_some]
  · refine ⟨fun _ _ => ?_, fun _ _ => ?_, fun h => absurd h hseconds, fun _ => ?_, ?_⟩
    all_goals rw [hv]
    · exact .none
    all_goals rfl

theorem reads_time {raw : Int64} (hv : f.value = .time raw (Float64.mul (Float64.ofInt raw.toInt)
      (f.info.resolution.getD (Float64.ofInt 1)))) (hoverrides : f.overrides = none)
    (htype : f.info.fieldType ∈ [some .time, some .duration]) :
    ∃ w, fieldValueFromJson line f.info db useCamel = some w ∧ ReadsBack f w := by
  have hresolution : f.resolution = f.info.resolution := by
    rw [DecodedField.resolution, hoverrides]
    rfl
  have hindex : f.info.fieldType ≠ some .fieldIndex := by
    intro h
    rw [h] at htype
    exact absurd htype (by decide)
  have hfinds : ∀ n, printValue f raw (Float64.mul (Float64.ofInt raw.toInt)
      (f.info.resolution.getD (Float64.ofInt 1))) = n →
      Finds line (fieldKey useCamel f.info) (writeInt n) := by
    rintro n rfl
    refine Spells.finds ?_ ht hvalue
    rw [hv]
    exact spells_named (isWord_writeInt _) (bareText_writeInt _).noBraces (noBraces_formatTime _ _ _)
  by_cases hwhole : (f.info.resolution.map fun r => Float64.le (Float64.ofInt 1) r) = some true
  · obtain ⟨r, hr, hle⟩ := Option.map_eq_some_iff.mp hwhole
    rw [hr, Option.getD_some] at hv hfinds
    -- the seconds are written, without their fraction
    have hint := (hfinds _ (by rw [printValue, hresolution, if_pos hwhole])).int_bare
      (bare_writeInt _)
    rw [parseI64_writeInt] at hint
    refine ⟨_, by rw [fromJson_time htype, hint, Option.map_some], ?_⟩
    have hseconds : f.WholeSeconds := ⟨⟨_, _, hv⟩, hwhole⟩
    rw [hr, Option.getD_some, if_pos hle]
    generalize Float64.mul (Float64.ofInt raw.toInt) r = x at hv
    refine ⟨fun _ h => absurd hseconds h, fun _ h => absurd hseconds h, fun _ => ⟨x, ?_, ?_, ?_⟩,
      fun _ => ?_, ?_⟩
    · rw [hv, FieldValue.asF64]
    · rw [FieldValue.asI64]
    · rw [FieldValue.asF64]
    · rw [hv, FieldValue.lookupValue, FieldValue.lookupValue]
      all_goals rintro _ _ ⟨⟩
    · rw [hv]
      simp only [FieldValue.stringContent, Option.map_none]
  · have hint := (hfinds _ (by rw [printValue, hresolution, if_neg hwhole])).int_bare
      (bare_writeInt _)
    rw [parseI64_writeInt] at hint
    have hseconds : ¬f.WholeSeconds := fun h => hwhole h.2
    refine ⟨_, by rw [fromJson_time htype, hint, Option.map_some], .of_eq hseconds ?_ ?_ ?_ ?_ rfl⟩
    · intro _
      rw [hv, FieldValue.asF64, FieldValue.asF64, seconds_of_not_whole hwhole]
    · rw [hv, FieldValue.asI64, FieldValue.asI64]
    · intro _
      rw [hv, FieldValue.lookupValue, FieldValue.lookupValue]
      all_goals rintro _ _ ⟨⟩
    · rw [hv, FieldValue.stringContent]
      rintro _ ⟨⟩

theorem reads_shape (hf : Recoverable db f) (hoverrides : f.overrides = none)
    (hshape : f.info.Shape f.value) :
    ∃ w, fieldValueFromJson line f.info db useCamel = some w ∧ ReadsBack f w := by
  have hnames := hf.names
  generalize hv : f.value = v at hshape
  cases hshape with
  | integer htype h => exact reads_integer ht hvalue hv htype h
  | number htype h => exact reads_number ht hvalue hv htype h (hf.integers htype)
  | float htype => exact reads_float ht hvalue hv htype
  | lookup htype => exact reads_lookup ht hvalue hv htype (hf.numbers _ _ hv) hnames
  | bitField htype => exact absurd htype hf.type.1
  | date htype => exact reads_date ht hvalue hv htype
  | time htype => exact reads_time ht hvalue hv hoverrides htype
  | mmsi htype => exact reads_mmsi ht hvalue hv htype
  | pgn htype => exact reads_pgn ht hvalue hv htype hnames
  | string htype => exact reads_string ht hvalue hv htype
  | other htype => exact absurd htype (not_other hf.read)

end

/-! ### Nothing to read -/

section

variable {db : PgnDatabase Binary64} {line : List Char} {useCamel : Bool}

theorem fromJson_none {fi : FieldInfo Binary64} (hint : int line (fieldKey useCamel fi) = none)
    (hnumber : (number line (fieldKey useCamel fi) : Option Binary64) = none)
    (hmmsi : mmsiFromJson line (fieldKey useCamel fi) = none)
    (hlookup : (value line (fieldKey useCamel fi)).bind (resolveLookupName db fi) = none)
    (htext : fi.IsText ∨ fi.fieldType = some .variable →
      value line (fieldKey useCamel fi) = none) :
    fieldValueFromJson line fi db useCamel = none := by
  have hnamed : ((value line (fieldKey useCamel fi)).bind fun text =>
      (resolveLookupName db fi text).map fun v =>
        (FieldValue.lookup v none : FieldValue Binary64)) = none := by
    have hbind := congrArg (Option.map fun v => (FieldValue.lookup v none : FieldValue Binary64))
      hlookup
    rwa [Option.map_bind] at hbind
  cases htype : fi.fieldType with
  | none =>
      simp only [fieldValueFromJson, htype, hint, hnumber, Option.map_none, ite_self]
  | some t =>
      cases t with
      | number | decimal =>
          simp only [fieldValueFromJson, htype, hint, hnumber, Option.map_none, ite_self]
      | lookup | bitLookup | indirectLookup | dynamicFieldKey | fieldIndex =>
          rw [fromJson_lookup (by rw [htype]; decide), hint, hnamed]
          rfl
      | time | duration =>
          rw [fromJson_time (by rw [htype]; decide), hint]
          rfl
      | date | pgn =>
          simp only [fieldValueFromJson, htype, nestedOrBareInt, lookupInt_eq_int, hint,
            Option.or_self, Option.map_none]
      | mmsi => simp only [fieldValueFromJson, htype, hmmsi, Option.map_none]
      | float => simp only [fieldValueFromJson, htype, hnumber, Option.map_none]
      | stringFix | stringLz | stringLau =>
          have hnone := htext (Or.inl (isText_of htype (by decide)))
          simp only [fieldValueFromJson, htype, hnone, Option.map_none]
      | «variable» =>
          have hnone := htext (Or.inr htype)
          simp only [fieldValueFromJson, htype, hnone, Option.map_none]
      | binary | isoName | reserved | spare | dynamicFieldLength | dynamicFieldValue =>
          simp only [fieldValueFromJson, htype]

theorem fromJson_absent {fi : FieldInfo Binary64}
    (h : value line (fieldKey useCamel fi) = none) :
    fieldValueFromJson line fi db useCamel = none := by
  have hint : int line (fieldKey useCamel fi) = none := by rw [int_eq, h, Option.bind_none]
  refine fromJson_none hint ?_ ?_ ?_ fun _ => h
  · rw [number_eq, h, Option.bind_none]
  · rw [mmsiFromJson, lookupInt_eq_int, hint, h]
    rfl
  · rw [h, Option.bind_none]

theorem isWord_sentinel (opts : JsonOptions) (f : DecodedField Binary64)
    (h : f.value.isSentinel = true) :
    ∃ word ∈ ["null", "Reserved", "Out Of Range"],
      IsWord (writeLeaf opts f f.value) word.toList := by
  cases hv : f.value with
  | notAvailable =>
      exact ⟨"null", by decide, @isWord_bare "null".toList (by decide) (by decide)⟩
  | outOfRange raw =>
      exact ⟨"Out Of Range", by decide, isWord_quoted (chars_flatMap_escape false _)⟩
  | reservedValue raw =>
      exact ⟨"Reserved", by decide, isWord_quoted (chars_flatMap_escape false _)⟩
  | _ =>
      rw [hv] at h
      nomatch h

theorem reads_sentinel {includeEmpty : Bool} {style : CamelCase} {f : DecodedField Binary64}
    {t : List Char} (hf : Recoverable db f) (ht : EndsValue t)
    (hvalue : value line (fieldKey useCamel f.info) =
      valueText (writeLeaf (styleOptions includeEmpty style) f f.value ++ t))
    (h : f.value.isSentinel = true) (htext : ¬f.info.IsText) :
    fieldValueFromJson line f.info db useCamel = none := by
  obtain ⟨word, hmem, hword⟩ := isWord_sentinel (styleOptions includeEmpty style) f h
  have hfound : value line (fieldKey useCamel f.info) = some word.toList := by
    rw [hvalue, hword t ht]
  have hfinds : Finds line (fieldKey useCamel f.info) word.toList := .word hfound
  have hresolve := hf.words word hmem
  have hint : int line (fieldKey useCamel f.info) = none := by
    simp only [List.mem_cons, List.not_mem_nil, or_false] at hmem
    rcases hmem with rfl | rfl | rfl
    all_goals
      rw [hfinds.int_eq (by decide)]
      decide
  refine fromJson_none hint ?_ ?_ ?_ ?_
  · rw [number_eq, hfound, Option.bind_some]
    simp only [List.mem_cons, List.not_mem_nil, or_false] at hmem
    rcases hmem with rfl | rfl | rfl
    · rfl
    · rw [if_neg (by decide), if_neg (by decide)]
      decide
    · rw [if_neg (by decide), if_neg (by decide)]
      decide
  · rw [mmsiFromJson, lookupInt_eq_int, hint, hfound]
    simp only [List.mem_cons, List.not_mem_nil, or_false] at hmem
    rcases hmem with rfl | rfl | rfl
    all_goals decide
  · rw [hfound, Option.bind_some, hresolve]
  · rintro (h | h)
    · exact absurd h htext
    · exact absurd h hf.type.2

end

/-! ## The record -/

/-- The key is one that the search can find, and no key of the record itself. -/
structure SearchKey (includeEmpty : Bool) (style : CamelCase) (d : DecodedPgn Binary64)
    (key : List Char) : Prop where
  isKey : IsKey key
  notRecord : key ∉ lineKeys (styleOptions includeEmpty style) d
  notWrapper : style ≠ .off → displayName style d.description d.id ≠ key

/-- The field's key is found at no other field. -/
structure OwnKey (includeEmpty : Bool) (style : CamelCase) (d : DecodedPgn Binary64)
    (f : DecodedField Binary64) : Prop extends
    SearchKey includeEmpty style d (fieldLabel (styleOptions includeEmpty style) f) where
  own : ∀ g, found includeEmpty style d (fieldLabel (styleOptions includeEmpty style) f) = some g →
    g = f

/-- The keys of the line are plain, and its wrapper names the definition and no other. -/
structure ReadableLine (includeEmpty : Bool) (style : CamelCase) (db : PgnDatabase Binary64)
    (info : PgnInfo Binary64) (d : DecodedPgn Binary64) : Prop where
  keys : ∀ f ∈ shownFields (styleOptions includeEmpty style) d,
    ∀ k ∈ memberKeys (styleOptions includeEmpty style) f, ∀ c ∈ k, isPlain c = true
  wrapper : style ≠ .off → d.id.val ∉ headerKeys
  definition : style ≠ .off → ∀ p ∈ db.pgns, p.id = info.id → p = info

section

variable {includeEmpty : Bool} {style : CamelCase} {db : PgnDatabase Binary64}
  {info : PgnInfo Binary64} {frame : RawFrame} {d : DecodedPgn Binary64}

theorem wrapper_plain (hstyle : style ≠ .upper) (d : DecodedPgn Binary64) :
    style ≠ .off → ∀ c ∈ displayName style d.description d.id, isPlain c = true := by
  intro hoff
  cases style with
  | off => exact absurd rfl hoff
  | lower => exact d.id.plain
  | upper => exact absurd rfl hstyle

theorem fieldKey_style (hstyle : style ≠ .upper) (includeEmpty : Bool)
    (f : DecodedField Binary64) :
    fieldKey (decide (style ≠ .off)) f.info = fieldLabel (styleOptions includeEmpty style) f := by
  cases style with
  | off => rfl
  | lower => rfl
  | upper => exact absurd rfl hstyle

/-- The line is read as a record of its definition. -/
theorem jsonToDecoded_style (hstyle : style ≠ .upper) (hfirst : db.firstPgn d.pgn = some info)
    (hid : d.id = info.id) (hline : ReadableLine includeEmpty style db info d) :
    jsonToDecoded (writeJson (styleOptions includeEmpty style) d) db =
      some (readRecord (writeJson (styleOptions includeEmpty style) d) db info d.pgn
        (decide (style ≠ .off))) := by
  cases style with
  | off =>
      have hcamel : camelWrapperId (String.ofList (writeJson (styleOptions includeEmpty .off) d)) =
          none := camelWrapperId_writeJson _ d fun hs => absurd rfl hs
      have hpgn := int_pgn_style includeEmpty d
      have hinfo : jsonPgnInfo db none (Int64.ofNat d.pgn.toNat).toUInt64.toUInt32 = some info := by
        rw [jsonPgnInfo, toUInt32_ofNat, hfirst]
      rw [jsonToDecoded_eq hcamel hpgn hinfo, toUInt32_ofNat]
      rfl
  | lower =>
      have hwrapper := hline.wrapper (by decide)
      have hcamel : camelWrapperId (String.ofList
          (writeJson (styleOptions includeEmpty .lower) d)) = some info.id.val := by
        rw [camelWrapperId_lower hwrapper, hid]
      have hpgn := @int_pgn_header includeEmpty d .lower
        (wrapper_lower (ne_of_not_header hwrapper "pgn" (by decide)))
      have hinfo := jsonPgnInfo_of_id (List.mem_of_find?_eq_some hfirst)
        (hline.definition (by decide)) (Int64.ofNat d.pgn.toNat).toUInt64.toUInt32
      rw [jsonToDecoded_eq hcamel hpgn hinfo, toUInt32_ofNat]
      rfl
  | upper => exact absurd rfl hstyle

/-- A value of its type within the payload has a member. -/
theorem mem_shownFields {f : DecodedField Binary64} (hmem : f ∈ d.fields)
    (hsize : d.data.length < 536870912) (hf : Recoverable db f) {off : UInt32}
    (hoff : f.bitOffset = some off) (hin : off.toNat < d.data.length * 8)
    (hshape : f.info.Shape f.value) :
    f ∈ shownFields (styleOptions includeEmpty style) d := by
  refine List.mem_filter.mpr ⟨hmem, ?_⟩
  have hinside : ¬payloadBits d.data ≤ off := by
    have hbits : (payloadBits d.data).toNat = d.data.length * 8 := by
      rw [payloadBits, UInt32.toNat_ofNat', Nat.min_eq_left (by omega)]
      omega
    rw [UInt32.le_iff_toNat_le, hbits]
    omega
  have hread := hf.read
  have htype := hf.type.1
  rw [shown, hoff, Option.map_some, Option.getD_some, decide_eq_false hinside, Bool.not_false,
    Bool.true_and]
  generalize f.value = v at hshape
  cases hshape with
  | bitField h => exact absurd h htype
  | other h => exact absurd h (not_other hread)
  | _ => rfl

theorem mem_readRecord {line : List Char} {pgn : UInt32} {useCamel : Bool}
    {g : DecodedField Binary64} (hg : g ∈ (readRecord line db info pgn useCamel).fields) :
    fieldValueFromJson line g.info db useCamel = some g.value := by
  obtain ⟨fi, -, h⟩ := List.mem_filterMap.mp hg
  obtain ⟨v, hv, rfl⟩ := Option.map_eq_some_iff.mp h
  exact hv

/-- What the line has of one field. -/
theorem fromJson_field (hstyle : style ≠ .upper) (hsize : d.data.length < 536870912)
    (hline : ReadableLine includeEmpty style db info d) {f : DecodedField Binary64}
    (hmem : f ∈ d.fields) (hown : f.Own d.data) (hf : Recoverable db f)
    (hkey : OwnKey includeEmpty style d f) :
    (f.value.isSentinel = true → (f.info.IsText → includeEmpty = false) →
      fieldValueFromJson (writeJson (styleOptions includeEmpty style) d) f.info db
        (decide (style ≠ .off)) = none) ∧
    (f.value.isSentinel = false → (∀ t, f.value ≠ .unsupported t) →
      ∃ w, fieldValueFromJson (writeJson (styleOptions includeEmpty style) d) f.info db
        (decide (style ≠ .off)) = some w ∧ ReadsBack f w) := by
  have hlabel := fieldKey_style hstyle includeEmpty f
  have hwrapper : style ≠ .off → (∀ c ∈ displayName style d.description d.id, isPlain c = true) ∧
      displayName style d.description d.id ≠ fieldLabel (styleOptions includeEmpty style) f :=
    fun hs => ⟨wrapper_plain hstyle d hs, hkey.notWrapper hs⟩
  obtain ⟨off, hoff, hholds⟩ := hown.holds
  have hoverrides : f.overrides = none := hown.overrides fun h => by
    have hread := hf.read
    rw [FieldInfo.isRead, h] at hread
    nomatch hread
  -- the search ends at the field's own member, or finds none
  have hsearch : ∀ g, found includeEmpty style d
      (fieldLabel (styleOptions includeEmpty style) f) = some g → f.IsLeaf →
      ∃ t, EndsValue t ∧ value (writeJson (styleOptions includeEmpty style) d)
        (fieldKey (decide (style ≠ .off)) f.info) =
          valueText (writeLeaf (styleOptions includeEmpty style) f f.value ++ t) := by
    intro g hg hleaf
    rw [hlabel]
    rw [hkey.own g hg] at hg
    exact value_of_found hkey.isKey hwrapper hline.keys hkey.notRecord hg hleaf rfl
  constructor
  · intro hsentinel htext
    have hleaf : f.IsLeaf := by
      intro v subfields h
      rw [h] at hsentinel
      nomatch hsentinel
    cases hfound : found includeEmpty style d (fieldLabel (styleOptions includeEmpty style) f) with
    | none =>
        refine fromJson_absent ?_
        rw [hlabel]
        exact value_of_not_found hkey.isKey hwrapper hline.keys hkey.notRecord hfound
    | some g =>
        obtain ⟨t, ht, hvalue⟩ := hsearch g hfound hleaf
        refine reads_sentinel hf ht hvalue hsentinel fun hisText => ?_
        -- a text's only sentinel is not shown
        rw [hkey.own g hfound] at hfound
        have hshown := (List.mem_filter.mp (List.mem_of_find?_eq_some hfound)).2
        have hvoid : f.value = .notAvailable := by
          generalize f.value = v at hholds hsentinel
          cases hholds with
          | absent => rfl
          | sentinel _ hnot => exact absurd hisText hnot
          | unsupported => nomatch hsentinel
          | other h => exact absurd h (not_other hf.read)
          | shaped hin hshape =>
              cases hshape with
              | other h => exact absurd h (not_other hf.read)
              | _ => nomatch hsentinel
        rw [shown, hvoid, htext hisText] at hshown
        rw [Bool.and_eq_true] at hshown
        nomatch hshown.2
  · intro hsentinel hsupported
    have hshaped : off.toNat < d.data.length * 8 ∧ f.info.Shape f.value := by
      generalize f.value = v at hholds hsentinel hsupported
      cases hholds with
      | absent => nomatch hsentinel
      | sentinel h _ => exact absurd h (by rw [hsentinel]; exact Bool.false_ne_true)
      | @unsupported t => exact absurd rfl (hsupported t)
      | other h => exact absurd h (not_other hf.read)
      | shaped hin hshape => exact ⟨hin, hshape⟩
    have hleaf : f.IsLeaf := by
      intro v subfields h
      rw [h] at hshaped
      cases hshaped.2 with
      | other h => exact absurd h (not_other hf.read)
    have hshown : f ∈ shownFields (styleOptions includeEmpty style) d :=
      mem_shownFields hmem hsize hf hoff hshaped.1 hshaped.2
    cases hfound : found includeEmpty style d (fieldLabel (styleOptions includeEmpty style) f) with
    | none =>
        have hnot := List.find?_eq_none.mp hfound f hshown
        exact absurd (decide_eq_true (List.mem_cons_self (a := fieldLabel _ f))) hnot
    | some g =>
        obtain ⟨t, ht, hvalue⟩ := hsearch g hfound hleaf
        exact reads_shape ht hvalue hf hoverrides hshaped.2

end

def indexField : FieldInfo Binary64 :=
  { claimNumber 1 ⟨"parameter", by decide⟩ "Parameter" 0 8 with fieldType := some .fieldIndex }

/-- In tenths of milliradians, as degrees. -/
def angleField : FieldInfo Binary64 :=
  { claimNumber 2 ⟨"angle", by decide⟩ "Angle" 8 16 with
    resolution := some (Float64.ofRat (5729577951308233 / 1000000000000000000)),
    unit := some "deg" }

/-- In minutes. -/
def periodField : FieldInfo Binary64 :=
  { claimNumber 3 ⟨"period", by decide⟩ "Period" 24 8 with
    fieldType := some .duration, resolution := some (Float64.ofInt 60), unit := some "s" }

def labelField : FieldInfo Binary64 :=
  { claimNumber 4 ⟨"label", by decide⟩ "Label" 32 24 with fieldType := some .stringFix }

def settingPgn : PgnInfo Binary64 where
  pgn := 65300
  id := ⟨"setting", by decide⟩
  description := "Setting"
  packetType := .single
  fallback := none
  priority := some 6
  length := some 7
  fields := [indexField, angleField, periodField, labelField]
  repeatingFieldSet1 := .none
  repeatingFieldSet2 := .none
  idIsPinned := false

def settingDatabase : PgnDatabase Binary64 := { requestDatabase with
  pgns := [settingPgn]
  claimFlat := by decide +kernel }

def settingFrame : RawFrame := { isoRequestFrame with
  pgn := 65300
  data := [0x05, 0x5d, 0x01, 0x02, 0x41, 0x2f, 0x42] }

def settingAngle : Binary64 :=
  Float64.add (Float64.add (Float64.mul (Float64.ofInt 349)
    (Float64.ofRat (5729577951308233 / 1000000000000000000))) (Float64.ofInt 0)) (Float64.ofInt 0)

def settingFieldsOf : List (DecodedField Binary64) :=
  [.single indexField (.integer 5) 0 8 none,
    .single angleField (.number settingAngle) 8 16 none,
    .single periodField (.time 2 (Float64.mul (Float64.ofInt 2) (Float64.ofInt 60))) 24 8 none,
    .single labelField (.string "A/B".toList) 32 24 none]

theorem decodeNumber_index :
    decodeNumber indexField settingFrame.data 0 8 false = .integer 5 := by
  have hx : extractBits settingFrame.data 0 8 false 0 = some ⟨5, 255, 5⟩ := by decide +kernel
  rw [decodeNumber, extracted]
  simp only [ne_eq]
  rw [show (if indexField.offset.getD 0 ≠ 0 then false else false) = false from rfl]
  rw [show (0 : UInt32).toNat = 0 from rfl, show (8 : UInt32).toNat = 8 from rfl, hx]
  show (none : Option (FieldValue Binary64)).getD _ = _
  rw [Option.getD_none]
  exact if_pos (by decide +kernel)

theorem decodeNumber_angle :
    decodeNumber angleField settingFrame.data 8 16 false = .number settingAngle := by
  have hx : extractBits settingFrame.data 8 16 false 0 = some ⟨349, 65535, 349⟩ := by decide +kernel
  rw [decodeNumber, extracted]
  rw [show (if angleField.offset.getD 0 ≠ 0 then false else false) = false from rfl]
  rw [show (8 : UInt32).toNat = 8 from rfl, show (16 : UInt32).toNat = 16 from rfl, hx]
  show (none : Option (FieldValue Binary64)).getD _ = _
  rw [Option.getD_none]
  exact if_neg fun h => absurd h.2.1 (by decide)

theorem fields_setting :
    decodeFields settingPgn settingFrame.data settingDatabase =
      (settingFieldsOf, false, false) := by
  have hindex (claim : List UInt8 → List (DecodedField Binary64)) :
      decodeOneFieldAt claim indexField settingPgn settingFrame.data settingDatabase 0 .empty =
        some (.single indexField (.integer 5) 0 8 none, 8,
          { DecodeContext.empty with currentParamIdx := some 5 }) := by
    have h := congrArg (fun v => some (DecodedField.single indexField v 0 8 none, (8 : UInt32),
      DecodeContext.empty.note indexField v)) decodeNumber_index
    exact h
  have hangle (claim : List UInt8 → List (DecodedField Binary64)) (ctx : DecodeContext Binary64) :
      decodeOneFieldAt claim angleField settingPgn settingFrame.data settingDatabase 8 ctx =
        some (.single angleField (.number settingAngle) 8 16 none, 16, ctx) := by
    have h := congrArg (fun v => some (DecodedField.single angleField v 8 16 none, (16 : UInt32),
      ctx.note angleField v)) decodeNumber_angle
    exact h
  rw [decodeFields, Source.decode]
  rw [show settingPgn.fields = [indexField, angleField, periodField, labelField] from rfl]
  rw [walk_cons _ rfl rfl rfl rfl (hindex _), walk_cons _ rfl rfl rfl rfl (hangle _ _),
    walk_cons _ rfl rfl rfl rfl (d := .single periodField
      (.time 2 (Float64.mul (Float64.ofInt 2) (Float64.ofInt 60))) 24 8 none) rfl,
    walk_cons _ rfl rfl rfl rfl (d := .single labelField (.string "A/B".toList) 32 24 none) rfl]
  rfl

def settingRecord : DecodedPgn Binary64 where
  timestamp := none
  prio := 6
  pgn := 65300
  src := 1
  dst := 255
  description := settingPgn.description
  id := settingPgn.id
  idIsPinned := false
  data := settingFrame.data
  fields := settingFieldsOf
  hasRepeatingSet := (false, false)
  indexByOrder := buildIndexByOrder settingFieldsOf

theorem decode_setting : settingDatabase.decode settingFrame = .ok settingRecord := by
  have hpick : settingDatabase.pickVariant settingFrame = some settingPgn :=
    settingDatabase.pickVariant_of_single (by decide +kernel) rfl (by decide +kernel)
  rw [PgnDatabase.decode, hpick]
  simp only [fields_setting]
  rfl

theorem value_setting :
    value (writeJson (styleOptions false .off) settingRecord) "Parameter".toList =
        some "5".toList ∧
      value (writeJson (styleOptions false .off) settingRecord) "Angle".toList =
        some "2.000".toList ∧
      value (writeJson (styleOptions false .off) settingRecord) "Period".toList =
        some "\x7b\"value\":120,\"name\":\"00:02:00\"\x7d".toList ∧
      value (writeJson (styleOptions false .off) settingRecord) "Label".toList =
        some "A\\/B".toList := by
  decide +kernel

/-- What is read of each of the fields. -/
theorem fromJson_setting {fi : FieldInfo Binary64} {v : FieldValue Binary64}
    (h : fieldValueFromJson (writeJson (styleOptions false .off) settingRecord) fi settingDatabase
      false = some v) :
    (fi = indexField → v.lookupValue = some 5) ∧ (fi = angleField → v.asI64 = some 2) ∧
      (fi = periodField → v.asI64 = some 120) ∧
      (fi = labelField → v.stringContent = some "A\\/B".toList) := by
  obtain ⟨hindex, hangle, hperiod, hlabel⟩ := value_setting
  refine ⟨?_, ?_, ?_, ?_⟩
  · rintro rfl
    have hint : int (writeJson (styleOptions false .off) settingRecord) "Parameter".toList =
        some 5 := by
      rw [int_eq, hindex, Option.bind_some, if_neg (by decide)]
      decide
    rw [fromJson_lookup (by decide), show fieldKey false indexField = "Parameter".toList from rfl,
      hint] at h
    cases h
    rfl
  · rintro rfl
    have hnumber : (number (writeJson (styleOptions false .off) settingRecord) "Angle".toList :
        Option Binary64) = parseF64 "2.000".toList := by
      rw [number_eq, hangle, Option.bind_some, if_neg (by decide), if_neg (by decide)]
      rfl
    have hint : ((parseF64 "2.000".toList : Option Binary64).map Float64.toI64) = some 2 := by
      decide +kernel
    rw [fromJson_number (by decide), show fieldKey false angleField = "Angle".toList from rfl,
      hnumber, if_neg (by rw [isIntegerField, Bool.and_eq_true]; exact fun h => nomatch h.2)] at h
    obtain ⟨x, hx, rfl⟩ := Option.map_eq_some_iff.mp h
    rw [hx] at hint
    exact hint
  · rintro rfl
    have hint : int (writeJson (styleOptions false .off) settingRecord) "Period".toList =
        some 120 := by
      have hinner : value "\x7b\"value\":120,\"name\":\"00:02:00\"\x7d".toList "value".toList =
          some "120".toList := by decide +kernel
      rw [int_eq, hperiod, Option.bind_some, if_pos (by decide), int_eq, hinner, Option.bind_some,
        if_neg (by decide)]
      decide
    rw [fromJson_time (by decide), show fieldKey false periodField = "Period".toList from rfl,
      hint] at h
    cases h
    rfl
  · rintro rfl
    rw [fromJson_text (isText_of (t := some .stringFix) rfl (by decide)), show fieldKey false labelField = "Label".toList from rfl,
      hlabel] at h
    cases h
    rfl

end Canboat
