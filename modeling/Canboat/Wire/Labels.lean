import Canboat.Wire.Model
import Canboat.Decode.Shapes
import Mathlib.Data.List.Perm.Basic
import Mathlib.Data.List.Sort
import Mathlib.Data.List.FinRange

/-!
# The labels of decoded values

Which names a decoder puts beside a number, by the type of the field, and where a receiver finds
the same ones again.
-/

namespace Canboat

variable {F : Type} [Float64 F]

/-- The name in the field's lookup table. -/
def lookupName (db : PgnDatabase F) (f : FieldInfo F) (raw : UInt64) : Option String :=
  ((f.lookupEnumeration.bind db.lookup).bind (·.get raw)).map (·.name)

/-- The name in the field's table of field types. -/
def fieldTypeName (db : PgnDatabase F) (f : FieldInfo F) (raw : UInt64) : Option String :=
  (f.lookupFieldTypeEnumeration.bind fun n => db.fieldTypeLookup n raw).map (·.name)

/-- What the labels of a value are, where the field's type says it. -/
def FieldInfo.Labelled (db : PgnDatabase F) (f : FieldInfo F) : FieldValue F → Prop
  | .lookup raw name =>
      (f.fieldType = some .lookup → name = lookupName db f raw) ∧
        (f.fieldType = some .dynamicFieldKey → name = fieldTypeName db f raw)
  | .bitField raw bits =>
      f.fieldType = some .bitLookup →
        bits = setBits (f.lookupBitEnumeration.bind db.bitLookup) raw
  | .pgn value description => description = pgnDescription db value
  | _ => True

/-- A value without labels. -/
def FieldValue.isPlain : FieldValue F → Bool
  | .lookup _ _ | .bitField _ _ | .pgn _ _ => false
  | _ => true

section Decoders

variable {db : PgnDatabase F} {f : FieldInfo F} {data : List UInt8} {bitOffset bitLength : UInt32}

omit [Float64 F] in
theorem labelled_of_plain {v : FieldValue F} (h : v.isPlain = true) : f.Labelled db v := by
  cases v with
  | lookup raw name => cases h
  | bitField raw bits => cases h
  | pgn value description => cases h
  | _ => trivial

omit [Float64 F] in
theorem extracted_labelled {signed : Bool} {offset : Int64} {value : Extracted → FieldValue F}
    (h : ∀ x, f.Labelled db (value x)) :
    f.Labelled db (extracted data bitOffset bitLength signed offset value) := by
  rw [extracted]
  split
  · trivial
  · exact h _

omit [Float64 F] in
theorem extracted_plain {signed : Bool} {offset : Int64} {value : Extracted → FieldValue F}
    (h : ∀ x, (value x).isPlain = true) :
    (extracted data bitOffset bitLength signed offset value).isPlain = true := by
  rw [extracted]
  split
  · rfl
  · exact h _

omit [Float64 F] in
theorem sentinel_plain {x : Extracted} {v : FieldValue F} (h : v.isPlain = true) :
    ((sentinelFieldValue f x).getD v).isPlain = true := by
  rw [sentinelFieldValue]
  split
  · rfl
  · rfl
  · rfl
  · exact h

theorem decodeNumber_plain (signed : Bool) :
    (decodeNumber f data bitOffset bitLength signed).isPlain = true := by
  rw [decodeNumber]
  refine extracted_plain fun x => sentinel_plain ?_
  dsimp only
  split_ifs
  · rfl
  · rfl

theorem decodeFloat_plain : (decodeFloat data bitOffset bitLength : FieldValue F).isPlain = true := by
  rw [decodeFloat]
  split_ifs
  · rfl
  · exact extracted_plain fun _ => rfl

omit [Float64 F] in
theorem decodeReserved_plain (signed : Bool) (offsetK : Int64) (isReserved : Bool) :
    (decodeReserved data bitOffset bitLength signed offsetK isReserved : FieldValue F).isPlain =
      true := by
  rw [decodeReserved]
  refine extracted_plain fun x => ?_
  dsimp only
  split_ifs
  · rfl
  · rfl
  · rfl

omit [Float64 F] in
theorem decodeBinary_plain :
    (decodeBinary data bitOffset bitLength : FieldValue F).isPlain = true := by
  rw [decodeBinary]
  split_ifs
  · rfl
  · rfl
  · split
    · rfl
    · rfl

omit [Float64 F] in
theorem decodeIsoName_plain (claim : List UInt8 → List (DecodedField F)) :
    (decodeIsoName claim data bitOffset bitLength).isPlain = true := by
  rw [decodeIsoName]
  split_ifs
  · rfl
  · dsimp only
    split_ifs
    · rfl
    · rfl

omit [Float64 F] in
theorem paddedText_plain (s : List Char) : (paddedText s : FieldValue F).isPlain = true := by
  rw [paddedText]
  split_ifs
  · rfl
  · rfl

omit [Float64 F] in
theorem decodeStringFix_plain :
    (decodeStringFix data bitOffset bitLength : FieldValue F).isPlain = true := by
  rw [decodeStringFix]
  split_ifs
  · rfl
  · rfl
  · dsimp only
    split_ifs
    · rfl
    · rfl

omit [Float64 F] in
theorem decodeStringLau_plain : (decodeStringLau data bitOffset : FieldValue F × UInt32).1.isPlain =
    true := by
  rw [decodeStringLau]
  dsimp only
  split_ifs
  · rfl
  · split
    · split_ifs
      · rfl
      · exact paddedText_plain _
      · exact paddedText_plain _
    · rfl

omit [Float64 F] in
theorem decodeStringLz_plain :
    (decodeStringLz data bitOffset bitLength : FieldValue F).isPlain = true := by
  rw [decodeStringLz]
  dsimp only
  split_ifs
  · rfl
  · split
    · rfl
    · exact paddedText_plain _
  · split
    · rfl
    · exact paddedText_plain _

omit [Float64 F] in
/-- The name of a looked-up value is the one that was looked for. -/
theorem labelled_labelled {x : Extracted} {name : Option String}
    (hlookup : f.fieldType = some .lookup → name = lookupName db f x.raw)
    (hkey : f.fieldType = some .dynamicFieldKey → name = fieldTypeName db f x.raw) :
    f.Labelled db (labelled f x name) := by
  rw [labelled]
  cases name with
  | some name =>
      rw [Option.isSome_some, if_pos rfl]
      exact ⟨hlookup, hkey⟩
  | none =>
      rw [Option.isSome_none, if_neg Bool.false_ne_true]
      rw [sentinelFieldValue]
      split
      · trivial
      · trivial
      · trivial
      · exact ⟨hlookup, hkey⟩

theorem decodeFixed_labelled (claim : List UInt8 → List (DecodedField F)) (info : PgnInfo F)
    (ctx : DecodeContext F) :
    f.Labelled db (decodeFixed claim f info data db bitOffset bitLength ctx).1 := by
  have htext {t : FieldType} (htype : f.fieldType = some t) : t ≠ .lookup → t ≠ .dynamicFieldKey →
      ∀ {x : Extracted} {name : Option String}, f.Labelled db (labelled f x name) := by
    intro hlookup hkey x name
    refine labelled_labelled (fun h => ?_) fun h => ?_
    · exact absurd (Option.some.inj (htype.symm.trans h)) hlookup
    · exact absurd (Option.some.inj (htype.symm.trans h)) hkey
  unfold decodeFixed
  cases htype : f.fieldType with
  | none => trivial
  | some t =>
      cases t with
      | number | decimal | fieldIndex => exact labelled_of_plain (decodeNumber_plain _)
      | float => exact labelled_of_plain decodeFloat_plain
      | lookup =>
          refine extracted_labelled fun x => labelled_labelled (fun _ => rfl) fun h => ?_
          cases htype.symm.trans h
      | indirectLookup =>
          exact extracted_labelled fun x => htext htype (by decide) (by decide)
      | bitLookup => exact extracted_labelled fun x _ => rfl
      | reserved | spare => exact labelled_of_plain (decodeReserved_plain _ _ _)
      | binary => exact labelled_of_plain decodeBinary_plain
      | mmsi =>
          dsimp only
          rw [decodeMmsi]
          split_ifs
          · trivial
          · exact labelled_of_plain (extracted_plain fun _ => rfl)
      | pgn =>
          dsimp only
          rw [decodePgnField]
          split_ifs
          · trivial
          · exact extracted_labelled fun x => rfl
      | date =>
          dsimp only
          rw [decodeDate]
          split_ifs
          · trivial
          · exact labelled_of_plain (extracted_plain fun _ => sentinel_plain rfl)
      | time | duration =>
          exact labelled_of_plain (extracted_plain fun _ => sentinel_plain rfl)
      | stringFix => exact labelled_of_plain decodeStringFix_plain
      | stringLz => exact labelled_of_plain decodeStringLz_plain
      | isoName => exact labelled_of_plain (decodeIsoName_plain claim)
      | dynamicFieldKey =>
          dsimp only
          rw [decodeDynamicFieldKey]
          split
          · trivial
          · refine labelled_labelled (fun h => ?_) fun _ => rfl
            cases htype.symm.trans h
      | dynamicFieldLength =>
          dsimp only
          rw [decodeDynamicFieldLength]
          split
          next => trivial
          next x hx =>
            split
            next sent hsent =>
              have hplain : ((sentinelFieldValue f x).getD .notAvailable).isPlain = true :=
                sentinel_plain rfl
              rw [hsent, Option.getD_some] at hplain
              exact labelled_of_plain hplain
            next => trivial
      | stringLau | «variable» | dynamicFieldValue => trivial

/-- A dynamic value says nothing of its labels but a message's. -/
theorem decodeDynamicValue_labelled (claim : List UInt8 → List (DecodedField F))
    (htype : f.fieldType = some .dynamicFieldValue) (entry : LookupFieldTypeValue F) :
    f.Labelled db (decodeDynamicValue claim data bitOffset bitLength db entry) := by
  have hlookup {raw : UInt64} {name : Option String} : f.Labelled db (.lookup raw name) := by
    refine ⟨fun h => ?_, fun h => ?_⟩
    · cases htype.symm.trans h
    · cases htype.symm.trans h
  rw [decodeDynamicValue]
  split
  · exact labelled_of_plain decodeBinary_plain
  · dsimp only
    split_ifs
    · apply labelled_of_plain
      rw [decodeDynamicNumber]
      refine extracted_plain fun x => ?_
      dsimp only
      split_ifs
      all_goals rfl
    · rw [decodeDynamicLookup]
      split
      · exact labelled_of_plain decodeBinary_plain
      · exact extracted_labelled fun _ => hlookup
    · apply labelled_of_plain
      rw [decodeDynamicDuration]
      refine extracted_plain fun x => ?_
      split_ifs
      · rfl
      · exact extracted_plain fun _ => rfl
    · apply labelled_of_plain
      refine extracted_plain fun x => ?_
      split_ifs
      all_goals rfl
    · exact labelled_of_plain (decodeIsoName_plain claim)
    · exact labelled_of_plain decodeBinary_plain

theorem decodeSelfContained_labelled {claim : List UInt8 → List (DecodedField F)}
    {info : PgnInfo F} {ctx ctx' : DecodeContext F} {d : DecodedField F} {bits : UInt32}
    (h : decodeSelfContained claim f info data db bitOffset ctx = some (d, bits, ctx')) :
    f.Labelled db d.value := by
  unfold decodeSelfContained at h
  dsimp only at h
  split at h
  · cases h
    exact labelled_of_plain decodeStringLau_plain
  next _ htype =>
    cases h
    change f.Labelled db (decodeDynamicFieldValue claim data bitOffset db ctx).1
    rw [decodeDynamicFieldValue]
    split
    · exact labelled_of_plain decodeBinary_plain
    · exact decodeDynamicValue_labelled claim htype _
  · cases h
    exact labelled_of_plain decodeStringLz_plain
  · cases h
    exact labelled_of_plain decodeBinary_plain
  · cases h
  · cases h
    exact decodeFixed_labelled claim info ctx

theorem decodeOneFieldAt_labelled {claim : List UInt8 → List (DecodedField F)}
    {info : PgnInfo F} {ctx ctx' : DecodeContext F} {d : DecodedField F} {bits : UInt32}
    (h : decodeOneFieldAt claim f info data db bitOffset ctx = some (d, bits, ctx')) :
    d.info = f ∧ f.Labelled db d.value := by
  rw [decodeOneFieldAt] at h
  split_ifs at h with hvariable
  · rw [decodeVariable] at h
    obtain ⟨p, -, h⟩ := Option.bind_eq_some_iff.mp h
    obtain ⟨i, -, h⟩ := Option.bind_eq_some_iff.mp h
    obtain ⟨target, -, h⟩ := Option.bind_eq_some_iff.mp h
    obtain ⟨field, -, h⟩ := Option.bind_eq_some_iff.mp h
    split_ifs at h
    obtain ⟨⟨sub, subBits, subCtx⟩, hsub, h⟩ := Option.bind_eq_some_iff.mp h
    cases h
    refine ⟨rfl, ?_⟩
    have hlabelled := decodeSelfContained_labelled hsub
    change f.Labelled db sub.value
    -- of a value of another field only the message's description is kept
    cases hvalue : sub.value with
    | lookup raw name =>
        refine ⟨fun h => ?_, fun h => ?_⟩
        · cases hvariable.symm.trans h
        · cases hvariable.symm.trans h
    | bitField raw bits =>
        intro h
        cases hvariable.symm.trans h
    | pgn value description =>
        rw [hvalue] at hlabelled
        exact hlabelled
    | _ => trivial
  · exact ⟨(decodeSelfContained_own h).1, decodeSelfContained_labelled h⟩

end Decoders

/-! ## The fields of a record -/

namespace Source

variable {s : Source F}

/-- The labels of the field are those that its definition gives. -/
def LabelledIn (s : Source F) (d : DecodedField F) : Prop := d.info.Labelled s.db d.value

theorem labelledIn_of_decodes {f : FieldInfo F} {off bits : UInt32} {ctx ctx' : DecodeContext F}
    {d : DecodedField F}
    (h : decodeOneFieldAt s.claim f s.info s.data s.db off ctx = some (d, bits, ctx')) :
    s.LabelledIn d := by
  obtain ⟨hinfo, hlabelled⟩ := decodeOneFieldAt_labelled h
  rw [LabelledIn, hinfo]
  exact hlabelled

theorem decodeSet_labelledIn (setNumber : UInt8) (countWasZero : Bool) (iter : UInt32)
    (set : List (FieldInfo F)) (produced : Bool) {w : Walk F}
    (hw : ∀ d ∈ w.out, s.LabelledIn d) :
    ∀ d ∈ (s.decodeSet setNumber countWasZero iter set produced w).2.out, s.LabelledIn d := by
  induction set generalizing produced w with
  | nil => exact hw
  | cons f set ih =>
      rw [decodeSet]
      by_cases hcondition : f.condition.isSome = true
      · rw [if_pos hcondition]
        exact ih _ hw
      · rw [if_neg hcondition]
        dsimp only
        split
        next d bits ctx hd =>
          have hlabelled := labelledIn_of_decodes hd
          exact ih _ (forall_append_one hw hlabelled)
        next =>
          split
          · exact ih _ hw
          · exact ih _ hw

theorem decodeIterations_labelledIn (setNumber : UInt8) (countWasZero : Bool)
    (set : List (FieldInfo F)) (n : ℕ) (iter : UInt32) {w : Walk F}
    (hw : ∀ d ∈ w.out, s.LabelledIn d) :
    ∀ d ∈ (s.decodeIterations setNumber countWasZero set n iter w).out, s.LabelledIn d := by
  induction n generalizing iter w with
  | zero => exact hw
  | succ n ih =>
      have hstep := decodeSet_labelledIn setNumber countWasZero iter set false hw
      rw [decodeIterations]
      split_ifs
      · exact hw
      · dsimp only
        split_ifs
        · exact ih (iter + 1) hstep
        · exact hstep

theorem decodeRepeating_labelledIn (set : List (FieldInfo F)) (countField : Option UInt32)
    (setNumber : UInt8) {w : Walk F} (hw : ∀ d ∈ w.out, s.LabelledIn d) :
    ∀ d ∈ (s.decodeRepeating set countField setNumber w).out, s.LabelledIn d := by
  unfold decodeRepeating
  cases set with
  | nil => exact hw
  | cons first rest => exact decodeIterations_labelledIn setNumber _ _ _ 0 hw

theorem walk_labelledIn (skip : ℕ) (fields : List (FieldInfo F)) (entered : Bool × Bool)
    {w : Walk F} (hw : ∀ d ∈ w.out, s.LabelledIn d) :
    ∀ d ∈ (s.walk skip fields entered w).1.out, s.LabelledIn d := by
  induction fields generalizing skip entered w with
  | nil =>
      rw [walk]
      exact hw
  | cons f fields ih =>
      cases skip with
      | succ skip =>
          rw [walk]
          exact ih _ _ hw
      | zero =>
          rw [walk]
          split
          · exact ih _ _ (decodeRepeating_labelledIn _ _ 1 hw)
          · exact ih _ _ (decodeRepeating_labelledIn _ _ 2 hw)
          · split_ifs
            · exact ih _ _ hw
            · dsimp only
              split
              next d bits ctx hd =>
                exact ih _ _ (forall_append_one hw (labelledIn_of_decodes hd))
              next => exact ih _ _ hw

end Source

/-- The labels of a record are those of its definition. -/
theorem decode_labelled {db : PgnDatabase F} {frame : RawFrame} {d : DecodedPgn F}
    (hdecode : db.decode frame = .ok d) : ∀ f ∈ d.fields, f.info.Labelled db f.value := by
  rw [PgnDatabase.decode] at hdecode
  cases hpick : db.pickVariant frame with
  | none =>
      rw [hpick] at hdecode
      cases hdecode
  | some info =>
      rw [hpick] at hdecode
      cases hdecode
      exact Source.walk_labelledIn (s := ⟨claimFields db, info, frame.data, db⟩) 0 info.fields
        (false, false) (by rintro _ ⟨⟩)

end Canboat
