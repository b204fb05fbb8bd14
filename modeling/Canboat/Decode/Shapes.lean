import Canboat.Decode.Widths

/-!
# What decoded fields hold

Every field of a record comes from the decoder of one of its definition's fields, and the type
of that one says which values it may hold.
-/

namespace Canboat

variable {F : Type} [Float64 F]

/-! ## Values by type -/

/-- A value that stands for the lack of one. -/
def FieldValue.isSentinel : FieldValue F → Bool
  | .notAvailable | .outOfRange _ | .reservedValue _ => true
  | _ => false

/-- The values of a type that are neither sentinels nor of a type without a decoder. -/
inductive FieldInfo.Shape (f : FieldInfo F) : FieldValue F → Prop
  | integer {v : Int64} (htype : f.fieldType ∈ [some .number, some .decimal, some .fieldIndex])
      (h : f.Unscaled) : f.Shape (.integer v)
  | number {v : F} (htype : f.fieldType ∈ [some .number, some .decimal, some .fieldIndex])
      (h : ¬f.Unscaled) : f.Shape (.number v)
  | float {v : F} (htype : f.fieldType = some .float) : f.Shape (.float v)
  | lookup {raw : UInt64} {name : Option String}
      (htype : f.fieldType ∈ [some .lookup, some .indirectLookup, some .dynamicFieldKey]) :
      f.Shape (.lookup raw name)
  | bitField {raw : UInt64} {bits : List (UInt64 × String)}
      (htype : f.fieldType = some .bitLookup) : f.Shape (.bitField raw bits)
  | date {days : UInt16} (htype : f.fieldType = some .date) : f.Shape (.date days)
  | time {raw : Int64} (htype : f.fieldType ∈ [some .time, some .duration]) :
      f.Shape (.time raw (Float64.mul (Float64.ofInt raw.toInt)
        (f.resolution.getD (Float64.ofInt 1))))
  | mmsi {v : UInt32} (htype : f.fieldType = some .mmsi) : f.Shape (.mmsi v)
  | pgn {v : UInt32} {description : Option String} (htype : f.fieldType = some .pgn) :
      f.Shape (.pgn v description)
  | string {s : List Char}
      (htype : f.fieldType ∈ [some .stringFix, some .stringLz, some .stringLau]) :
      f.Shape (.string s)
  | other {v : FieldValue F}
      (htype : f.fieldType ∈ [some .reserved, some .spare, some .binary, some .isoName,
        some .dynamicFieldLength, some .dynamicFieldValue]) : f.Shape v

def FieldInfo.IsText (f : FieldInfo F) : Prop :=
  f.fieldType ∈ [some .stringFix, some .stringLz, some .stringLau]

/-- What is decoded at the offset: a value is of its type's shape, and within the payload. A text
has no sentinels of its own. -/
inductive FieldInfo.Holds (f : FieldInfo F) (data : List UInt8) (bitOffset : UInt32) :
    FieldValue F → Prop
  | absent : f.Holds data bitOffset .notAvailable
  | sentinel {v : FieldValue F} (h : v.isSentinel = true) (htext : ¬f.IsText) :
      f.Holds data bitOffset v
  | unsupported {fieldType : String} : f.Holds data bitOffset (.unsupported fieldType)
  | shaped {v : FieldValue F} (hin : bitOffset.toNat < data.length * 8) (h : f.Shape v) :
      f.Holds data bitOffset v
  | other {v : FieldValue F}
      (htype : f.fieldType ∈ [some .reserved, some .spare, some .binary, some .isoName,
        some .dynamicFieldLength, some .dynamicFieldValue]) : f.Holds data bitOffset v

/-! ## Extractions -/

section Holds

variable {f : FieldInfo F} {data : List UInt8} {bitOffset bitLength : UInt32}

theorem lt_of_extractBits {off len : ℕ} {signed : Bool} {offset : Int64} {x : Extracted}
    (h : extractBits data off len signed offset = some x) : off < data.length * 8 := by
  have hbyte : off >>> 3 = off / 8 := Nat.shiftRight_eq_div_pow off 3
  rw [extractBits] at h
  by_cases hlen : len = 0 ∨ len > 64
  · rw [if_pos hlen] at h
    cases h
  rw [if_neg hlen] at h
  dsimp only at h
  by_cases hout : off >>> 3 ≥ data.length
  · rw [if_pos hout] at h
    cases h
  · rw [hbyte] at hout
    omega

theorem extracted_holds {signed : Bool} {offset : Int64} {value : Extracted → FieldValue F}
    (htext : ¬f.IsText) (h : ∀ x, (value x).isSentinel = true ∨ f.Shape (value x)) :
    f.Holds data bitOffset (extracted data bitOffset bitLength signed offset value) := by
  rw [extracted]
  split
  · exact .absent
  · next x hx =>
    rcases h x with hs | hs
    · exact .sentinel hs htext
    · exact .shaped (lt_of_extractBits hx) hs

theorem getD_sentinel {x : Extracted} {v : FieldValue F} (h : f.Shape v) :
    ((sentinelFieldValue f x).getD v).isSentinel = true ∨
      f.Shape ((sentinelFieldValue f x).getD v) := by
  rw [sentinelFieldValue]
  split
  · exact Or.inl rfl
  · exact Or.inl rfl
  · exact Or.inl rfl
  · exact Or.inr h

theorem labelled_shape {x : Extracted} (name : Option String)
    (htype : f.fieldType ∈ [some .lookup, some .indirectLookup, some .dynamicFieldKey]) :
    (labelled f x name).isSentinel = true ∨ f.Shape (labelled f x name) := by
  rw [labelled]
  split_ifs
  · exact Or.inr (.lookup htype)
  · exact getD_sentinel (.lookup htype)

theorem decodeNumber_holds (signed : Bool) (htext : ¬f.IsText)
    (htype : f.fieldType ∈ [some .number, some .decimal, some .fieldIndex]) :
    f.Holds data bitOffset (decodeNumber f data bitOffset bitLength signed) := by
  rw [decodeNumber]
  refine extracted_holds htext fun x => getD_sentinel ?_
  dsimp only
  split_ifs with h
  · obtain ⟨hres, hunit, hquantity, hshift, hoffset⟩ := h
    exact .integer htype ⟨hres, Option.isNone_iff_eq_none.mp hunit,
      Option.isNone_iff_eq_none.mp hquantity, hshift, hoffset⟩
  · refine .number htype fun hunscaled => h ?_
    obtain ⟨hres, hunit, hquantity, hshift, hoffset⟩ := hunscaled
    exact ⟨hres, Option.isNone_iff_eq_none.mpr hunit, Option.isNone_iff_eq_none.mpr hquantity,
      hshift, hoffset⟩

theorem decodeStringFix_holds (htype : f.fieldType = some .stringFix) :
    f.Holds data bitOffset (decodeStringFix data bitOffset bitLength) := by
  rw [decodeStringFix]
  dsimp only
  by_cases haligned : bitOffset.toNat % 8 ≠ 0 ∨ bitLength.toNat % 8 ≠ 0
  · rw [if_pos haligned]
    exact .unsupported
  rw [if_neg haligned]
  by_cases hroom : bitOffset.toNat / 8 + bitLength.toNat / 8 > data.length
  · rw [if_pos hroom]
    exact .absent
  rw [if_neg hroom]
  by_cases hempty : (trimEnd isPaddingByte (((data.drop (bitOffset.toNat / 8)).take
      (bitLength.toNat / 8)).takeWhile (· ≠ 0))).isEmpty = true
  · rw [if_pos hempty]
    exact .absent
  rw [if_neg hempty]
  refine .shaped ?_ (.string (by rw [htype]; decide))
  -- a text that starts past the payload is empty
  by_contra hout
  have hdrop : data.drop (bitOffset.toNat / 8) = [] := List.drop_eq_nil_of_le (by omega)
  rw [hdrop, List.take_nil, List.takeWhile_nil] at hempty
  exact hempty rfl

omit [Float64 F] in
theorem isText_of {t : Option FieldType} (htype : f.fieldType = t)
    (h : t ∈ [some .stringFix, some .stringLz, some .stringLau]) : f.IsText := by
  rw [FieldInfo.IsText, htype]
  exact h

theorem paddedText_holds (s : List Char) (hin : bitOffset.toNat < data.length * 8)
    (htype : f.IsText) :
    f.Holds data bitOffset (paddedText s) := by
  rw [paddedText]
  split_ifs
  · exact .absent
  · exact .shaped hin (.string htype)

theorem lt_of_drop {off : ℕ} {b : UInt8} {rest : List UInt8}
    (h : data.drop (off / 8) = b :: rest) : off < data.length * 8 := by
  by_contra hout
  rw [List.drop_eq_nil_of_le (by omega)] at h
  nomatch h

theorem decodeStringLz_holds (htype : f.fieldType = some .stringLz) :
    f.Holds data bitOffset (decodeStringLz data bitOffset bitLength) := by
  rw [decodeStringLz]
  dsimp only
  by_cases haligned : bitOffset.toNat % 8 ≠ 0
  · rw [if_pos haligned]
    exact .unsupported
  rw [if_neg haligned]
  split
  · exact .absent
  · next hdrop => exact paddedText_holds _ (lt_of_drop hdrop) (isText_of htype (by decide))

theorem decodeStringLau_holds (htype : f.fieldType = some .stringLau) :
    f.Holds data bitOffset (decodeStringLau data bitOffset : FieldValue F × UInt32).1 := by
  rw [decodeStringLau]
  dsimp only
  by_cases haligned : bitOffset.toNat % 8 ≠ 0
  · rw [if_pos haligned]
    exact .unsupported
  rw [if_neg haligned]
  split
  · next hdrop =>
    split_ifs
    · exact .absent
    · exact paddedText_holds _ (lt_of_drop hdrop) (isText_of htype (by decide))
    · exact paddedText_holds _ (lt_of_drop hdrop) (isText_of htype (by decide))
  · exact .absent

/-! ## One field -/

omit [Float64 F] in
theorem not_isText {t : Option FieldType} (htype : f.fieldType = t)
    (h : t ∉ [some .stringFix, some .stringLz, some .stringLau]) : ¬f.IsText := by
  rw [FieldInfo.IsText, htype]
  exact h

theorem decodeFixed_holds (claim : List UInt8 → List (DecodedField F)) (info : PgnInfo F)
    (db : PgnDatabase F) (ctx : DecodeContext F) :
    f.Holds data bitOffset (decodeFixed claim f info data db bitOffset bitLength ctx).1 := by
  unfold decodeFixed
  dsimp only
  rcases htype : f.fieldType with - | t
  · exact .unsupported
  cases t with
  | number | decimal | fieldIndex =>
      exact decodeNumber_holds _ (not_isText htype (by decide)) (by rw [htype]; decide)
  | float =>
      dsimp only [decodeFloat]
      split_ifs
      · exact .unsupported
      · exact extracted_holds (not_isText htype (by decide)) fun _ => Or.inr (.float htype)
  | lookup => exact extracted_holds (not_isText htype (by decide)) fun _ => labelled_shape _ (by rw [htype]; decide)
  | indirectLookup => exact extracted_holds (not_isText htype (by decide)) fun _ => labelled_shape _ (by rw [htype]; decide)
  | bitLookup => exact extracted_holds (not_isText htype (by decide)) fun _ => Or.inr (.bitField htype)
  | mmsi =>
      dsimp only [decodeMmsi]
      split_ifs
      · exact .unsupported
      · exact extracted_holds (not_isText htype (by decide)) fun _ => Or.inr (.mmsi htype)
  | pgn =>
      dsimp only [decodePgnField]
      split_ifs
      · exact .unsupported
      · exact extracted_holds (not_isText htype (by decide)) fun _ => Or.inr (.pgn htype)
  | date =>
      dsimp only [decodeDate]
      split_ifs
      · exact .unsupported
      · exact extracted_holds (not_isText htype (by decide)) fun _ => getD_sentinel (.date htype)
  | time | duration => exact extracted_holds (not_isText htype (by decide)) fun _ => getD_sentinel (.time (by rw [htype]; decide))
  | stringFix => exact decodeStringFix_holds htype
  | stringLz => exact decodeStringLz_holds htype
  | dynamicFieldKey =>
      dsimp only [decodeDynamicFieldKey]
      split
      · exact .absent
      · next x hx =>
        rcases labelled_shape (f := f) (x := x) ((f.lookupFieldTypeEnumeration.bind fun n =>
          db.fieldTypeLookup n x.raw).map (·.name)) (by rw [htype]; decide) with hs | hs
        · exact .sentinel hs (not_isText htype (by decide))
        · exact .shaped (lt_of_extractBits hx) hs
  | reserved | spare | binary | isoName | dynamicFieldLength => exact .other (by rw [htype]; decide)
  | stringLau | «variable» | dynamicFieldValue => exact .unsupported

/-- A field of its own type holds one of its type's values, and no other's precision. -/
structure DecodedField.Own (d : DecodedField F) (data : List UInt8) : Prop where
  holds : ∃ off, d.bitOffset = some off ∧ d.info.Holds data off d.value
  overrides : d.info.fieldType ≠ some .dynamicFieldValue → d.overrides = none

theorem own_single (value : FieldValue F) (h : f.Holds data bitOffset value) :
    (DecodedField.single f value bitOffset bitLength none).Own data where
  holds := ⟨bitOffset, rfl, h⟩
  overrides _ := rfl

theorem decodeSelfContained_own {claim : List UInt8 → List (DecodedField F)} {info : PgnInfo F}
    {db : PgnDatabase F} {ctx ctx' : DecodeContext F} {d : DecodedField F} {bits : UInt32}
    (h : decodeSelfContained claim f info data db bitOffset ctx = some (d, bits, ctx')) :
    d.info = f ∧ d.Own data := by
  unfold decodeSelfContained at h
  dsimp only at h
  split at h
  · next _ htype =>
    cases h
    exact ⟨rfl, own_single _ (decodeStringLau_holds htype)⟩
  · next _ htype =>
    cases h
    exact ⟨rfl, ⟨_, rfl, .other (by
      show f.fieldType ∈ _
      rw [htype]
      decide)⟩, fun hne => absurd htype hne⟩
  · next htype _ =>
    cases h
    exact ⟨rfl, own_single _ (decodeStringLz_holds htype)⟩
  · next htype _ =>
    cases h
    exact ⟨rfl, own_single _ (.other (by rw [htype]; decide))⟩
  · nomatch h
  · cases h
    exact ⟨rfl, own_single _ (decodeFixed_holds claim info db ctx)⟩

end Holds

/-! ## The fields of a record -/

namespace Source

variable {s : Source F}

/-- The field is one of the definition's, with a value of its own type. -/
def Decoded (s : Source F) (d : DecodedField F) : Prop :=
  d.info ∈ s.info.fields ∧ (d.info.fieldType ≠ some .variable → d.Own s.data)

theorem decoded_of_decodes {f : FieldInfo F} (hf : f ∈ s.info.fields) {off : UInt32}
    {ctx ctx' : DecodeContext F} {d : DecodedField F} {bits : UInt32}
    (h : decodeOneFieldAt s.claim f s.info s.data s.db off ctx = some (d, bits, ctx')) :
    s.Decoded d := by
  rw [decodeOneFieldAt] at h
  by_cases hvariable : f.fieldType = some .variable
  · rw [if_pos hvariable, decodeVariable] at h
    obtain ⟨p, -, h⟩ := Option.bind_eq_some_iff.mp h
    obtain ⟨i, -, h⟩ := Option.bind_eq_some_iff.mp h
    obtain ⟨target, -, h⟩ := Option.bind_eq_some_iff.mp h
    obtain ⟨field, -, h⟩ := Option.bind_eq_some_iff.mp h
    by_cases htarget : field.fieldType = some .variable
    · rw [if_pos htarget] at h
      nomatch h
    · rw [if_neg htarget] at h
      obtain ⟨sub, -, h⟩ := Option.bind_eq_some_iff.mp h
      cases h
      exact ⟨hf, fun hne => absurd hvariable hne⟩
  · rw [if_neg hvariable] at h
    obtain ⟨hinfo, hown⟩ := decodeSelfContained_own h
    exact ⟨hinfo ▸ hf, fun _ => hown⟩

/-- A place in a repeating set changes nothing of it. -/
theorem Decoded.labelled {d : DecodedField F} (h : s.Decoded d) (repeatSet : UInt8)
    (repeatIndex : Option UInt32) : s.Decoded { d with repeatSet, repeatIndex } :=
  ⟨h.1, fun hne => ⟨(h.2 hne).holds, (h.2 hne).overrides⟩⟩

omit [Float64 F] in
theorem forall_append_one {P : DecodedField F → Prop} {out : List (DecodedField F)}
    {d : DecodedField F} (hout : ∀ e ∈ out, P e) (hd : P d) : ∀ e ∈ out ++ [d], P e := by
  intro e he
  rcases List.mem_append.mp he with he | he
  · exact hout e he
  · rw [List.mem_singleton.mp he]
    exact hd

theorem decodeSet_decoded (setNumber : UInt8) (countWasZero : Bool) (iter : UInt32)
    {set : List (FieldInfo F)} (hset : ∀ f ∈ set, f ∈ s.info.fields) (produced : Bool)
    {w : Walk F} (hw : ∀ d ∈ w.out, s.Decoded d) :
    ∀ d ∈ (s.decodeSet setNumber countWasZero iter set produced w).2.out, s.Decoded d := by
  induction set generalizing produced w with
  | nil => exact hw
  | cons f set ih =>
      obtain ⟨hf, hset⟩ := List.forall_mem_cons.mp hset
      rw [decodeSet]
      by_cases hcondition : f.condition.isSome = true
      · rw [if_pos hcondition]
        exact ih hset _ hw
      rw [if_neg hcondition]
      dsimp only
      split
      · next d bits ctx hd =>
        exact ih hset _ (forall_append_one hw ((decoded_of_decodes hf hd).labelled _ _))
      · split
        · exact ih hset _ hw
        · exact ih hset _ hw

theorem decodeIterations_decoded (setNumber : UInt8) (countWasZero : Bool)
    {set : List (FieldInfo F)} (hset : ∀ f ∈ set, f ∈ s.info.fields) (n : ℕ) (iter : UInt32)
    {w : Walk F} (hw : ∀ d ∈ w.out, s.Decoded d) :
    ∀ d ∈ (s.decodeIterations setNumber countWasZero set n iter w).out, s.Decoded d := by
  induction n generalizing iter w with
  | zero => exact hw
  | succ n ih =>
      have hstep := decodeSet_decoded setNumber countWasZero iter hset false hw
      rw [decodeIterations]
      by_cases hend : w.cursorBits ≥ s.payloadBits
      · rw [if_pos hend]
        exact hw
      rw [if_neg hend]
      dsimp only
      split_ifs
      · exact ih (iter + 1) hstep
      · exact hstep

theorem decodeRepeating_decoded {set : List (FieldInfo F)} (hset : ∀ f ∈ set, f ∈ s.info.fields)
    (countField : Option UInt32) (setNumber : UInt8) {w : Walk F}
    (hw : ∀ d ∈ w.out, s.Decoded d) :
    ∀ d ∈ (s.decodeRepeating set countField setNumber w).out, s.Decoded d := by
  unfold decodeRepeating
  cases set with
  | nil => exact hw
  | cons first rest => exact decodeIterations_decoded setNumber _ hset _ 0 hw

theorem walk_decoded {skip : ℕ} {fields : List (FieldInfo F)}
    (hfields : ∀ f ∈ fields, f ∈ s.info.fields) {entered : Bool × Bool} {w : Walk F}
    (hw : ∀ d ∈ w.out, s.Decoded d) :
    ∀ d ∈ (s.walk skip fields entered w).1.out, s.Decoded d := by
  induction fields generalizing skip entered w with
  | nil =>
      rw [walk]
      exact hw
  | cons f fields ih =>
      obtain ⟨hf, htail⟩ := List.forall_mem_cons.mp hfields
      have htake : ∀ n, ∀ g ∈ (f :: fields).take n, g ∈ s.info.fields := fun n g hg =>
        hfields g (List.mem_of_mem_take hg)
      cases skip with
      | succ skip =>
          rw [walk]
          exact ih htail hw
      | zero =>
          rw [walk]
          split
          · exact ih htail (decodeRepeating_decoded (htake _) _ 1 hw)
          · exact ih htail (decodeRepeating_decoded (htake _) _ 2 hw)
          · split_ifs
            · exact ih htail hw
            · dsimp only
              split
              · next d bits ctx hd =>
                exact ih htail (forall_append_one hw (decoded_of_decodes hf hd))
              · exact ih htail hw

/-- Every field of a record is one of its definition's, with a value of its own type. -/
theorem decode_decoded (s : Source F) : ∀ d ∈ s.decode.1, s.Decoded d :=
  walk_decoded (fun _ h => h) nofun

end Source

theorem decode_fields {db : PgnDatabase F} {frame : RawFrame} {info : PgnInfo F}
    {d : DecodedPgn F} (hpick : db.pickVariant frame = some info)
    (hdecode : db.decode frame = .ok d) :
    ∀ f ∈ d.fields, f.info ∈ info.fields ∧
      (f.info.fieldType ≠ some .variable → f.Own frame.data) := by
  rw [PgnDatabase.decode, hpick] at hdecode
  cases hdecode
  exact Source.decode_decoded ⟨claimFields db, info, frame.data, db⟩

end Canboat
