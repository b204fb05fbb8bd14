import Canboat.Core.BitFields
import Canboat.Decode.Fields

/-!
# The NAME of a device

An ISO address claim's payload is the 64-bit NAME. The code packs the NAME again from the
claim's decoded fields, which lose a pattern that stands for no value.
-/

namespace Canboat

/-! ## Packing a NAME -/

section

variable {F : Type} [Float64 F]

def FieldValue.asI64 : FieldValue F → Option Int64
  | .integer v => some v
  | .number v => some (Float64.toI64 v)
  | .lookup value _ => some value.toInt64
  | .bitField value _ => some value.toInt64
  | .time raw _ => some raw
  | .date d => some (Int64.ofNat d.toNat)
  | .mmsi v => some (Int64.ofNat v.toNat)
  | .pgn value _ => some (Int64.ofNat value.toNat)
  | _ => none

def DecodedPgn.fieldByName (d : DecodedPgn F) (name : String) : Option (DecodedField F) :=
  d.fields.find? fun f => f.repeatSet = 0 ∧ f.info.name = name

/-- Through the index by order. -/
def DecodedPgn.field (d : DecodedPgn F) (order : UInt8) : Option (DecodedField F) :=
  if order = 0 then none
  else
    (d.indexByOrder[order.toNat - 1]?).bind fun idx =>
      if idx < 0 then none else d.fields[idx.toInt.toNat]?

/-- A field of the claim, and its place in the NAME. -/
structure NamePart where
  name : String
  place : Place
deriving DecidableEq, Repr

/-- The reserved bit 48 counts as zero. -/
def nameParts : List NamePart :=
  [ ⟨"Unique Number", 0, 21⟩,
    ⟨"Manufacturer Code", 21, 11⟩,
    ⟨"Device Instance Lower", 32, 3⟩,
    ⟨"Device Instance Upper", 35, 5⟩,
    ⟨"Device Function", 40, 8⟩,
    ⟨"Device Class", 49, 7⟩,
    ⟨"System Instance", 56, 4⟩,
    ⟨"Industry Group", 60, 3⟩,
    ⟨"Arbitrary address capable", 63, 1⟩ ]

/-- A field without a number counts as zero. -/
def DecodedPgn.namePart (d : DecodedPgn F) (p : NamePart) : UInt64 :=
  (((d.fieldByName p.name).bind (·.value.asI64)).getD 0).toUInt64 &&&
    ((1 <<< UInt64.ofNat p.place.bits) - 1)

/-- The NAME in the fields of an address claim. -/
def DecodedPgn.isoName (d : DecodedPgn F) : Option UInt64 :=
  if d.pgn ≠ 60928 then none
  else
    some (nameParts.foldl (fun v p => v ||| (d.namePart p <<< UInt64.ofNat p.place.shift)) 0)

/-! ## Walks without repeating sets -/

/-- A field at a place of its own, of a type that says nothing about the fields after it. -/
structure FieldInfo.Placed (f : FieldInfo F) (off len : UInt32) : Prop where
  offset : f.bitOffset = some off
  length : f.bitLength = some len
  always : f.condition = none
  noMarker : f.isDynamicLengthMarker = false
  type : f.fieldType ∈ [some .number, some .lookup, some .indirectLookup, some .spare]

/-- The value at the field's place. -/
def placedValue (info : PgnInfo F) (data : List UInt8) (db : PgnDatabase F) (f : FieldInfo F) :
    FieldValue F :=
  (decodeFixed (fun _ => []) f info data db (f.bitOffset.getD 0) (f.bitLength.getD 0) .empty).1

def placedField (info : PgnInfo F) (data : List UInt8) (db : PgnDatabase F) (f : FieldInfo F) :
    DecodedField F :=
  .single f (placedValue info data db f) (f.bitOffset.getD 0) (f.bitLength.getD 0) none

/-- No PGN for later fields to go by. -/
def FieldValue.isPgn : FieldValue F → Bool
  | .pgn _ _ => true
  | _ => false

omit [Float64 F] in
theorem extracted_isPgn {data : List UInt8} {off len : UInt32} {signed : Bool} {offset : Int64}
    {value : Extracted → FieldValue F} (h : ∀ ex, (value ex).isPgn = false) :
    (extracted data off len signed offset value).isPgn = false := by
  rw [extracted]
  split
  · rfl
  · exact h _

omit [Float64 F] in
theorem sentinelFieldValue_isPgn (f : FieldInfo F) (ex : Extracted) {v : FieldValue F}
    (hv : v.isPgn = false) : ((sentinelFieldValue f ex).getD v).isPgn = false := by
  rw [sentinelFieldValue]
  split
  · rfl
  · rfl
  · rfl
  · exact hv

omit [Float64 F] in
theorem labelled_isPgn (f : FieldInfo F) (ex : Extracted) (name : Option String) :
    (labelled f ex name).isPgn = false := by
  rw [labelled]
  split
  · rfl
  · exact sentinelFieldValue_isPgn f ex rfl

theorem decodeNumber_isPgn (f : FieldInfo F) (data : List UInt8) (off len : UInt32)
    (signed : Bool) : (decodeNumber f data off len signed).isPgn = false := by
  refine extracted_isPgn fun ex => sentinelFieldValue_isPgn f ex ?_
  simp only
  split <;> rfl

omit [Float64 F] in
theorem decodeReserved_isPgn (data : List UInt8) (off len : UInt32) (signed : Bool)
    (offset : Int64) (isReserved : Bool) :
    (decodeReserved data off len signed offset isReserved : FieldValue F).isPgn = false := by
  refine extracted_isPgn fun ex => ?_
  simp only
  split
  · rfl
  · split <;> rfl

theorem note_of_placed {f : FieldInfo F} {off len : UInt32} (hf : f.Placed off len)
    {v : FieldValue F} (hv : v.isPgn = false) (ctx : DecodeContext F) : ctx.note f v = ctx := by
  have hindex : f.fieldType ≠ some .fieldIndex := by
    intro h
    have htype := hf.type
    rw [h] at htype
    exact absurd htype (by decide)
  unfold DecodeContext.note
  rw [hf.noMarker]
  cases v with
  | pgn p s => cases hv
  | integer n => simp only [if_neg hindex, Bool.false_eq_true, if_false]
  | _ => rfl

theorem decodeOneFieldAt_placed (claim : List UInt8 → List (DecodedField F)) (info : PgnInfo F)
    (data : List UInt8) (db : PgnDatabase F) {f : FieldInfo F} {off len : UInt32}
    (hf : f.Placed off len) :
    decodeOneFieldAt claim f info data db off .empty =
      some (placedField info data db f, len, .empty) := by
  have hnote := fun {v : FieldValue F} hv => note_of_placed hf (v := v) hv .empty
  have htype := hf.type
  rw [decodeOneFieldAt, placedField, placedValue, hf.offset, hf.length, Option.getD_some,
    Option.getD_some]
  simp only [List.mem_cons, List.not_mem_nil, or_false] at htype
  rcases htype with h | h | h | h
  · rw [if_neg (by rw [h]; decide), decodeSelfContained, hf.length]
    simp only [h, decodeFixed]
    rw [hnote (decodeNumber_isPgn f data off len _)]
  · rw [if_neg (by rw [h]; decide), decodeSelfContained, hf.length]
    simp only [h, decodeFixed]
    rw [hnote (show (decodeLookup f data off len db).isPgn = false from
      extracted_isPgn fun ex => labelled_isPgn _ _ _)]
  · rw [if_neg (by rw [h]; decide), decodeSelfContained, hf.length]
    simp only [h, decodeFixed]
    rw [hnote (show (decodeIndirectLookup f info data off len db).isPgn = false from
      extracted_isPgn fun ex => labelled_isPgn _ _ _)]
  · rw [if_neg (by rw [h]; decide), decodeSelfContained, hf.length]
    simp only [h, decodeFixed]
    rw [hnote (decodeReserved_isPgn data off len _ _ _)]

/-- A field at its place, outside any set. -/
theorem walk_cons (s : Source F) (hset1 : s.info.repeatingFieldSet1.size = none)
    (hset2 : s.info.repeatingFieldSet2.size = none) {f : FieldInfo F}
    (halways : f.condition = none) {off bits : UInt32} (hoff : f.bitOffset = some off)
    {w : Walk F} {d : DecodedField F} {ctx : DecodeContext F}
    (hdecode : decodeOneFieldAt s.claim f s.info s.data s.db off w.ctx = some (d, bits, ctx))
    (fields : List (FieldInfo F)) (entered : Bool × Bool) :
    s.walk 0 (f :: fields) entered w =
      s.walk 0 fields entered ⟨off + bits, w.out ++ [d], ctx⟩ := by
  have hstart : ∀ set : RepeatingFieldSet, set.size = none → Source.startOf set f = none := by
    intro set hset
    rw [Source.startOf, hset, ite_self]
  rw [Source.walk, hstart _ hset1, hstart _ hset2]
  simp only
  rw [halways, if_neg (by simp), hoff]
  simp only [Option.getD_some, hdecode]

/-- The walk decodes each field at its place, where none says anything about another. -/
theorem walk_each (s : Source F) (hset1 : s.info.repeatingFieldSet1.size = none)
    (hset2 : s.info.repeatingFieldSet2.size = none) (g : FieldInfo F → DecodedField F)
    (fields : List (FieldInfo F))
    (hfields : ∀ f ∈ fields, f.condition = none ∧ ∃ off len, f.bitOffset = some off ∧
      decodeOneFieldAt s.claim f s.info s.data s.db off .empty = some (g f, len, .empty))
    (entered : Bool × Bool) (cursor : UInt32) (out : List (DecodedField F)) :
    ∃ cursor', s.walk 0 fields entered ⟨cursor, out, .empty⟩ =
      (⟨cursor', out ++ fields.map g, .empty⟩, entered) := by
  induction fields generalizing cursor out with
  | nil => exact ⟨cursor, by rw [Source.walk, List.map_nil, List.append_nil]⟩
  | cons f fields ih =>
      obtain ⟨⟨halways, off, len, hoff, hdecode⟩, hfields⟩ := List.forall_mem_cons.mp hfields
      obtain ⟨cursor', hwalk⟩ := ih hfields (off + len) (out ++ [g f])
      refine ⟨cursor', ?_⟩
      rw [walk_cons s hset1 hset2 halways hoff hdecode, hwalk, List.append_assoc,
        List.singleton_append, List.map_cons]

theorem decodeFields_each (info : PgnInfo F) (data : List UInt8) (db : PgnDatabase F)
    (hset1 : info.repeatingFieldSet1.size = none) (hset2 : info.repeatingFieldSet2.size = none)
    (g : FieldInfo F → DecodedField F)
    (hfields : ∀ f ∈ info.fields, f.condition = none ∧ ∃ off len, f.bitOffset = some off ∧
      decodeOneFieldAt (claimFields db) f info data db off .empty = some (g f, len, .empty)) :
    decodeFields info data db = (info.fields.map g, false, false) := by
  obtain ⟨cursor, hwalk⟩ := walk_each ⟨claimFields db, info, data, db⟩ hset1 hset2 g info.fields
    hfields (false, false) 0 []
  rw [decodeFields, Source.decode, hwalk]
  rfl

/-- A payload that a definition without sets is picked for. -/
theorem decodeFields_placed (info : PgnInfo F) (data : List UInt8) (db : PgnDatabase F)
    (hset1 : info.repeatingFieldSet1.size = none) (hset2 : info.repeatingFieldSet2.size = none)
    (hfields : ∀ f ∈ info.fields, ∃ off len, f.Placed off len) :
    decodeFields info data db = (info.fields.map (placedField info data db), false, false) := by
  apply decodeFields_each info data db hset1 hset2
  intro f hf
  obtain ⟨off, len, hplaced⟩ := hfields f hf
  exact ⟨hplaced.always, off, len, hplaced.offset,
    decodeOneFieldAt_placed (claimFields db) info data db hplaced⟩

end

/-! ## The definition of the claim -/

def claimNumber (order : UInt8) (id : Identifier) (name : String) (bitOffset bitLength : UInt32) :
    FieldInfo Binary64 :=
  { (FieldInfo.number (Float64.ofInt 0) order id bitLength : FieldInfo Binary64) with
    name, bitOffset := some bitOffset, resolution := some (Float64.ofInt 1),
    signed := some false }

/-- PGN 60928, of which there is one definition. -/
def isoAddressClaim : PgnInfo Binary64 where
  pgn := 60928
  id := ⟨"isoAddressClaim", by decide⟩
  description := "ISO Address Claim"
  packetType := .single
  fallback := none
  priority := some 6
  length := some 8
  fields :=
    [ { claimNumber 1 ⟨"uniqueNumber", by decide⟩ "Unique Number" 0 21 with
        unknownValue := some 2097151, outOfRangeValue := some 2097150,
        reservedValue := some 2097149 },
      { claimNumber 2 ⟨"manufacturerCode", by decide⟩ "Manufacturer Code" 21 11 with
        fieldType := some .lookup, lookupEnumeration := some "MANUFACTURER_CODE",
        unknownValue := some 2047, outOfRangeValue := some 2046, reservedValue := some 2045 },
      claimNumber 3 ⟨"deviceInstanceLower", by decide⟩ "Device Instance Lower" 32 3,
      claimNumber 4 ⟨"deviceInstanceUpper", by decide⟩ "Device Instance Upper" 35 5,
      { claimNumber 5 ⟨"deviceFunction", by decide⟩ "Device Function" 40 8 with
        fieldType := some .indirectLookup, lookupIndirectEnumeration := some "DEVICE_FUNCTION",
        lookupIndirectEnumerationFieldOrder := some 7,
        unknownValue := some 255, outOfRangeValue := some 254, reservedValue := some 253 },
      { claimNumber 6 ⟨"spare", by decide⟩ "Spare" 48 1 with
        fieldType := some .spare, signed := none },
      { claimNumber 7 ⟨"deviceClass", by decide⟩ "Device Class" 49 7 with
        fieldType := some .lookup, lookupEnumeration := some "DEVICE_CLASS",
        unknownValue := some 127, outOfRangeValue := some 126 },
      { claimNumber 8 ⟨"systemInstance", by decide⟩ "System Instance" 56 4 with
        unknownValue := some 15, outOfRangeValue := some 14 },
      { claimNumber 9 ⟨"industryGroup", by decide⟩ "Industry Group" 60 3 with
        fieldType := some .lookup, lookupEnumeration := some "INDUSTRY_CODE",
        unknownValue := some 7 },
      { claimNumber 10 ⟨"arbitraryAddressCapable", by decide⟩ "Arbitrary address capable" 63 1 with
        fieldType := some .lookup, lookupEnumeration := some "YES_NO_1BIT" } ]
  repeatingFieldSet1 := .none
  repeatingFieldSet2 := .none
  idIsPinned := false

theorem isoAddressClaim_placed :
    ∀ f ∈ isoAddressClaim.fields, ∃ off len, f.Placed off len := by
  simp only [isoAddressClaim, List.forall_mem_cons, List.not_mem_nil, false_implies, implies_true,
    and_true]
  exact ⟨⟨_, _, rfl, rfl, rfl, rfl, by decide⟩, ⟨_, _, rfl, rfl, rfl, rfl, by decide⟩,
    ⟨_, _, rfl, rfl, rfl, rfl, by decide⟩, ⟨_, _, rfl, rfl, rfl, rfl, by decide⟩,
    ⟨_, _, rfl, rfl, rfl, rfl, by decide⟩, ⟨_, _, rfl, rfl, rfl, rfl, by decide⟩,
    ⟨_, _, rfl, rfl, rfl, rfl, by decide⟩, ⟨_, _, rfl, rfl, rfl, rfl, by decide⟩,
    ⟨_, _, rfl, rfl, rfl, rfl, by decide⟩, ⟨_, _, rfl, rfl, rfl, rfl, by decide⟩⟩

/-! ## What the claim's fields read -/

/-- The bits at the field's place. -/
def pattern (data : List UInt8) (f : FieldInfo Binary64) : UInt64 :=
  UInt64.ofNat (bitsAt data (f.bitOffset.getD 0).toNat (f.bitLength.getD 0).toNat)

/-- The name that a lookup has for its pattern. -/
def patternName (db : PgnDatabase Binary64) (data : List UInt8) (f : FieldInfo Binary64) :
    Option String :=
  match f.fieldType with
  | some .lookup =>
      ((f.lookupEnumeration.bind db.lookup).bind (·.get (pattern data f))).map (·.name)
  | some .indirectLookup => indirectName f isoAddressClaim data db (pattern data f)
  | _ => none

/-- The pattern is one of the field's marks for no value, and has no name. -/
def Withheld (db : PgnDatabase Binary64) (data : List UInt8) (f : FieldInfo Binary64) : Prop :=
  some (pattern data f) ∈ [f.unknownValue, f.outOfRangeValue, f.reservedValue] ∧
    patternName db data f = none

instance (db : PgnDatabase Binary64) (data : List UInt8) (f : FieldInfo Binary64) :
    Decidable (Withheld db data f) := by
  unfold Withheld
  infer_instance

/-- A number without a scale, which decodes to an integer. -/
def unscaled (f : FieldInfo Binary64) : Bool :=
  Float64.beq (f.resolution.getD (Float64.ofInt 1)) (Float64.ofInt 1) && f.unit.isNone &&
    f.physicalQuantity.isNone && Float64.beq f.unitOffset (Float64.ofInt 0) &&
    f.offset.isNone && !f.signed.getD false

theorem sentinelFieldValue_eq_none {F : Type} (f : FieldInfo F) (ex : Extracted) :
    sentinelFieldValue f ex = none ↔
      some ex.raw ∉ [f.unknownValue, f.outOfRangeValue, f.reservedValue] := by
  simp only [sentinelFieldValue, classifySentinel, List.mem_cons, List.not_mem_nil, or_false,
    not_or, eq_comm (a := some ex.raw)]
  split_ifs <;> simp_all

theorem sentinelFieldValue_asI64 {F : Type} [Float64 F] {f : FieldInfo F} {ex : Extracted}
    {v : FieldValue F} (h : sentinelFieldValue f ex = some v) : v.asI64 = none := by
  rw [sentinelFieldValue] at h
  split at h <;> cases h <;> rfl

/-- The pattern, unless it is withheld. -/
theorem asI64_getD_sentinel {F : Type} [Float64 F] (f : FieldInfo F) (ex : Extracted)
    (v : FieldValue F) :
    ((sentinelFieldValue f ex).getD v).asI64 =
      if some ex.raw ∈ [f.unknownValue, f.outOfRangeValue, f.reservedValue] then none
      else v.asI64 := by
  split_ifs with h
  · cases hs : sentinelFieldValue f ex with
    | none => exact absurd h ((sentinelFieldValue_eq_none f ex).mp hs)
    | some w => exact sentinelFieldValue_asI64 hs
  · rw [(sentinelFieldValue_eq_none f ex).mpr h, Option.getD_none]

theorem placedValue_asI64 (db : PgnDatabase Binary64) (data : List UInt8)
    {f : FieldInfo Binary64} {off len : UInt32} (hf : f.Placed off len)
    (htype : f.fieldType ≠ some .spare)
    (hnumber : f.fieldType = some .number → unscaled f = true)
    (hlen : 0 < len.toNat) (hwidth : len.toNat ≤ 64)
    (hin : off.toNat + len.toNat ≤ 8 * data.length) :
    (placedValue isoAddressClaim data db f).asI64 =
      if Withheld db data f then none else some (pattern data f).toInt64 := by
  obtain ⟨v, w, hextract, hv, -⟩ := extractBits_eq hlen hwidth hin
  have hpattern : pattern data f = v := by
    rw [pattern, hf.offset, hf.length, Option.getD_some, Option.getD_some, ← hv,
      UInt64.ofNat_toNat]
  have htypes := hf.type
  simp only [List.mem_cons, List.not_mem_nil, or_false] at htypes
  have hwithheld : Withheld db data f ↔
      some v ∈ [f.unknownValue, f.outOfRangeValue, f.reservedValue] ∧
        patternName db data f = none := by
    rw [← hpattern]
    rfl
  rw [placedValue, hf.offset, hf.length, Option.getD_some, Option.getD_some, hpattern,
    if_congr hwithheld rfl rfl]
  have hlabelled : ∀ name : Option String, (labelled f ⟨v.toInt64, w.toInt64, v⟩ name).asI64 =
      if some v ∈ [f.unknownValue, f.outOfRangeValue, f.reservedValue] ∧ name = none then none
      else some v.toInt64 := by
    intro name
    rw [labelled]
    cases name with
    | some n => simp [FieldValue.asI64]
    | none =>
        simp only [Option.isSome_none, Bool.false_eq_true, if_false, and_true]
        exact asI64_getD_sentinel f _ _
  rcases htypes with h | h | h | h
  · have hunscaled := hnumber h
    simp only [unscaled, Bool.and_eq_true, Bool.not_eq_true', Option.isNone_iff_eq_none] at hunscaled
    obtain ⟨⟨⟨⟨⟨hres, hunit⟩, hquantity⟩, hzero⟩, hoffset⟩, hsigned⟩ := hunscaled
    have hbeq : Float64.beq (Float64.ofInt 0 : Binary64) (Float64.ofInt 0) = true := by
      decide +kernel
    simp only [decodeFixed, h, decodeNumber, hoffset, hsigned, Option.getD_none, extracted,
      hextract, ne_eq, not_true_eq_false, if_false, patternName, and_true]
    rw [asI64_getD_sentinel]
    simp only [hres, hunit, hquantity, hzero]
    rw [if_pos (c := _ ∧ _)]
    · rfl
    · exact ⟨trivial, rfl, rfl, trivial, hbeq⟩
  · simp only [decodeFixed, h, decodeLookup, extracted, hextract, patternName, hpattern]
    exact hlabelled _
  · simp only [decodeFixed, h, decodeIndirectLookup, extracted, hextract, patternName, hpattern]
    exact hlabelled _
  · exact absurd h htype

/-- The value of a pattern that is not withheld. -/
theorem placedValue_of_not_withheld (db : PgnDatabase Binary64) (data : List UInt8)
    {f : FieldInfo Binary64} {off len : UInt32} (hf : f.Placed off len)
    (htype : f.fieldType ≠ some .spare)
    (hnumber : f.fieldType = some .number → unscaled f = true)
    (hlen : 0 < len.toNat) (hwidth : len.toNat ≤ 64)
    (hin : off.toNat + len.toNat ≤ 8 * data.length) (hw : ¬Withheld db data f) :
    placedValue isoAddressClaim data db f =
      if f.fieldType = some .number then .integer (pattern data f).toInt64
      else .lookup (pattern data f) (patternName db data f) := by
  obtain ⟨v, w, hextract, hv, -⟩ := extractBits_eq hlen hwidth hin
  have hpattern : pattern data f = v := by
    rw [pattern, hf.offset, hf.length, Option.getD_some, Option.getD_some, ← hv,
      UInt64.ofNat_toNat]
  have hmarks : patternName db data f = none →
      sentinelFieldValue f ⟨v.toInt64, w.toInt64, v⟩ = none := by
    intro hname
    rw [sentinelFieldValue_eq_none]
    intro hmem
    rw [← hpattern] at hmem
    exact hw ⟨hmem, hname⟩
  have hlabelled : labelled f ⟨v.toInt64, w.toInt64, v⟩ (patternName db data f) =
      .lookup v (patternName db data f) := by
    rw [labelled]
    cases hname : patternName db data f with
    | some n => rfl
    | none =>
        rw [if_neg (by simp), hmarks hname]
        rfl
  have htypes := hf.type
  simp only [List.mem_cons, List.not_mem_nil, or_false] at htypes
  rw [placedValue, hf.offset, hf.length, Option.getD_some, Option.getD_some]
  rcases htypes with h | h | h | h
  · have hunscaled := hnumber h
    simp only [unscaled, Bool.and_eq_true, Bool.not_eq_true', Option.isNone_iff_eq_none] at hunscaled
    obtain ⟨⟨⟨⟨⟨hres, hunit⟩, hquantity⟩, hzero⟩, hoffset⟩, hsigned⟩ := hunscaled
    have hbeq : Float64.beq (Float64.ofInt 0 : Binary64) (Float64.ofInt 0) = true := by
      decide +kernel
    have hname : patternName db data f = none := by
      unfold patternName
      rw [h]
    simp only [decodeFixed, h, decodeNumber, hoffset, hsigned, Option.getD_none, extracted,
      hextract, ne_eq, not_true_eq_false, if_false, if_true]
    rw [hmarks hname, Option.getD_none]
    simp only [hres, hunit, hquantity, hzero]
    rw [if_pos (c := _ ∧ _), hpattern]
    exact ⟨trivial, rfl, rfl, trivial, hbeq⟩
  · rw [if_neg (by rw [h]; decide)]
    simp only [decodeFixed, h, decodeLookup, extracted, hextract, hpattern]
    rw [← hlabelled, patternName, h, hpattern]
  · rw [if_neg (by rw [h]; decide)]
    simp only [decodeFixed, h, decodeIndirectLookup, extracted, hextract, hpattern]
    rw [← hlabelled, patternName, h, hpattern]
  · exact absurd h htype

/-! ## The NAME of a decoded claim -/

/-- The field that a part of the NAME is read from. -/
theorem nameParts_field {p : NamePart} (hp : p ∈ nameParts) :
    ∃ f ∈ isoAddressClaim.fields, isoAddressClaim.fields.find? (·.name = p.name) = some f ∧
      f.bitOffset = some (UInt32.ofNat p.place.shift) ∧
      f.bitLength = some (UInt32.ofNat p.place.bits) ∧ f.fieldType ≠ some .spare := by
  have hfind : ∀ p ∈ nameParts, (isoAddressClaim.fields.find? (·.name = p.name)).any (fun f =>
      f.bitOffset = some (UInt32.ofNat p.place.shift) ∧
        f.bitLength = some (UInt32.ofNat p.place.bits) ∧ f.fieldType ≠ some .spare) = true := by
    decide +kernel
  obtain ⟨f, hf, hplace⟩ := (Option.any_eq_true _ _).mp (hfind p hp)
  exact ⟨f, List.mem_of_find?_eq_some hf, hf, of_decide_eq_true hplace⟩

/-- Each field but the spare one has a part of the NAME. -/
theorem nameParts_of_field {f : FieldInfo Binary64} (hf : f ∈ isoAddressClaim.fields)
    (htype : f.fieldType ≠ some .spare) :
    ∃ p ∈ nameParts, isoAddressClaim.fields.find? (·.name = p.name) = some f := by
  have hnames : (isoAddressClaim.fields.map (·.name)).Nodup := by decide +kernel
  have hparts : ∀ f ∈ isoAddressClaim.fields, f.fieldType ≠ some .spare →
      f.name ∈ nameParts.map (·.name) := by
    decide +kernel
  obtain ⟨p, hp, hname⟩ := List.mem_map.mp (hparts f hf htype)
  refine ⟨p, hp, ?_⟩
  cases hg : isoAddressClaim.fields.find? (·.name = p.name) with
  | none => exact absurd hname.symm (by simpa using List.find?_eq_none.mp hg f hf)
  | some g =>
      have hgname : g.name = p.name := by simpa using List.find?_some hg
      rw [List.inj_on_of_nodup_map hnames (List.mem_of_find?_eq_some hg) hf
        (hgname.trans hname)]

theorem covered_nameParts {n : ℕ} (hn : n < 18446744073709551616)
    (hspare : n / 281474976710656 % 2 = 0) : CoveredBy n 0 (nameParts.map (·.place)) := by
  simp only [nameParts, List.map_cons, List.map_nil, CoveredBy]
  simpa [Nat.mod_one, Nat.div_eq_zero_iff] using ⟨hspare, hn⟩

theorem namePart_lt {F : Type} [Float64 F] (d : DecodedPgn F) {p : NamePart}
    (hp : p ∈ nameParts) : (d.namePart p).toNat < 2 ^ p.place.bits := by
  have hmask : ∀ p ∈ nameParts, ((1 : UInt64) <<< UInt64.ofNat p.place.bits - 1).toNat =
      2 ^ p.place.bits - 1 := by
    decide
  rw [DecodedPgn.namePart, UInt64.toNat_and, hmask p hp, Nat.and_two_pow_sub_one_eq_mod]
  exact Nat.mod_lt _ (Nat.two_pow_pos _)

/-- The payload's number. -/
def payloadName (data : List UInt8) : UInt64 := UInt64.ofNat (LittleEndian.decode data)

/-- The NAME is the payload's number exactly when each part is what the payload has there. -/
theorem isoName_eq_iff {F : Type} [Float64 F] (d : DecodedPgn F) (hpgn : d.pgn = 60928)
    {data : List UInt8} (hlen : data.length = 8) (hspare : bitsAt data 48 1 = 0) :
    d.isoName = some (payloadName data) ↔
      ∀ p ∈ nameParts, (d.namePart p).toNat = bitsAt data p.place.shift p.place.bits := by
  have hlt : LittleEndian.decode data < 18446744073709551616 := by
    have h := LittleEndian.decode_lt data
    rw [hlen] at h
    exact h
  have hpack := foldl_put_eq_iff NamePart.place d.namePart (LittleEndian.decode data) nameParts 0 0
    (by decide) (covered_nameParts hlt (by simpa [bitsAt] using hspare)) fun p hp => namePart_lt d hp
  rw [DecodedPgn.isoName, if_neg (not_not.mpr hpgn), Option.some.injEq, payloadName,
    ← UInt64.toNat_inj, UInt64.toNat_ofNat', Nat.mod_eq_of_lt hlt, hpack]
  simp [Nat.mod_one, bitsAt]

theorem nameParts_room {p : NamePart} (hp : p ∈ nameParts) :
    0 < p.place.bits ∧ p.place.shift + p.place.bits ≤ 64 := by
  have h : ∀ p ∈ nameParts, 0 < p.place.bits ∧ p.place.shift + p.place.bits ≤ 64 := by decide
  exact h p hp

/-- The pattern of a part's field is what the payload has at the part's place. -/
theorem toNat_pattern {p : NamePart} (hp : p ∈ nameParts) {f : FieldInfo Binary64}
    (hoff : f.bitOffset = some (UInt32.ofNat p.place.shift))
    (hlen : f.bitLength = some (UInt32.ofNat p.place.bits)) (data : List UInt8) :
    (pattern data f).toNat = bitsAt data p.place.shift p.place.bits := by
  obtain ⟨-, hroom⟩ := nameParts_room hp
  have hlt : bitsAt data p.place.shift p.place.bits < 2 ^ 64 :=
    Nat.lt_of_lt_of_le (bitsAt_lt _ _ _) (Nat.pow_le_pow_right (by decide) (by omega))
  rw [pattern, hoff, hlen, Option.getD_some, Option.getD_some, UInt32.toNat_ofNat',
    UInt32.toNat_ofNat', Nat.mod_eq_of_lt (by omega), Nat.mod_eq_of_lt (by omega),
    UInt64.toNat_ofNat', Nat.mod_eq_of_lt hlt]

/-- A part whose field has the pattern for its number. -/
theorem namePart_of_pattern {F : Type} [Float64 F] {d : DecodedPgn F} {p : NamePart}
    (hp : p ∈ nameParts) {f : FieldInfo Binary64}
    (hoff : f.bitOffset = some (UInt32.ofNat p.place.shift))
    (hlen : f.bitLength = some (UInt32.ofNat p.place.bits)) {data : List UInt8}
    (hvalue : (d.fieldByName p.name).bind (·.value.asI64) = some (pattern data f).toInt64) :
    (d.namePart p).toNat = bitsAt data p.place.shift p.place.bits := by
  have hmask : ∀ p ∈ nameParts, ((1 : UInt64) <<< UInt64.ofNat p.place.bits - 1).toNat =
      2 ^ p.place.bits - 1 := by
    decide
  rw [DecodedPgn.namePart, hvalue, Option.getD_some, UInt64.toUInt64_toInt64, UInt64.toNat_and,
    hmask p hp, Nat.and_two_pow_sub_one_eq_mod, toNat_pattern hp hoff hlen,
    Nat.mod_eq_of_lt (bitsAt_lt _ _ _)]

theorem namePart_of_none {F : Type} [Float64 F] {d : DecodedPgn F} {p : NamePart}
    (hvalue : (d.fieldByName p.name).bind (·.value.asI64) = none) : d.namePart p = 0 := by
  rw [DecodedPgn.namePart, hvalue, Option.getD_none]
  exact UInt64.zero_and

/-- No pattern of zeros is withheld. -/
theorem pattern_ne_zero_of_withheld {db : PgnDatabase Binary64} {data : List UInt8}
    {f : FieldInfo Binary64} (hf : f ∈ isoAddressClaim.fields) (hw : Withheld db data f) :
    pattern data f ≠ 0 := by
  have hmarks : ∀ f ∈ isoAddressClaim.fields,
      some 0 ∉ [f.unknownValue, f.outOfRangeValue, f.reservedValue] := by
    decide +kernel
  intro hzero
  have hmem := hw.1
  rw [hzero] at hmem
  exact hmarks f hf hmem

/-- The record that the claim's payload decodes to. -/
def decodedClaim (db : PgnDatabase Binary64) (frame : RawFrame) : DecodedPgn Binary64 where
  timestamp := frame.timestamp
  prio := frame.prio
  pgn := frame.pgn
  src := frame.src
  dst := frame.dst
  description := isoAddressClaim.description
  id := isoAddressClaim.id
  idIsPinned := isoAddressClaim.idIsPinned
  data := frame.data
  fields := isoAddressClaim.fields.map (placedField isoAddressClaim frame.data db)
  hasRepeatingSet := (false, false)
  indexByOrder :=
    buildIndexByOrder (isoAddressClaim.fields.map (placedField isoAddressClaim frame.data db))

theorem decode_claim {db : PgnDatabase Binary64} {frame : RawFrame}
    (hpick : db.pickVariant frame = some isoAddressClaim) :
    db.decode frame = .ok (decodedClaim db frame) := by
  rw [PgnDatabase.decode, hpick]
  simp only
  rw [decodeFields_placed isoAddressClaim frame.data db rfl rfl isoAddressClaim_placed]
  rfl

theorem decodedClaim_fieldByName (db : PgnDatabase Binary64) (frame : RawFrame) (name : String) :
    (decodedClaim db frame).fieldByName name =
      (isoAddressClaim.fields.find? (·.name = name)).map
        (placedField isoAddressClaim frame.data db) := by
  rw [DecodedPgn.fieldByName, decodedClaim, List.find?_map]
  congr 1
  congr 1
  funext f
  exact decide_eq_decide.mpr (by simp [placedField, DecodedField.single])

theorem decodedClaim_value (db : PgnDatabase Binary64) {frame : RawFrame}
    (hlen : frame.data.length = 8) {p : NamePart} (hp : p ∈ nameParts) {f : FieldInfo Binary64}
    (hf : f ∈ isoAddressClaim.fields)
    (hfind : isoAddressClaim.fields.find? (·.name = p.name) = some f)
    (hoff : f.bitOffset = some (UInt32.ofNat p.place.shift))
    (hwidth : f.bitLength = some (UInt32.ofNat p.place.bits))
    (htype : f.fieldType ≠ some .spare) :
    ((decodedClaim db frame).fieldByName p.name).bind (·.value.asI64) =
      if Withheld db frame.data f then none else some (pattern frame.data f).toInt64 := by
  have hunscaled : ∀ f ∈ isoAddressClaim.fields, f.fieldType = some .number →
      unscaled f = true := by
    decide +kernel
  obtain ⟨off, len, hplaced⟩ := isoAddressClaim_placed f hf
  obtain ⟨hbits, hroom⟩ := nameParts_room hp
  have hoffNat : off.toNat = p.place.shift := by
    rw [Option.some.inj (hplaced.offset.symm.trans hoff), UInt32.toNat_ofNat',
      Nat.mod_eq_of_lt (by omega)]
  have hlenNat : len.toNat = p.place.bits := by
    rw [Option.some.inj (hplaced.length.symm.trans hwidth), UInt32.toNat_ofNat',
      Nat.mod_eq_of_lt (by omega)]
  rw [decodedClaim_fieldByName, hfind, Option.map_some, Option.bind_some]
  exact placedValue_asI64 db frame.data hplaced htype (hunscaled f hf) (by omega) (by omega)
    (by omega)

/-- The decoded claim has the payload's number for its NAME unless a pattern is withheld. -/
theorem isoName_decodedClaim (db : PgnDatabase Binary64) {frame : RawFrame}
    (hpgn : frame.pgn = 60928) (hlen : frame.data.length = 8)
    (hspare : bitsAt frame.data 48 1 = 0) :
    (decodedClaim db frame).isoName = some (payloadName frame.data) ↔
      ∀ f ∈ isoAddressClaim.fields, ¬Withheld db frame.data f := by
  rw [isoName_eq_iff _ hpgn hlen hspare]
  constructor
  · intro hparts f hf hw
    by_cases htype : f.fieldType = some .spare
    · have hmarks : ∀ f ∈ isoAddressClaim.fields, f.fieldType = some .spare →
          [f.unknownValue, f.outOfRangeValue, f.reservedValue] = [none, none, none] := by
        decide +kernel
      have hmem := hw.1
      rw [hmarks f hf htype] at hmem
      simp at hmem
    · obtain ⟨p, hp, hfind⟩ := nameParts_of_field hf htype
      obtain ⟨g, -, hg, hoff, hwidth, -⟩ := nameParts_field hp
      cases Option.some.inj (hfind.symm.trans hg)
      have hvalue := decodedClaim_value db hlen hp hf hfind hoff hwidth htype
      rw [if_pos hw] at hvalue
      have hpart := hparts p hp
      rw [namePart_of_none hvalue, ← toNat_pattern hp hoff hwidth] at hpart
      exact pattern_ne_zero_of_withheld hf hw (UInt64.toNat_inj.mp hpart.symm)
  · intro hshown p hp
    obtain ⟨f, hf, hfind, hoff, hwidth, htype⟩ := nameParts_field hp
    refine namePart_of_pattern hp hoff hwidth ?_
    rw [decodedClaim_value db hlen hp hf hfind hoff hwidth htype, if_neg (hshown f hf)]

/-- A pattern that is withheld makes the NAME smaller. -/
theorem isoName_le (db : PgnDatabase Binary64) {frame : RawFrame} (hlen : frame.data.length = 8)
    (hspare : bitsAt frame.data 48 1 = 0) {name : UInt64}
    (hname : (decodedClaim db frame).isoName = some name) : name ≤ payloadName frame.data := by
  have hlt : LittleEndian.decode frame.data < 18446744073709551616 := by
    have h := LittleEndian.decode_lt frame.data
    rw [hlen] at h
    exact h
  rw [DecodedPgn.isoName] at hname
  split_ifs at hname
  obtain rfl := Option.some.inj hname
  rw [UInt64.le_iff_toNat_le, payloadName, UInt64.toNat_ofNat', Nat.mod_eq_of_lt hlt]
  refine foldl_put_le NamePart.place (decodedClaim db frame).namePart _ nameParts 0 0 (by decide)
    (covered_nameParts hlt (by simpa [bitsAt] using hspare)) (fun p hp => namePart_lt _ hp)
    (Nat.zero_le _) fun p hp => ?_
  obtain ⟨f, hf, hfind, hoff, hwidth, htype⟩ := nameParts_field hp
  have hvalue := decodedClaim_value db hlen hp hf hfind hoff hwidth htype
  split_ifs at hvalue with hw
  · rw [namePart_of_none hvalue]
    exact Nat.zero_le _
  · exact (namePart_of_pattern hp hoff hwidth hvalue).le

/-- A database of the claim alone. -/
def claimDatabase : PgnDatabase Binary64 where
  units := .metric
  pgns := [isoAddressClaim]
  lookups := []
  bitLookups := []
  indirectLookups := []
  fieldTypeLookups := []
  claimFlat := by decide +kernel

end Canboat
