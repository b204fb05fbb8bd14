import Canboat.Decode.DeviceName
import Canboat.Lib.LittleEndian

/-!
# Records of the control channels

The synthetic PGNs of the schema that the control channels carry, and what their payloads are
decoded to. No field of them has a pattern for no value, so every number is a value.
-/

namespace Canboat

/-- A number that is not scaled and has no pattern for no value. -/
def controlNumber (order : UInt8) (id : Identifier) (name : String)
    (bitOffset bitLength : UInt32) : FieldInfo Binary64 :=
  { (FieldInfo.number (Float64.ofInt 0) order id bitLength : FieldInfo Binary64) with
    name, bitOffset := some bitOffset, resolution := some (Float64.ofInt 1) }

/-- PGN 262657. -/
def canboatNmea0183Filter : PgnInfo Binary64 where
  pgn := 262657
  id := ⟨"canboatNmea0183Filter", by decide⟩
  description := "CANboat: NMEA 0183 filter"
  packetType := .single
  fallback := none
  priority := none
  length := some 8
  fields :=
    [ controlNumber 1 ⟨"function", by decide⟩ "Function" 0 8,
      controlNumber 2 ⟨"source", by decide⟩ "Source" 8 8,
      { controlNumber 3 ⟨"sentence", by decide⟩ "Sentence" 16 24 with
        fieldType := some .stringFix, resolution := none },
      controlNumber 4 ⟨"muted", by decide⟩ "Muted" 40 8 ]
  repeatingFieldSet1 := .none
  repeatingFieldSet2 := .none
  idIsPinned := false

/-- PGN 262658. -/
def canboatPgnOverride : PgnInfo Binary64 where
  pgn := 262658
  id := ⟨"canboatPgnOverride", by decide⟩
  description := "CANboat: PGN transmission-interval override"
  packetType := .fast
  fallback := none
  priority := none
  length := some 12
  fields :=
    [ controlNumber 1 ⟨"function", by decide⟩ "Function" 0 8,
      controlNumber 2 ⟨"source", by decide⟩ "Source" 8 8,
      controlNumber 3 ⟨"pgn", by decide⟩ "PGN" 16 24,
      controlNumber 4 ⟨"intervalMs", by decide⟩ "Interval" 40 32,
      controlNumber 5 ⟨"manufacturerCode", Eq.refl true⟩ "Manufacturer Code" 72 16,
      controlNumber 6 ⟨"industryCode", by decide⟩ "Industry Code" 88 8 ]
  repeatingFieldSet1 := .none
  repeatingFieldSet2 := .none
  idIsPinned := false

/-- The database has the one definition of each. -/
structure HoldsControl (db : PgnDatabase Binary64) : Prop where
  built : (Build.generate (db.pgns.map PgnInfo.raw)).isSome
  variants : ∀ info ∈ [canboatNmea0183Filter, canboatPgnOverride], db.pgnVariants info.pgn = [info]
  ids : ∀ info ∈ [canboatNmea0183Filter, canboatPgnOverride],
    db.pgns.find? (·.id.val = info.id.val) = some info

theorem HoldsControl.firstPgn {db : PgnDatabase Binary64} (hdb : HoldsControl db)
    {info : PgnInfo Binary64} (hinfo : info ∈ [canboatNmea0183Filter, canboatPgnOverride]) :
    db.firstPgn info.pgn = some info := by
  have h := congrArg List.head? (hdb.variants info hinfo)
  rwa [PgnDatabase.pgnVariants, List.head?_filter] at h

theorem HoldsControl.pickVariant {db : PgnDatabase Binary64} (hdb : HoldsControl db)
    {info : PgnInfo Binary64} (hinfo : info ∈ [canboatNmea0183Filter, canboatPgnOverride])
    {frame : RawFrame} (hpgn : frame.pgn = info.pgn) : db.pickVariant frame = some info := by
  refine db.pickVariant_of_single hdb.built ?_ ?_
  · rw [hpgn]
    exact hdb.variants info hinfo
  · have hmatch : ∀ info ∈ [canboatNmea0183Filter, canboatPgnOverride],
        info.raw.matchFields.isEmpty = true := by decide +kernel
    exact hmatch info hinfo

/-! ## Fields of a payload -/

/-- Whole bytes of the payload. -/
theorem bitsAt_bytes (data : List UInt8) (i n : ℕ) :
    bitsAt data (8 * i) (8 * n) = LittleEndian.decode ((data.drop i).take n) := by
  have hpow : ∀ k : ℕ, 2 ^ (8 * k) = 256 ^ k := fun k => by rw [pow_mul]; rfl
  rw [bitsAt, hpow, hpow, LittleEndian.decode_take, LittleEndian.decode_drop]

/-- A field of whole bytes, without patterns for no value. -/
structure FieldInfo.Bytes (f : FieldInfo Binary64) (i n : ℕ) : Prop where
  offset : f.bitOffset = some (UInt32.ofNat (8 * i))
  length : f.bitLength = some (UInt32.ofNat (8 * n))
  always : f.condition = none
  noMarker : f.isDynamicLengthMarker = false
  marks : [f.unknownValue, f.outOfRangeValue, f.reservedValue] = [none, none, none]
  notKey : f.partOfPrimaryKey = none
  type : f.fieldType = some .stringFix ∨ f.fieldType = some .number ∧ unscaled f = true
  small : 0 < n ∧ n ≤ 4 ∧ i ≤ 11

/-- The bytes at the field's place. -/
def fieldBytes (data : List UInt8) (f : FieldInfo Binary64) : List UInt8 :=
  (data.drop ((f.bitOffset.getD 0).toNat / 8)).take ((f.bitLength.getD 0).toNat / 8)

section

variable {f : FieldInfo Binary64} {i n : ℕ}

theorem FieldInfo.Bytes.toNat_offset (h : f.Bytes i n) : (f.bitOffset.getD 0).toNat = 8 * i := by
  have := h.small
  rw [h.offset, Option.getD_some, UInt32.toNat_ofNat', Nat.mod_eq_of_lt (by omega)]

theorem FieldInfo.Bytes.toNat_length (h : f.Bytes i n) : (f.bitLength.getD 0).toNat = 8 * n := by
  have := h.small
  rw [h.length, Option.getD_some, UInt32.toNat_ofNat', Nat.mod_eq_of_lt (by omega)]

theorem FieldInfo.Bytes.fieldBytes_eq (h : f.Bytes i n) (data : List UInt8) :
    fieldBytes data f = (data.drop i).take n := by
  rw [fieldBytes, h.toNat_offset, h.toNat_length, Nat.mul_div_cancel_left _ (by decide),
    Nat.mul_div_cancel_left _ (by decide)]

theorem FieldInfo.Bytes.decodeOneFieldAt_eq (h : f.Bytes i n)
    (claim : List UInt8 → List (DecodedField Binary64)) (info : PgnInfo Binary64)
    (data : List UInt8) (db : PgnDatabase Binary64) :
    decodeOneFieldAt claim f info data db (UInt32.ofNat (8 * i)) .empty =
      some (placedField info data db f, UInt32.ofNat (8 * n), .empty) := by
  rcases h.type with htype | ⟨htype, -⟩
  · have hnote : ∀ v : FieldValue Binary64, v.isPgn = false →
        DecodeContext.note .empty f v = .empty := by
      intro v hv
      unfold DecodeContext.note
      rw [h.noMarker]
      cases v with
      | pgn p s => cases hv
      | integer v => simp only [htype, reduceCtorEq, Option.some.injEq, if_false, Bool.false_eq_true]
      | _ => rfl
    have htext : (decodeStringFix data (UInt32.ofNat (8 * i)) (UInt32.ofNat (8 * n)) :
        FieldValue Binary64).isPgn = false := by
      rw [decodeStringFix]
      dsimp only
      split_ifs <;> rfl
    rw [decodeOneFieldAt, if_neg (by rw [htype]; decide), decodeSelfContained, h.length,
      placedField, placedValue, h.offset, h.length, Option.getD_some, Option.getD_some]
    simp only [htype, decodeFixed]
    rw [hnote _ htext]
  · exact decodeOneFieldAt_placed claim info data db
      ⟨h.offset, h.length, h.always, h.noMarker, by rw [htype]; decide⟩

/-- A number is what its bytes stand for. -/
theorem FieldInfo.Bytes.placedValue_number (h : f.Bytes i n) (htype : f.fieldType = some .number)
    (info : PgnInfo Binary64) {data : List UInt8} (hdata : i + n ≤ data.length)
    (db : PgnDatabase Binary64) :
    placedValue info data db f =
      .integer (Int64.ofNat (LittleEndian.decode (fieldBytes data f))) := by
  obtain ⟨hpos, hfour, -⟩ := h.small
  have hunscaled : unscaled f = true := by
    rcases h.type with h | ⟨-, h⟩
    · rw [htype] at h
      cases h
    · exact h
  have hin : 8 * i + 8 * n ≤ 8 * data.length := by omega
  obtain ⟨v, w, hextract, hv, -⟩ := extractBits_eq (show 0 < 8 * n by omega) (by omega) hin
  rw [bitsAt_bytes, ← h.fieldBytes_eq] at hv
  have hsentinel : sentinelFieldValue f ⟨v.toInt64, w.toInt64, v⟩ = none := by
    rw [sentinelFieldValue_eq_none, h.marks]
    simp
  have hbeq : Float64.beq (Float64.ofInt 0 : Binary64) (Float64.ofInt 0) = true := by
    decide +kernel
  simp only [unscaled, Bool.and_eq_true, Bool.not_eq_true', Option.isNone_iff_eq_none] at hunscaled
  obtain ⟨⟨⟨⟨⟨hres, hunit⟩, hquantity⟩, hzero⟩, hoffset⟩, hsigned⟩ := hunscaled
  have hoff := h.toNat_offset
  have hlen := h.toNat_length
  rw [placedValue]
  simp only [decodeFixed, htype, decodeNumber, hoffset, hsigned, Option.getD_none, extracted, hoff,
    hlen, hextract, ne_eq, not_true_eq_false, if_false, hsentinel, hres, hunit, hquantity, hzero]
  rw [if_pos (c := _ ∧ _)]
  · have hcast : Int64.ofNat v.toNat = (UInt64.ofNat v.toNat).toInt64 := rfl
    rw [← hv, hcast, UInt64.ofNat_toNat]
  · exact ⟨trivial, rfl, rfl, trivial, hbeq⟩

/-- A string is its bytes, without padding. -/
theorem FieldInfo.Bytes.placedValue_string (h : f.Bytes i n)
    (htype : f.fieldType = some .stringFix) (info : PgnInfo Binary64) {data : List UInt8}
    (hdata : i + n ≤ data.length) (db : PgnDatabase Binary64) :
    placedValue info data db f =
      let text := trimEnd isPaddingByte ((fieldBytes data f).takeWhile (· ≠ 0))
      if text.isEmpty then .notAvailable else .string (fromUtf8Lossy text) := by
  have hoff := h.toNat_offset
  have hlen := h.toNat_length
  rw [placedValue]
  simp only [decodeFixed, htype, decodeStringFix, hoff, hlen]
  rw [if_neg (by omega), if_neg (by omega), h.fieldBytes_eq, Nat.mul_div_cancel_left _ (by decide),
    Nat.mul_div_cancel_left _ (by decide)]

end

/-! ## Records -/

theorem controlNumber_bytes {order : UInt8} {id : Identifier} {name : String}
    {bitOffset bitLength : UInt32} {i n : ℕ} (hoffset : bitOffset = UInt32.ofNat (8 * i))
    (hlength : bitLength = UInt32.ofNat (8 * n)) (hsmall : 0 < n ∧ n ≤ 4 ∧ i ≤ 11) :
    (controlNumber order id name bitOffset bitLength).Bytes i n where
  offset := congrArg some hoffset
  length := congrArg some hlength
  always := rfl
  noMarker := rfl
  marks := rfl
  notKey := rfl
  type := by
    have hone : Float64.beq (Float64.ofInt 1 : Binary64) (Float64.ofInt 1) = true := by
      decide +kernel
    have hzero : Float64.beq (Float64.ofInt 0 : Binary64) (Float64.ofInt 0) = true := by
      decide +kernel
    refine Or.inr ⟨rfl, ?_⟩
    simp [unscaled, controlNumber, FieldInfo.number, hone, hzero]
  small := hsmall

/-- Each field of the definitions has bytes of its own within the payload. -/
theorem control_bytes : ∀ info ∈ [canboatNmea0183Filter, canboatPgnOverride],
    ∀ f ∈ info.fields, ∃ i n, f.Bytes i n ∧ ∀ len ∈ info.length, i + n ≤ len.toNat := by
  simp only [canboatNmea0183Filter, canboatPgnOverride, List.forall_mem_cons, List.not_mem_nil,
    false_implies, implies_true, and_true, Option.mem_some_iff, forall_eq']
  refine ⟨⟨⟨0, 1, ?_, by decide⟩, ⟨1, 1, ?_, by decide⟩, ⟨2, 3, ?_, by decide⟩,
    ⟨5, 1, ?_, by decide⟩⟩, ⟨0, 1, ?_, by decide⟩, ⟨1, 1, ?_, by decide⟩, ⟨2, 3, ?_, by decide⟩,
    ⟨5, 4, ?_, by decide⟩, ⟨9, 2, ?_, by decide⟩, ⟨11, 1, ?_, by decide⟩⟩
  case refine_3 => exact ⟨rfl, rfl, rfl, rfl, rfl, rfl, Or.inl rfl, by decide⟩
  all_goals
    apply controlNumber_bytes
    · rfl
    · rfl
    · decide

/-- The record of a control frame. -/
def controlRecord (info : PgnInfo Binary64) (db : PgnDatabase Binary64) (frame : RawFrame) :
    DecodedPgn Binary64 where
  timestamp := frame.timestamp
  prio := frame.prio
  pgn := frame.pgn
  src := frame.src
  dst := frame.dst
  description := info.description
  id := info.id
  idIsPinned := info.idIsPinned
  data := frame.data
  fields := info.fields.map (placedField info frame.data db)
  hasRepeatingSet := (false, false)
  indexByOrder := buildIndexByOrder (info.fields.map (placedField info frame.data db))

theorem HoldsControl.decode {db : PgnDatabase Binary64} (hdb : HoldsControl db)
    {info : PgnInfo Binary64} (hinfo : info ∈ [canboatNmea0183Filter, canboatPgnOverride])
    {frame : RawFrame} (hpgn : frame.pgn = info.pgn) :
    db.decode frame = .ok (controlRecord info db frame) := by
  have hsets : ∀ info ∈ [canboatNmea0183Filter, canboatPgnOverride],
      info.repeatingFieldSet1.size = none ∧ info.repeatingFieldSet2.size = none := by
    simp only [List.forall_mem_cons, List.not_mem_nil, false_implies, implies_true, and_true]
    exact ⟨⟨rfl, rfl⟩, rfl, rfl⟩
  rw [PgnDatabase.decode, hdb.pickVariant hinfo hpgn]
  simp only
  rw [decodeFields_each info frame.data db (hsets info hinfo).1 (hsets info hinfo).2
    (placedField info frame.data db)]
  · rfl
  · intro f hf
    obtain ⟨i, n, hbytes, -⟩ := control_bytes info hinfo f hf
    exact ⟨hbytes.always, _, _, hbytes.offset,
      hbytes.decodeOneFieldAt_eq (claimFields db) info frame.data db⟩

end Canboat
