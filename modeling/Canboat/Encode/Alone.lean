import Canboat.Decode.Fields
import Canboat.Encode.Written

/-!
# The value of a field by itself

What a field that was written has as its value in a message of its own, and that it has the same
value wherever else its bits stand.
-/

namespace Canboat

open LittleEndian BitBuffer

variable {F : Type} [Float64 F]

/-! ## What is staged -/

/-- The form of what is staged for a value. -/
inductive Formed (f : FieldInfo F) (v : EncodeValue F) : Staged → Prop
  | stringFix (htype : f.fieldType = some .stringFix) {text : List Char}
      (htext : textOf f v = .ok text) {bl : UInt32} (hbl : f.bitLength = some bl) {fill : ℕ}
      (hwidth : (utf8Bytes text).length + fill = bl.toNat / 8) :
      Formed f v (.bytes (utf8Bytes text ++ List.replicate fill 0))
  | stringLz (htype : f.fieldType = some .stringLz) {text : List Char}
      (htext : textOf f v = .ok text) (hlength : (utf8Bytes text).length ≤ 255) {fill : ℕ}
      (hwidth : ∀ bl ∈ f.bitLength, (utf8Bytes text).length + 1 + fill = bl.toNat / 8) :
      Formed f v (.bytes (UInt8.ofNat (utf8Bytes text).length ::
        (utf8Bytes text ++ List.replicate fill 0)))
  | stringLau (htype : f.fieldType = some .stringLau) {text : List Char}
      (htext : textOf f v = .ok text) (hlength : (utf8Bytes text).length + 2 ≤ 255) :
      Formed f v (.bytes (UInt8.ofNat ((utf8Bytes text).length + 2) :: 1 :: utf8Bytes text))
  | binary (htype : f.fieldType = some .binary) (bytes : List UInt8) : Formed f v (.bytes bytes)
  | dynamicFieldValue (htype : f.fieldType = some .dynamicFieldValue) (bytes : List UInt8) :
      Formed f v (.bytes bytes)
  | scalar (htype : f.fieldType ≠ some .stringFix ∧ f.fieldType ≠ some .stringLz ∧
      f.fieldType ≠ some .stringLau ∧ f.fieldType ≠ some .binary ∧
      f.fieldType ≠ some .dynamicFieldValue) {bl : UInt32} (hbl : f.bitLength = some bl)
      (raw : UInt64) : Formed f v (.scalar raw)

theorem zeroFilled_ok {f : FieldInfo F} {bytes out : List UInt8} {width length : ℕ}
    (h : zeroFilled f bytes width length = .ok out) :
    ∃ fill, out = bytes ++ List.replicate fill 0 ∧ bytes.length + fill = width := by
  rw [zeroFilled] at h
  split_ifs at h with hfits
  cases h
  exact ⟨width - bytes.length, rfl, by omega⟩

omit [Float64 F] in
theorem map_ok {α β : Type} {f : α → β} {e : Encoded F α} {y : β} (h : e.map f = .ok y) :
    ∃ a, e = .ok a ∧ f a = y := by
  cases e with
  | error => cases h
  | ok a =>
      cases h
      exact ⟨a, rfl, rfl⟩

omit [Float64 F] in
theorem orNotFixed_ok {α : Type} {f : FieldInfo F} {o : Option α} {a : α}
    (h : orNotFixed f o = .ok a) : o = some a := by
  cases o with
  | none => cases h
  | some b =>
      cases h
      rfl

theorem stageStringFix_formed {f : FieldInfo F} {v : EncodeValue F}
    (htype : f.fieldType = some .stringFix) {bytes : List UInt8}
    (h : stageStringFix f v = .ok bytes) : Formed f v (.bytes bytes) := by
  obtain ⟨text, htext, h⟩ := encoded_bind_ok h
  obtain ⟨bl, hbl, h⟩ := encoded_bind_ok h
  obtain ⟨fill, rfl, hwidth⟩ := zeroFilled_ok h
  exact .stringFix htype htext (orNotFixed_ok hbl) hwidth

theorem stageStringLz_formed {f : FieldInfo F} {v : EncodeValue F}
    (htype : f.fieldType = some .stringLz) {bytes : List UInt8}
    (h : stageStringLz f v = .ok bytes) : Formed f v (.bytes bytes) := by
  obtain ⟨text, htext, h⟩ := encoded_bind_ok h
  dsimp only at h
  split_ifs at h with hlength
  cases hbl : f.bitLength with
  | none =>
      rw [hbl] at h
      cases h
      have hform : Formed f v (.bytes (UInt8.ofNat (utf8Bytes text).length ::
          (utf8Bytes text ++ List.replicate 0 0))) :=
        .stringLz htype htext (Nat.le_of_not_lt hlength) (by rw [hbl]; rintro _ ⟨⟩)
      rw [List.replicate_zero, List.append_nil] at hform
      exact hform
  | some bl =>
      rw [hbl] at h
      obtain ⟨fill, rfl, hwidth⟩ := zeroFilled_ok h
      rw [List.length_cons] at hwidth
      refine .stringLz htype htext (Nat.le_of_not_lt hlength) ?_
      rw [hbl]
      rintro _ ⟨rfl⟩
      exact hwidth

theorem stageStringLau_formed {f : FieldInfo F} {v : EncodeValue F}
    (htype : f.fieldType = some .stringLau) {bytes : List UInt8}
    (h : stageStringLau f v = .ok bytes) : Formed f v (.bytes bytes) := by
  obtain ⟨text, htext, h⟩ := encoded_bind_ok h
  dsimp only at h
  split_ifs at h with hlength
  cases h
  exact .stringLau htype htext (Nat.le_of_not_lt hlength)

theorem valueToRaw_width {db : PgnDatabase F} {f : FieldInfo F} {v : EncodeValue F} {raw : UInt64}
    (h : valueToRaw db f v = .ok raw) : ∃ bl, f.bitLength = some bl := by
  obtain ⟨bl, hbl, -⟩ := encoded_bind_ok h
  exact ⟨bl, orNotFixed_ok hbl⟩

/-- Every value that is accepted is staged in the form of its field. -/
theorem stageValue_formed {db : PgnDatabase F} {f : FieldInfo F} {v : EncodeValue F} {s : Staged}
    (h : stageValue db f v = .ok s) : Formed f v s := by
  unfold stageValue at h
  split at h
  · next htype =>
    obtain ⟨bytes, hbytes, rfl⟩ := map_ok h
    exact stageStringFix_formed htype hbytes
  · next htype =>
    obtain ⟨bytes, hbytes, rfl⟩ := map_ok h
    exact stageStringLz_formed htype hbytes
  · next htype =>
    obtain ⟨bytes, hbytes, rfl⟩ := map_ok h
    exact stageStringLau_formed htype hbytes
  · next htype =>
    obtain ⟨bytes, -, rfl⟩ := map_ok h
    exact .binary htype bytes
  · next htype =>
    obtain ⟨bytes, -, rfl⟩ := map_ok h
    exact .dynamicFieldValue htype bytes
  · next hfix hlz hlau hbinary hdynamic =>
    obtain ⟨raw, hraw, rfl⟩ := map_ok h
    obtain ⟨bl, hbl⟩ := valueToRaw_width hraw
    exact .scalar ⟨hfix, hlz, hlau, hbinary, hdynamic⟩ hbl raw

/-! ## Reading it -/

section Extractions

variable {data own : List UInt8} {off bl : UInt32}

/-- The bits of the field are the first of the other payload. -/
def SameBits (data own : List UInt8) (off bl : UInt32) : Prop :=
  ∀ signed offset, extractBits data off.toNat bl.toNat signed offset =
    extractBits own 0 bl.toNat signed offset

omit [Float64 F] in
theorem extracted_congr (h : SameBits data own off bl) (signed : Bool) (offset : Int64)
    (value : Extracted → FieldValue F) :
    extracted data off bl signed offset value = extracted own 0 bl signed offset value := by
  unfold extracted
  rw [h]
  rfl

/-- The types that a field is read by from its own bits alone. -/
def FieldType.ofOwnBits : FieldType → Bool
  | .stringFix | .stringLz | .stringLau | .binary | .isoName | .indirectLookup => false
  | _ => true

/-- A value depends on the bits of the field alone. -/
theorem decodeFixed_congr {claim : List UInt8 → List (DecodedField F)} {f : FieldInfo F}
    {info : PgnInfo F} {db : PgnDatabase F} (htype : f.fieldType.all FieldType.ofOwnBits = true)
    (h : SameBits data own off bl) (ctx ctx' : DecodeContext F) :
    (decodeFixed claim f info data db off bl ctx).1 =
      (decodeFixed claim f info own db 0 bl ctx').1 := by
  have hnumber (signed : Bool) : decodeNumber f data off bl signed =
      decodeNumber f own 0 bl signed := extracted_congr h _ _ _
  have hreserved (signed : Bool) (offset : Int64) (isReserved : Bool) :
      (decodeReserved data off bl signed offset isReserved : FieldValue F) =
        decodeReserved own 0 bl signed offset isReserved := extracted_congr h _ _ _
  -- some types are of one width
  have hof {width : UInt32} (hbl : bl = width) (value : Extracted → FieldValue F) :
      extracted data off width false 0 value = extracted own 0 width false 0 value :=
    hbl ▸ extracted_congr h false 0 value
  unfold decodeFixed
  dsimp only
  generalize f.fieldType = t at htype
  rcases t with - | t
  · rfl
  cases t with
  | stringFix | stringLz | stringLau | binary | isoName | indirectLookup => cases htype
  | number | decimal | fieldIndex => exact hnumber _
  | float =>
      show decodeFloat _ _ _ = decodeFloat _ _ _
      unfold decodeFloat
      split_ifs with hbl
      · rfl
      · exact hof (not_not.mp hbl) _
  | lookup => exact extracted_congr h _ _ _
  | bitLookup => exact extracted_congr h _ _ _
  | reserved | spare => exact hreserved _ _ _
  | mmsi =>
      show decodeMmsi _ _ _ = decodeMmsi _ _ _
      unfold decodeMmsi
      split_ifs with hbl
      · rfl
      · exact hof (not_not.mp hbl) _
  | pgn =>
      show decodePgnField _ _ _ _ = decodePgnField _ _ _ _
      unfold decodePgnField
      split_ifs with hbl
      · rfl
      · exact hof (not_not.mp hbl) _
  | date =>
      show decodeDate _ _ _ _ = decodeDate _ _ _ _
      unfold decodeDate
      split_ifs with hbl
      · rfl
      · exact hof (not_not.mp hbl) _
  | time | duration => exact extracted_congr h _ _ _
  | dynamicFieldKey =>
      show (decodeDynamicFieldKey _ _ _ _ _ _).1 = (decodeDynamicFieldKey _ _ _ _ _ _).1
      unfold decodeDynamicFieldKey
      rw [h, UInt32.toNat_zero]
      cases extractBits own 0 bl.toNat false 0 <;> rfl
  | dynamicFieldLength =>
      show (decodeDynamicFieldLength _ _ _ _ _).1 = (decodeDynamicFieldLength _ _ _ _ _).1
      unfold decodeDynamicFieldLength
      rw [h, UInt32.toNat_zero]
      cases extractBits own 0 bl.toNat false 0 with
      | none => rfl
      | some ex =>
          dsimp only
          cases sentinelFieldValue f ex <;> rfl
  | «variable» | dynamicFieldValue => rfl

end Extractions

end Canboat
