import Canboat.Core.Utf8
import Canboat.Decode.Progress
import Canboat.Encode.Alone

/-!
# A field among others

Where the decoder begins a field as the builder wrote it, it reads the value that the field has by
itself.
-/

namespace Canboat

open LittleEndian BitBuffer

variable {F : Type}

/-! ## Bytes, read back -/

section Bytes

variable {data : List UInt8} {off bl : UInt32}

/-- The text in so many bytes. -/
def fixedText (bytes : List UInt8) : FieldValue F :=
  let text := trimEnd isPaddingByte (bytes.takeWhile (· ≠ 0))
  if text.isEmpty then .notAvailable else .string (fromUtf8Lossy text)

theorem decodeStringFix_eq {bytes tail : List UInt8} (hoff : off.toNat % 8 = 0)
    (hbl : bl.toNat = 8 * bytes.length) (hdrop : data.drop (off.toNat / 8) = bytes ++ tail) :
    (decodeStringFix data off bl : FieldValue F) = fixedText bytes := by
  have hlength := congrArg List.length hdrop
  rw [List.length_drop, List.length_append] at hlength
  have hwidth : bl.toNat / 8 = bytes.length := by omega
  unfold decodeStringFix
  dsimp only
  rw [if_neg (by omega)]
  by_cases hin : off.toNat / 8 + bl.toNat / 8 > data.length
  · have hnil : bytes = [] := List.eq_nil_of_length_eq_zero (by omega)
    rw [if_pos hin, hnil]
    rfl
  · rw [if_neg hin, hdrop, hwidth, List.take_left]
    rfl

theorem decodeStringLz_eq {content tail : List UInt8} (hoff : off.toNat % 8 = 0)
    (hlength : content.length ≤ 255) (hbl : content.length + 1 ≤ bl.toNat / 8)
    (hdrop : data.drop (off.toNat / 8) = UInt8.ofNat content.length :: (content ++ tail)) :
    (decodeStringLz data off bl : FieldValue F) = paddedText (fromUtf8Lossy content) := by
  have hbyte : (UInt8.ofNat content.length).toNat = content.length := by
    rw [UInt8.toNat_ofNat']
    omega
  unfold decodeStringLz
  dsimp only
  rw [if_neg (by omega), hdrop]
  dsimp only
  rw [if_neg (by omega), hbyte, List.take_take, Nat.min_eq_left (by omega), List.take_left]

theorem decodeStringLau_eq {content tail : List UInt8} (hoff : off.toNat % 8 = 0)
    (hlength : content.length + 2 ≤ 255)
    (hdrop : data.drop (off.toNat / 8) =
      UInt8.ofNat (content.length + 2) :: 1 :: (content ++ tail)) :
    ∃ bits : UInt32, (decodeStringLau data off : FieldValue F × UInt32) =
      (paddedText (fromUtf8Lossy (trimEnd isPaddingByte content)), bits) ∧
      bits.toNat = 8 * (content.length + 2) := by
  have hbyte : (UInt8.ofNat (content.length + 2)).toNat = content.length + 2 := by
    rw [UInt8.toNat_ofNat']
    omega
  have hlong : ¬UInt8.ofNat (content.length + 2) < 2 := by
    intro hlt
    have hlt : (UInt8.ofNat (content.length + 2)).toNat < 2 := hlt
    omega
  refine ⟨(UInt8.ofNat (content.length + 2)).toUInt32 * 8, ?_, ?_⟩
  · unfold decodeStringLau
    dsimp only
    rw [if_neg (by omega), hdrop]
    dsimp only
    rw [if_neg hlong, if_neg (by decide), hbyte, Nat.add_sub_cancel, List.take_left]
  · rw [UInt32.toNat_mul, UInt8.toNat_toUInt32, hbyte]
    show (content.length + 2) * 8 % 2 ^ 32 = _
    omega

/-- Eight bits at a time give the bytes. -/
theorem binaryChunks_eq {bo : ℕ} {bytes : List UInt8} (hin : bo + 8 * bytes.length ≤ 8 * data.length)
    (hbits : bitsAt data bo (8 * bytes.length) = decode bytes) :
    binaryChunks data bo bytes.length (8 * bytes.length) = some bytes := by
  induction bytes generalizing bo with
  | nil => rfl
  | cons b bytes ih =>
      rw [List.length_cons] at hin hbits ⊢
      have hwidth : 2 ^ (8 * (bytes.length + 1)) = 2 ^ 8 * 2 ^ (8 * bytes.length) := by
        rw [Nat.mul_succ, Nat.add_comm, pow_add]
      have hb := b.toNat_lt
      rw [bitsAt, hwidth, LittleEndian.decode, Nat.mod_mul] at hbits
      have hlow : LittleEndian.decode data / 2 ^ bo % 2 ^ 8 < 2 ^ 8 := Nat.mod_lt _ (by decide)
      have hfirst : bitsAt data bo 8 = b.toUInt64.toNat := by
        show LittleEndian.decode data / 2 ^ bo % 2 ^ 8 = b.toNat
        omega
      have hrest : bitsAt data (bo + 8) (8 * bytes.length) = LittleEndian.decode bytes := by
        rw [bitsAt, pow_add, ← Nat.div_div_eq_div_mul]
        omega
      obtain ⟨x, hx, hraw, hvalue⟩ := extractBits_whole false (by decide) (by decide)
        (by omega : bo + 8 ≤ 8 * data.length) hfirst
      have hbyte : x.value.toUInt64.toUInt8 = b := by
        rw [if_neg Bool.false_ne_true, Int64.toInt_inj] at hvalue
        rw [hvalue, UInt64.toUInt64_toInt64, UInt8.toUInt8_toUInt64]
      rw [binaryChunks, Nat.min_eq_right (by omega), hx, Option.bind_eq_bind, Option.bind_some,
        show 8 * (bytes.length + 1) - 8 = 8 * bytes.length by omega, ih (by omega) hrest, hbyte]
      rfl

theorem decodeBinary_eq {bytes : List UInt8} (hne : bytes ≠ []) (hbl : bl.toNat = 8 * bytes.length)
    (hin : off.toNat + 8 * bytes.length ≤ 8 * data.length)
    (hbits : bitsAt data off.toNat (8 * bytes.length) = decode bytes)
    (hdrop : off.toNat % 8 = 0 → ∃ tail, data.drop (off.toNat / 8) = bytes ++ tail) :
    (decodeBinary data off bl : FieldValue F) = .binary bytes := by
  have hpos := List.length_pos_of_ne_nil hne
  have hwidth : bl.toNat / 8 = bytes.length := by omega
  unfold decodeBinary
  dsimp only
  by_cases haligned : off.toNat % 8 = 0
  · obtain ⟨tail, htail⟩ := hdrop haligned
    rw [if_pos ⟨haligned, by omega⟩, if_neg (by omega), htail, hwidth, List.take_left]
  · have hchunks : (bl.toNat + 7) / 8 = bytes.length := by omega
    rw [if_neg (by rintro ⟨h, -⟩; exact haligned h), hchunks, hbl, binaryChunks_eq hin hbits]

end Bytes

/-! ## A value, wherever it stands -/

section Values

variable [Float64 F]

/-- The bits that the decoder takes for a field which starts there. -/
def FieldInfo.taken (f : FieldInfo F) (s : Option Staged) (total start : ℕ) : ℕ :=
  match f.fieldType, f.bitLength with
  | some .stringLau, _ => f.written s
  | some .stringLz, none | some .binary, none => (total - start) / 8 * 8
  | _, bl => (bl.getD 0).toNat

/-- The decoder finds what the builder wrote from there: texts and ISO NAMEs start with a byte, and
bytes are as wide as the decoder takes them. -/
def FieldInfo.Fits (f : FieldInfo F) (s : Option Staged) (total pos : ℕ) : Prop :=
  match f.fieldType with
  | some .stringFix => pos % 8 = 0 ∧ f.taken s total pos = f.written s
  | some .stringLz | some .stringLau | some .isoName => pos % 8 = 0
  | some .binary => 0 < f.written s ∧ f.taken s total pos = f.written s
  | some .variable | some .dynamicFieldValue => False
  | _ => True

/-- The value of a field in a message of its own; the name of an indirect lookup depends on
another field. -/
def FieldInfo.valueAlone (db : PgnDatabase F) (info : PgnInfo F) (data : List UInt8)
    (f : FieldInfo F) (s : Staged) : Option (FieldValue F) :=
  let own := payload (f.writes (some s))
  if f.fieldType = some .indirectLookup then
    some (extracted own 0 (f.bitLength.getD 0) false 0 fun ex =>
      labelled f ex (indirectName f info data db ex.raw))
  else (decodeOneFieldAt (claimFields db) f info own db 0 .empty).map (·.1.value)

/-- The types whose width the definition gives are read in that width. -/
theorem decodeOneFieldAt_width {claim : List UInt8 → List (DecodedField F)} {f : FieldInfo F}
    {info : PgnInfo F} {data : List UInt8} {db : PgnDatabase F} {off bl : UInt32}
    {ctx : DecodeContext F} (hfixed : f.fixedWidth = true) (hbl : f.bitLength = some bl) :
    ∃ ctx', decodeOneFieldAt claim f info data db off ctx =
      some (.single f (decodeFixed claim f info data db off bl ctx).1 off bl none, bl, ctx') := by
  unfold decodeOneFieldAt decodeSelfContained
  unfold FieldInfo.fixedWidth at hfixed
  rw [hbl]
  generalize f.fieldType = t at hfixed
  rcases t with - | t
  · exact ⟨_, rfl⟩
  · cases t with
    | stringLau | «variable» | dynamicFieldValue => exact absurd hfixed (by decide)
    | _ => exact ⟨_, rfl⟩

section Reads

variable {db : PgnDatabase F} {info : PgnInfo F} {f : FieldInfo F} {v : EncodeValue F}
  {before after : List (ℕ × UInt64)} {data : List UInt8} {off : UInt32} {ctx : DecodeContext F}

/-- The field starts where the builder wrote it, in a message that is not too long. -/
structure Stands (f : FieldInfo F) (s : Option Staged) (before after : List (ℕ × UInt64))
    (data : List UInt8) (off : UInt32) : Prop where
  payload_eq : data = payload (before ++ (f.writes s ++ after))
  start : off.toNat = widthOf before
  short : 8 * data.length < 4294967296
  fits : f.Fits s (8 * data.length) (widthOf before)

/-- The value that is read, in the bits that are taken. -/
def ReadsAs (db : PgnDatabase F) (info : PgnInfo F) (f : FieldInfo F) (data : List UInt8)
    (off : UInt32) (ctx : DecodeContext F) (s : Option Staged) (x : FieldValue F) : Prop :=
  ∃ d bits ctx', decodeOneFieldAt (claimFields db) f info data db off ctx = some (d, bits, ctx') ∧
    d.info = f ∧ bits.toNat = f.taken s (8 * data.length) off.toNat ∧ d.value = x

theorem readsAs_width {s : Option Staged} (hfixed : f.fixedWidth = true) {bl : UInt32}
    (hbl : f.bitLength = some bl) :
    ReadsAs db info f data off ctx s (decodeFixed (claimFields db) f info data db off bl ctx).1 := by
  obtain ⟨ctx', hd⟩ := @decodeOneFieldAt_width F _ (claimFields db) f info data db off bl ctx
    hfixed hbl
  refine ⟨_, bl, ctx', hd, rfl, ?_, rfl⟩
  unfold FieldInfo.taken
  unfold FieldInfo.fixedWidth at hfixed
  rw [hbl]
  generalize f.fieldType = t at hfixed
  rcases t with - | t
  · rfl
  · cases t with
    | stringLau => cases hfixed
    | _ => rfl

omit [Float64 F] in
/-- Where the bytes stand. -/
theorem Stands.bytes {bytes : List UInt8} (h : Stands f (some (.bytes bytes)) before after data off) :
    (off.toNat % 8 = 0 → ∃ tail, data.drop (off.toNat / 8) = bytes ++ tail) ∧
      off.toNat + 8 * bytes.length ≤ 8 * data.length ∧
      bitsAt data off.toNat (8 * bytes.length) = decode bytes := by
  have hroom := le_length_payload before (byteWrites bytes) after
  have hbits := bitsAt_payload before (byteWrites bytes) after
  rw [widthOf_byteWrites] at hroom hbits
  rw [h.start, h.payload_eq]
  refine ⟨fun haligned => drop_payload haligned bytes after, hroom, ?_⟩
  exact hbits.trans (valueOf_byteWrites bytes)

omit [Float64 F] in
theorem written_bytes (bytes : List UInt8) : f.written (some (.bytes bytes)) = 8 * bytes.length :=
  widthOf_byteWrites bytes

theorem Stands.readsAs_stringFix {bytes : List UInt8}
    (h : Stands f (some (.bytes bytes)) before after data off)
    (htype : f.fieldType = some .stringFix) {bl : UInt32} (hbl : f.bitLength = some bl) :
    ReadsAs db info f data off ctx (some (.bytes bytes)) (fixedText bytes) := by
  obtain ⟨hdrop, -, -⟩ := h.bytes
  have hfits := h.fits
  rw [FieldInfo.Fits, htype] at hfits
  obtain ⟨haligned, hwidth⟩ := hfits
  rw [FieldInfo.taken, htype, hbl, written_bytes] at hwidth
  rw [← h.start] at haligned
  obtain ⟨tail, htail⟩ := hdrop haligned
  have hread := @readsAs_width F _ db info f data off ctx (some (.bytes bytes))
    (by rw [FieldInfo.fixedWidth, htype]; rfl) bl hbl
  have hvalue : (decodeFixed (claimFields db) f info data db off bl ctx).1 = fixedText bytes := by
    unfold decodeFixed
    rw [htype]
    exact decodeStringFix_eq haligned hwidth htail
  rwa [hvalue] at hread

/-- A text with its length takes its bytes, or what the decoder finds to the end. -/
theorem Stands.readsAs_stringLz {content : List UInt8} {fill : ℕ}
    (h : Stands f (some (.bytes (UInt8.ofNat content.length ::
      (content ++ List.replicate fill 0)))) before after data off)
    (htype : f.fieldType = some .stringLz) (hlength : content.length ≤ 255)
    (hwidth : ∀ bl ∈ f.bitLength, content.length + 1 + fill = bl.toNat / 8) :
    ReadsAs db info f data off ctx (some (.bytes (UInt8.ofNat content.length ::
      (content ++ List.replicate fill 0)))) (paddedText (fromUtf8Lossy content)) := by
  obtain ⟨hdrop, hroom, -⟩ := h.bytes
  have hfits := h.fits
  have hshort := h.short
  rw [FieldInfo.Fits, htype] at hfits
  have haligned : off.toNat % 8 = 0 := h.start ▸ hfits
  obtain ⟨tail, htail⟩ := hdrop haligned
  rw [List.cons_append, List.append_assoc] at htail
  rw [List.length_cons, List.length_append, List.length_replicate] at hroom
  cases hbl : f.bitLength with
  | some bl =>
      have hbytes := hwidth bl hbl
      have hread := @readsAs_width F _ db info f data off ctx
        (some (.bytes (UInt8.ofNat content.length :: (content ++ List.replicate fill 0))))
        (by rw [FieldInfo.fixedWidth, htype]; rfl) bl hbl
      have hvalue : (decodeFixed (claimFields db) f info data db off bl ctx).1 =
          paddedText (fromUtf8Lossy content) := by
        unfold decodeFixed
        rw [htype]
        exact decodeStringLz_eq haligned hlength (by omega) htail
      rwa [hvalue] at hread
  | none =>
      obtain ⟨rest, hrest⟩ : ∃ rest : UInt32,
          rest = UInt32.ofNat ((min (data.length * 8) 4294967295 - off.toNat) / 8 * 8) := ⟨_, rfl⟩
      have hnat : rest.toNat = (8 * data.length - off.toNat) / 8 * 8 := by
        rw [hrest, UInt32.toNat_ofNat']
        omega
      refine ⟨.single f (decodeStringLz data off rest) off rest none, rest, ctx, ?_, rfl, ?_, ?_⟩
      · unfold decodeOneFieldAt decodeSelfContained
        rw [htype, hbl, hrest]
        rfl
      · rw [hnat, FieldInfo.taken, htype, hbl]
      · exact decodeStringLz_eq haligned hlength (by omega) htail

theorem Stands.readsAs_stringLau {content : List UInt8}
    (h : Stands f (some (.bytes (UInt8.ofNat (content.length + 2) :: 1 :: content))) before after data
      off) (htype : f.fieldType = some .stringLau) (hlength : content.length + 2 ≤ 255) :
    ReadsAs db info f data off ctx
      (some (.bytes (UInt8.ofNat (content.length + 2) :: 1 :: content)))
      (paddedText (fromUtf8Lossy (trimEnd isPaddingByte content))) := by
  obtain ⟨hdrop, -, -⟩ := h.bytes
  have hfits := h.fits
  rw [FieldInfo.Fits, htype] at hfits
  have haligned : off.toNat % 8 = 0 := h.start ▸ hfits
  obtain ⟨tail, htail⟩ := hdrop haligned
  obtain ⟨bits, hvalue, hbits⟩ := decodeStringLau_eq (F := F) haligned hlength htail
  refine ⟨.single f (decodeStringLau data off).1 off (decodeStringLau (F := F) data off).2 none,
    (decodeStringLau (F := F) data off).2, ctx, ?_, rfl, ?_, ?_⟩
  · unfold decodeOneFieldAt decodeSelfContained
    rw [htype]
    rfl
  · rw [hvalue, FieldInfo.taken, htype, written_bytes]
    exact hbits
  · rw [hvalue]
    rfl

theorem Stands.readsAs_binary {bytes : List UInt8}
    (h : Stands f (some (.bytes bytes)) before after data off)
    (htype : f.fieldType = some .binary) :
    ReadsAs db info f data off ctx (some (.bytes bytes)) (.binary bytes) := by
  obtain ⟨hdrop, hroom, hbits⟩ := h.bytes
  have hfits := h.fits
  have hshort := h.short
  rw [FieldInfo.Fits, htype] at hfits
  obtain ⟨hpos, hwidth⟩ := hfits
  rw [written_bytes] at hpos hwidth
  have hne : bytes ≠ [] := List.ne_nil_of_length_pos (by omega)
  rw [FieldInfo.taken, htype] at hwidth
  cases hbl : f.bitLength with
  | some bl =>
      rw [hbl] at hwidth
      have hread := @readsAs_width F _ db info f data off ctx (some (.bytes bytes))
        (by rw [FieldInfo.fixedWidth, htype]; rfl) bl hbl
      have hvalue : (decodeFixed (claimFields db) f info data db off bl ctx).1 = .binary bytes := by
        unfold decodeFixed
        rw [htype]
        exact decodeBinary_eq hne hwidth hroom hbits hdrop
      rwa [hvalue] at hread
  | none =>
      rw [hbl] at hwidth
      obtain ⟨rest, hrest⟩ : ∃ rest : UInt32,
          rest = UInt32.ofNat ((min (data.length * 8) 4294967295 - off.toNat) / 8 * 8) := ⟨_, rfl⟩
      have hnat : rest.toNat = (8 * data.length - off.toNat) / 8 * 8 := by
        rw [hrest, UInt32.toNat_ofNat']
        omega
      refine ⟨.single f (decodeBinary data off rest) off rest none, rest, ctx, ?_, rfl, ?_, ?_⟩
      · unfold decodeOneFieldAt decodeSelfContained
        rw [htype, hbl, hrest]
        rfl
      · rw [hnat, FieldInfo.taken, htype, hbl]
      · refine decodeBinary_eq hne ?_ hroom hbits hdrop
        rw [hnat, h.start]
        exact hwidth

/-! ## The value alone -/

/-- The field in a message of its own. -/
theorem ReadsAs.valueAlone {s : Staged} {x : FieldValue F}
    (h : ReadsAs db info f (payload (f.writes (some s))) 0 .empty (some s) x)
    (htype : f.fieldType ≠ some .indirectLookup) : f.valueAlone db info data s = some x := by
  obtain ⟨d, bits, ctx', hd, -, -, rfl⟩ := h
  rw [FieldInfo.valueAlone, if_neg htype, hd]
  rfl

omit [Float64 F] in
/-- A field that stands somewhere stands at the start of a message of its own. -/
theorem Stands.alone {s : Option Staged} (h : Stands f s before after data off)
    (hfits : f.Fits s (8 * (payload (f.writes s)).length) 0) :
    Stands f s [] [] (payload (f.writes s)) 0 where
  payload_eq := by rw [List.nil_append, List.append_nil]
  start := rfl
  short := by
    have hroom := le_length_payload before (f.writes s) after
    have hshort := h.short
    rw [← h.payload_eq] at hroom
    rw [length_payload]
    omega
  fits := hfits

omit [Float64 F] in
/-- Bytes that fit somewhere fit alone. -/
theorem Stands.fits_alone {bytes : List UInt8}
    (h : Stands f (some (.bytes bytes)) before after data off) :
    f.Fits (some (.bytes bytes)) (8 * (payload (f.writes (some (.bytes bytes)))).length) 0 := by
  have hfits := h.fits
  have hlength : (payload (f.writes (some (.bytes bytes)))).length = bytes.length :=
    congrArg List.length (payload_byteWrites bytes)
  rw [hlength]
  unfold FieldInfo.Fits FieldInfo.taken at hfits ⊢
  rw [written_bytes] at hfits ⊢
  generalize f.fieldType = t at hfits
  generalize f.bitLength = bl at hfits
  rcases t with - | t
  · trivial
  cases t with
  | stringFix => exact ⟨rfl, hfits.2⟩
  | stringLz | stringLau | isoName => rfl
  | binary =>
      cases bl with
      | some bl => exact hfits
      | none => exact ⟨hfits.1, by dsimp only; omega⟩
  | «variable» | dynamicFieldValue => exact hfits
  | _ => trivial

omit [Float64 F] in
/-- The bits of a number are those of a message of its own. -/
theorem Stands.sameBits {raw : UInt64} {bl : UInt32}
    (h : Stands f (some (.scalar raw)) before after data off) (hbl : f.bitLength = some bl) :
    SameBits data (payload (f.writes (some (.scalar raw)))) off bl := by
  have hwrites : f.writes (some (.scalar raw)) = [(bl.toNat, raw)] := by
    rw [FieldInfo.writes, hbl]
    rfl
  have hwidth : widthOf [(bl.toNat, raw)] = bl.toNat := Nat.add_zero _
  have hroom := le_length_payload before [(bl.toNat, raw)] after
  have hbits := bitsAt_payload before [(bl.toNat, raw)] after
  have hroom' := le_length_payload [] [(bl.toNat, raw)] []
  have hbits' := bitsAt_payload [] [(bl.toNat, raw)] []
  rw [hwidth] at hroom hbits hroom' hbits'
  intro signed offset
  rw [h.payload_eq, hwrites, h.start]
  exact extractBits_congr hroom hroom' (hbits.trans hbits'.symm) signed offset

omit [Float64 F] in
/-- An ISO NAME that starts with a byte. -/
theorem Stands.decodeIsoName_eq {raw : UInt64} {bl : UInt32}
    (h : Stands f (some (.scalar raw)) before after data off) (hbl : f.bitLength = some bl)
    (haligned : off.toNat % 8 = 0) (claim : List UInt8 → List (DecodedField F)) :
    decodeIsoName claim data off bl =
      decodeIsoName claim (payload (f.writes (some (.scalar raw)))) 0 bl := by
  have hwrites : f.writes (some (.scalar raw)) = [(bl.toNat, raw)] := by
    rw [FieldInfo.writes, hbl]
    rfl
  have hand : off &&& 7 = 0 := by
    rw [← UInt32.toNat_inj, UInt32.toNat_and]
    exact (Nat.and_two_pow_sub_one_eq_mod off.toNat 3).trans haligned
  unfold decodeIsoName
  by_cases hwidth : bl = 64
  · have hpart : widthOf [(bl.toNat, raw)] = 8 * 8 := by rw [hwidth]; rfl
    have hroom := le_length_payload before [(bl.toNat, raw)] after
    have hlength := length_payload [(bl.toNat, raw)]
    have hbytes := @bytes_payload before _ after 8 (h.start ▸ haligned) hpart
    rw [hpart] at hroom hlength
    have hdata : data = payload (before ++ ([(bl.toNat, raw)] ++ after)) := hwrites ▸ h.payload_eq
    rw [← hdata, ← h.start] at hbytes hroom
    have hown : ((payload [(bl.toNat, raw)]).drop ((0 : UInt32).toNat / 8)).take 8 =
        payload [(bl.toNat, raw)] := List.take_of_length_le (by
      rw [List.length_drop, hlength]
      decide)
    have hbyte : ¬(bl ≠ 64 ∨ off &&& 7 ≠ 0) := by
      rw [hand, hwidth]
      decide
    have hbyte' : ¬(bl ≠ 64 ∨ (0 : UInt32) &&& 7 ≠ 0) := by
      rw [hwidth]
      decide
    have hin : ¬off.toNat / 8 + 8 > data.length := by omega
    have hin' : ¬(0 : UInt32).toNat / 8 + 8 > (payload [(bl.toNat, raw)]).length := by
      rw [hlength]
      decide
    rw [hwrites, if_neg hbyte, if_neg hbyte']
    dsimp only
    rw [if_neg hin, if_neg hin', hbytes, hown]
  · rw [if_pos (.inl hwidth), if_pos (.inl hwidth)]

/-- **A number is read as if it were alone.** -/
theorem Stands.readsAs_scalar {raw : UInt64} {bl : UInt32}
    (h : Stands f (some (.scalar raw)) before after data off)
    (htype : f.fieldType ≠ some .stringFix ∧ f.fieldType ≠ some .stringLz ∧
      f.fieldType ≠ some .stringLau ∧ f.fieldType ≠ some .binary ∧
      f.fieldType ≠ some .dynamicFieldValue) (hbl : f.bitLength = some bl) :
    ∃ x, ReadsAs db info f data off ctx (some (.scalar raw)) x ∧
      f.valueAlone db info data (.scalar raw) = some x := by
  have hsame := h.sameBits hbl
  have hfits := h.fits
  have hfixed : f.fixedWidth = true := by
    unfold FieldInfo.Fits at hfits
    unfold FieldInfo.fixedWidth
    generalize f.fieldType = t at hfits htype
    rcases t with - | t
    · rfl
    · cases t with
      | «variable» => exact absurd hfits not_false
      | stringLau => exact absurd rfl htype.2.2.1
      | dynamicFieldValue => exact absurd rfl htype.2.2.2.2
      | _ => rfl
  refine ⟨_, readsAs_width hfixed hbl, ?_⟩
  by_cases hindirect : f.fieldType = some .indirectLookup
  · have hvalue : (decodeFixed (claimFields db) f info data db off bl ctx).1 =
        decodeIndirectLookup f info data off bl db := by
      unfold decodeFixed
      rw [hindirect]
    rw [hvalue, FieldInfo.valueAlone, if_pos hindirect, hbl, decodeIndirectLookup,
      extracted_congr hsame]
    rfl
  · rw [ReadsAs.valueAlone (readsAs_width hfixed hbl) hindirect]
    congr 1
    by_cases hname : f.fieldType = some .isoName
    · rw [FieldInfo.Fits, hname] at hfits
      unfold decodeFixed
      rw [hname]
      exact (h.decodeIsoName_eq hbl (h.start ▸ hfits) _).symm
    · refine (decodeFixed_congr ?_ hsame ctx .empty).symm
      generalize f.fieldType = t at htype hindirect hname
      rcases t with - | t
      · rfl
      · cases t with
        | stringFix => exact absurd rfl htype.1
        | stringLz => exact absurd rfl htype.2.1
        | stringLau => exact absurd rfl htype.2.2.1
        | binary => exact absurd rfl htype.2.2.2.1
        | indirectLookup => exact absurd rfl hindirect
        | isoName => exact absurd rfl hname
        | _ => rfl

/-- **A value is read as if it were alone**, wherever its bits stand. -/
theorem Stands.readsAs {s : Staged} (h : Stands f (some s) before after data off)
    (hformed : Formed f v s) :
    ∃ x, ReadsAs db info f data off ctx (some s) x ∧ f.valueAlone db info data s = some x := by
  cases hformed with
  | stringFix htype htext hbl hwidth =>
      exact ⟨_, h.readsAs_stringFix htype hbl,
        ((h.alone h.fits_alone).readsAs_stringFix htype hbl).valueAlone (by rw [htype]; nofun)⟩
  | stringLz htype htext hlength hwidth =>
      exact ⟨_, h.readsAs_stringLz htype hlength hwidth,
        ((h.alone h.fits_alone).readsAs_stringLz htype hlength hwidth).valueAlone
          (by rw [htype]; nofun)⟩
  | stringLau htype htext hlength =>
      exact ⟨_, h.readsAs_stringLau htype hlength,
        ((h.alone h.fits_alone).readsAs_stringLau htype hlength).valueAlone (by rw [htype]; nofun)⟩
  | binary htype bytes =>
      exact ⟨_, h.readsAs_binary htype,
        ((h.alone h.fits_alone).readsAs_binary htype).valueAlone (by rw [htype]; nofun)⟩
  | dynamicFieldValue htype bytes =>
      have hfits := h.fits
      rw [FieldInfo.Fits, htype] at hfits
      exact absurd hfits not_false
  | scalar htype hbl raw => exact h.readsAs_scalar htype hbl

end Reads

end Values

end Canboat
