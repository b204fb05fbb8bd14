import Canboat.Core.Bits
import Canboat.Core.Text
import Canboat.Decode.Value

/-!
# Decoding one field

A decoder for each field type, and the choice between them. What an ISO NAME holds is
decoded by the walk over a whole definition, which is a parameter here.
-/

namespace Canboat

variable {F : Type} [Float64 F]

/-- What earlier fields of a message say about later ones. -/
structure DecodeContext (F : Type) where
  targetPgn : Option UInt32
  currentParamIdx : Option UInt32
  dynamicFieldType : Option (LookupFieldTypeValue F)
  dynamicLengthBytes : Option UInt32

def DecodeContext.empty : DecodeContext F := ⟨none, none, none, none⟩

def sentinelFieldValue (f : FieldInfo F) (ex : Extracted) : Option (FieldValue F) :=
  match classifySentinel ex f.unknownValue f.outOfRangeValue f.reservedValue with
  | .unknown => some .notAvailable
  | .outOfRange => some (.outOfRange ex.raw)
  | .reserved => some (.reservedValue ex.raw)
  | .none => none

/-- A field without a value where the payload ends before it. -/
def extracted (data : List UInt8) (bitOffset bitLength : UInt32) (signed : Bool) (offset : Int64)
    (value : Extracted → FieldValue F) : FieldValue F :=
  match extractBits data bitOffset.toNat bitLength.toNat signed offset with
  | none => .notAvailable
  | some ex => value ex

def decodeNumber (f : FieldInfo F) (data : List UInt8) (bitOffset bitLength : UInt32)
    (signed : Bool) : FieldValue F :=
  let displayOffset : F := Float64.ofInt (f.offset.getD 0).toInt
  -- a display offset forces the extraction unsigned
  let effectiveSigned := if f.offset.getD 0 ≠ 0 then false else signed
  extracted data bitOffset bitLength effectiveSigned 0 fun ex =>
    (sentinelFieldValue f ex).getD <|
      let resolution := f.resolution.getD (Float64.ofInt 1)
      if Float64.beq resolution (Float64.ofInt 1) ∧ f.unit.isNone ∧ f.physicalQuantity.isNone ∧
          Float64.beq f.unitOffset (Float64.ofInt 0) ∧
          Float64.beq displayOffset (Float64.ofInt 0) then
        .integer ex.value
      else
        .number (Float64.add (Float64.add
          (Float64.mul (Float64.ofInt ex.value.toInt) resolution) displayOffset) f.unitOffset)

def decodeFloat (data : List UInt8) (bitOffset bitLength : UInt32) : FieldValue F :=
  if bitLength ≠ 32 then .unsupported "FLOAT (non-32-bit)"
  else extracted data bitOffset 32 false 0 fun ex =>
    .float (Float64.ofBits32 ex.value.toUInt64.toUInt32)

/-- A name always wins over the sentinels of the field. -/
def labelled (f : FieldInfo F) (ex : Extracted) (name : Option String) : FieldValue F :=
  if name.isSome then .lookup ex.raw name
  else (sentinelFieldValue f ex).getD (.lookup ex.raw none)

def decodeLookup (f : FieldInfo F) (data : List UInt8) (bitOffset bitLength : UInt32)
    (db : PgnDatabase F) : FieldValue F :=
  extracted data bitOffset bitLength false 0 fun ex =>
    labelled f ex (((f.lookupEnumeration.bind db.lookup).bind (·.get ex.raw)).map (·.name))

/-- The name for a value together with the value of another field of the payload. -/
def indirectName (f : FieldInfo F) (info : PgnInfo F) (data : List UInt8) (db : PgnDatabase F)
    (raw : UInt64) : Option String := do
  let tableName ← f.lookupIndirectEnumeration
  let val1Order ← f.lookupIndirectEnumerationFieldOrder
  let val1Field ← info.fields.find? (·.order = val1Order)
  let val1Off ← val1Field.bitOffset
  let val1Len ← val1Field.bitLength
  let val1 ← extractBits data val1Off.toNat val1Len.toNat false 0
  db.indirectLookup tableName val1.raw raw

def decodeIndirectLookup (f : FieldInfo F) (info : PgnInfo F) (data : List UInt8)
    (bitOffset bitLength : UInt32) (db : PgnDatabase F) : FieldValue F :=
  extracted data bitOffset bitLength false 0 fun ex =>
    labelled f ex (indirectName f info data db ex.raw)

def bitValue (bit : Fin 64) : UInt64 := 1 <<< UInt64.ofNat bit.val

/-- The set bits of the table, in its order. -/
def setBits (table : Option BitLookupTable) (raw : UInt64) : List (UInt64 × String) :=
  match table with
  | none => []
  | some t =>
      (t.values.filter fun v => raw &&& bitValue v.bit ≠ 0).map fun v => (bitValue v.bit, v.name)

def decodeBitlookup (f : FieldInfo F) (data : List UInt8) (bitOffset bitLength : UInt32)
    (db : PgnDatabase F) : FieldValue F :=
  extracted data bitOffset bitLength false 0 fun ex =>
    .bitField ex.value.toUInt64
      (setBits (f.lookupBitEnumeration.bind db.bitLookup) ex.value.toUInt64)

/-- The low `n` bytes. -/
def lowBytes (raw : UInt64) (n : ℕ) : List UInt8 :=
  (List.range n).map fun i => (raw >>> UInt64.ofNat (i * 8)).toUInt8

def decodeReserved (data : List UInt8) (bitOffset bitLength : UInt32) (signed : Bool)
    (offsetK : Int64) (isReserved : Bool) : FieldValue F :=
  extracted data bitOffset bitLength signed offsetK fun ex =>
    let raw := ex.value.toUInt64
    if isReserved && ex.value == ex.max then .reserved raw [] bitLength
    else
      let bytes := lowBytes raw (max ((bitLength.toNat + 7) / 8) 1)
      if isReserved then .reserved raw bytes bitLength else .spare raw bytes bitLength

/-- The payload's eight bytes as a number, and decoded as an address claim's. -/
def decodeIsoName (claim : List UInt8 → List (DecodedField F)) (data : List UInt8)
    (bitOffset bitLength : UInt32) : FieldValue F :=
  if bitLength ≠ 64 ∨ bitOffset &&& 7 ≠ 0 then
    .unsupported "ISO_NAME (unaligned or non-64-bit)"
  else
    let byteOff := bitOffset.toNat / 8
    if byteOff + 8 > data.length then .notAvailable
    else
      let sub := (data.drop byteOff).take 8
      .isoName (sub.foldr (fun b value => b.toUInt64 ||| (value <<< 8)) 0) (claim sub)

/-- Chunks of at most eight bits, each a byte. -/
def binaryChunks (data : List UInt8) (bo : ℕ) : ℕ → ℕ → Option (List UInt8)
  | 0, _ => some []
  | n + 1, remaining => do
      let ex ← extractBits data bo (min remaining 8) false 0
      let bytes ← binaryChunks data (bo + min remaining 8) n (remaining - min remaining 8)
      pure (ex.value.toUInt64.toUInt8 :: bytes)

def decodeBinary (data : List UInt8) (bitOffset bitLength : UInt32) : FieldValue F :=
  let bo := bitOffset.toNat
  let bl := bitLength.toNat
  if bo % 8 = 0 ∧ bl % 8 = 0 then
    if bo / 8 ≥ data.length then .notAvailable
    else .binary ((data.drop (bo / 8)).take (bl / 8))
  else
    match binaryChunks data bo ((bl + 7) / 8) bl with
    | none => .notAvailable
    | some bytes => .binary bytes

def decodeMmsi (data : List UInt8) (bitOffset bitLength : UInt32) : FieldValue F :=
  if bitLength ≠ 32 then .unsupported "MMSI (non-32-bit)"
  else extracted data bitOffset 32 false 0 fun ex => .mmsi ex.value.toUInt64.toUInt32

/-- A name only where the number alone tells which message it is. -/
def pgnDescription (db : PgnDatabase F) (pgn : UInt32) : Option String :=
  match db.pgnVariants pgn with
  | [p] => if p.fields.any (·.matchValue.isSome) then none else some p.description
  | _ => none

def decodePgnField (data : List UInt8) (bitOffset bitLength : UInt32) (db : PgnDatabase F) :
    FieldValue F :=
  if bitLength ≠ 24 then .unsupported "PGN (non-24-bit)"
  else extracted data bitOffset 24 false 0 fun ex =>
    let raw := ex.value.toUInt64.toUInt32
    let pgn := if (raw >>> 8) &&& 0xff < 240 then raw &&& 0x00ffff00 else raw &&& 0x00ffffff
    .pgn pgn (pgnDescription db pgn)

def decodeDate (f : FieldInfo F) (data : List UInt8) (bitOffset bitLength : UInt32) :
    FieldValue F :=
  if bitLength ≠ 16 then .unsupported "DATE (non-16-bit)"
  else extracted data bitOffset 16 false 0 fun ex =>
    (sentinelFieldValue f ex).getD (.date ex.value.toUInt64.toUInt16)

def decodeTime (f : FieldInfo F) (data : List UInt8) (bitOffset bitLength : UInt32)
    (signed : Bool) : FieldValue F :=
  extracted data bitOffset bitLength signed (f.offset.getD 0) fun ex =>
    (sentinelFieldValue f ex).getD
      (.time ex.value (Float64.mul (Float64.ofInt ex.value.toInt)
        (f.resolution.getD (Float64.ofInt 1))))

/-- Up to the first NUL, without the padding at the end. -/
def decodeStringFix (data : List UInt8) (bitOffset bitLength : UInt32) : FieldValue F :=
  let bo := bitOffset.toNat
  let bl := bitLength.toNat
  if bo % 8 ≠ 0 ∨ bl % 8 ≠ 0 then .unsupported "STRING_FIX (unaligned)"
  else if bo / 8 + bl / 8 > data.length then .notAvailable
  else
    let raw := (data.drop (bo / 8)).take (bl / 8)
    let text := trimEnd isPaddingByte (raw.takeWhile (· ≠ 0))
    if text.isEmpty then .notAvailable else .string (fromUtf8Lossy text)

/-- Text without its padding, or no value. -/
def paddedText (s : List Char) : FieldValue F :=
  let trimmed := trimStringPadding s
  if trimmed.isEmpty then .notAvailable else .string trimmed

/-- The value and the bits it takes, by the length in the first byte. -/
def decodeStringLau (data : List UInt8) (bitOffset : UInt32) : FieldValue F × UInt32 :=
  let bo := bitOffset.toNat
  if bo % 8 ≠ 0 then (.unsupported "STRING_LAU (unaligned)", 8)
  else
    match data.drop (bo / 8) with
    | totalLen :: encoding :: rest =>
        if totalLen < 2 then (.notAvailable, 16)
        else
          let body := rest.take (totalLen.toNat - 2)
          let s :=
            if encoding = 0 then fromUtf16Lossy (codeUnits body)
            else fromUtf8Lossy (trimEnd isPaddingByte body)
          (paddedText s, totalLen.toUInt32 * 8)
    | _ => (.notAvailable, 16)

/-- A length byte, then the text; a width of zero reaches to the end of the payload. -/
def decodeStringLz (data : List UInt8) (bitOffset bitLength : UInt32) : FieldValue F :=
  let bo := bitOffset.toNat
  let bl := bitLength.toNat
  if bo % 8 ≠ 0 then .unsupported "STRING_LZ (unaligned)"
  else
    match data.drop (bo / 8) with
    | [] => .notAvailable
    | lenByte :: rest =>
        let region := if bl = 0 then rest else rest.take (bl / 8 - 1)
        paddedText (fromUtf8Lossy (region.take lenByte.toNat))

def decodeDynamicFieldKey (f : FieldInfo F) (data : List UInt8) (db : PgnDatabase F)
    (bitOffset bitLength : UInt32) (ctx : DecodeContext F) : FieldValue F × DecodeContext F :=
  match extractBits data bitOffset.toNat bitLength.toNat false 0 with
  | none => (.notAvailable, ctx)
  | some ex =>
      let entry := f.lookupFieldTypeEnumeration.bind fun n => db.fieldTypeLookup n ex.raw
      (labelled f ex (entry.map (·.name)), { ctx with dynamicFieldType := entry })

/-- A sentinel is not a length. -/
def decodeDynamicFieldLength (f : FieldInfo F) (data : List UInt8)
    (bitOffset bitLength : UInt32) (ctx : DecodeContext F) : FieldValue F × DecodeContext F :=
  match extractBits data bitOffset.toNat bitLength.toNat false 0 with
  | none => (.notAvailable, ctx)
  | some ex =>
      match sentinelFieldValue f ex with
      | some sent => (sent, ctx)
      | none => (.integer ex.value, { ctx with dynamicLengthBytes := some ex.raw.toUInt32 })

def decodeDynamicNumber (data : List UInt8) (bitOffset bitLength : UInt32) (signed : Bool)
    (entry : LookupFieldTypeValue F) : FieldValue F :=
  extracted data bitOffset bitLength signed 0 fun ex =>
    if isUnavailable ex then .notAvailable
    else
      let res := entry.resolution.getD (Float64.ofInt 1)
      if Float64.beq res (Float64.ofInt 1) ∧ entry.unit.isNone then .integer ex.value
      else .number (Float64.mul (Float64.ofInt ex.value.toInt) res)

def startsWith (ft pre : String) : Bool := pre.toList.isPrefixOf ft.toList

/-- A lookup through the entry's own table. -/
def decodeDynamicLookup (data : List UInt8) (bitOffset bits : UInt32) (db : PgnDatabase F)
    (entry : LookupFieldTypeValue F) : FieldValue F :=
  match entry.lookupEnumeration with
  | none => decodeBinary data bitOffset bits
  | some name =>
      extracted data bitOffset bits false 0 fun ex =>
        let raw := ex.value.toUInt64
        .lookup raw (((db.lookup name).bind (·.get raw)).map (·.name))

/-- Unavailable by the unsigned pattern, however the value is read. -/
def decodeDynamicDuration (data : List UInt8) (bitOffset bits : UInt32) (signed : Bool)
    (entry : LookupFieldTypeValue F) : FieldValue F :=
  let wantSigned := signed || entry.name == "Race Timer" || entry.name == "Timezone offset"
  extracted data bitOffset bits false 0 fun exUnsigned =>
    if isUnavailable exUnsigned then .notAvailable
    else
      extracted data bitOffset bits wantSigned 0 fun ex =>
        .time ex.value (Float64.mul (Float64.ofInt ex.value.toInt)
          (entry.resolution.getD (Float64.ofInt 1)))

/-- A value of the type that the entry names; a blob where no type is known. -/
def decodeDynamicValue (claim : List UInt8 → List (DecodedField F)) (data : List UInt8)
    (bitOffset bits : UInt32) (db : PgnDatabase F) (entry : LookupFieldTypeValue F) :
    FieldValue F :=
  match entry.fieldType with
  | none => decodeBinary data bitOffset bits
  | some ft =>
      let signed := entry.signed || startsWith ft "FIX"
      if startsWith ft "NUMBER" ∨ startsWith ft "FIX" ∨ startsWith ft "UFIX" then
        decodeDynamicNumber data bitOffset bits signed entry
      else if ft = "LOOKUP" then decodeDynamicLookup data bitOffset bits db entry
      else if ft = "DURATION" ∨ ft = "TIME" then
        decodeDynamicDuration data bitOffset bits signed entry
      else if ft = "DATE" then
        extracted data bitOffset bits false 0 fun ex =>
          if isUnavailable ex then .notAvailable else .date ex.value.toUInt64.toUInt16
      else if ft = "ISO_NAME" then decodeIsoName claim data bitOffset bits
      else decodeBinary data bitOffset bits

/-- The value and the bits it takes, by the key and the length before it. -/
def decodeDynamicFieldValue (claim : List UInt8 → List (DecodedField F)) (data : List UInt8)
    (bitOffset : UInt32) (db : PgnDatabase F) (ctx : DecodeContext F) : FieldValue F × UInt32 :=
  let bits := ((ctx.dynamicLengthBytes.map (· * 8)).or
    (ctx.dynamicFieldType.bind (·.bits))).getD 0
  match ctx.dynamicFieldType with
  | none => (decodeBinary data bitOffset bits, bits)
  | some entry => (decodeDynamicValue claim data bitOffset bits db entry, bits)

/-- The types whose width the definition gives. -/
def decodeFixed (claim : List UInt8 → List (DecodedField F)) (f : FieldInfo F)
    (info : PgnInfo F) (data : List UInt8) (db : PgnDatabase F) (bitOffset bitLength : UInt32)
    (ctx : DecodeContext F) : FieldValue F × DecodeContext F :=
  let signed := f.signed.getD false
  let offsetK := f.offset.getD 0
  match f.fieldType with
  | some .number | some .decimal => (decodeNumber f data bitOffset bitLength signed, ctx)
  | some .float => (decodeFloat data bitOffset bitLength, ctx)
  | some .lookup => (decodeLookup f data bitOffset bitLength db, ctx)
  | some .indirectLookup => (decodeIndirectLookup f info data bitOffset bitLength db, ctx)
  | some .bitLookup => (decodeBitlookup f data bitOffset bitLength db, ctx)
  | some .reserved => (decodeReserved data bitOffset bitLength signed offsetK true, ctx)
  | some .spare => (decodeReserved data bitOffset bitLength signed offsetK false, ctx)
  | some .binary => (decodeBinary data bitOffset bitLength, ctx)
  | some .mmsi => (decodeMmsi data bitOffset bitLength, ctx)
  | some .pgn => (decodePgnField data bitOffset bitLength db, ctx)
  | some .date => (decodeDate f data bitOffset bitLength, ctx)
  | some .time | some .duration => (decodeTime f data bitOffset bitLength signed, ctx)
  | some .stringFix => (decodeStringFix data bitOffset bitLength, ctx)
  | some .stringLz => (decodeStringLz data bitOffset bitLength, ctx)
  | some .isoName => (decodeIsoName claim data bitOffset bitLength, ctx)
  | some .dynamicFieldKey => decodeDynamicFieldKey f data db bitOffset bitLength ctx
  | some .dynamicFieldLength => decodeDynamicFieldLength f data bitOffset bitLength ctx
  | some .fieldIndex => (decodeNumber f data bitOffset bitLength signed, ctx)
  -- STRING_LAU, VARIABLE and DYNAMIC_FIELD_VALUE are decoded before
  | some .stringLau | some .variable | some .dynamicFieldValue | none =>
      (.unsupported "<no field type>", ctx)

/-- What the value says about the fields after it. -/
def DecodeContext.note (ctx : DecodeContext F) (f : FieldInfo F) (value : FieldValue F) :
    DecodeContext F :=
  let ctx :=
    match value with
    | .pgn p _ => { ctx with targetPgn := some p }
    | .integer n =>
        if f.fieldType = some .fieldIndex then
          { ctx with currentParamIdx := some n.toUInt64.toUInt32 }
        else ctx
    | _ => ctx
  if f.isDynamicLengthMarker then
    match value with
    | .integer n =>
        if 0 ≤ n then { ctx with dynamicLengthBytes := some n.toUInt64.toUInt32 } else ctx
    | .number v =>
        if Float64.le (Float64.ofInt 0) v then
          { ctx with dynamicLengthBytes := some (Float64.toU32 v) }
        else ctx
    | _ => ctx
  else ctx

/-- A field outside the repeating sets. -/
def DecodedField.single (f : FieldInfo F) (value : FieldValue F) (bitOffset bitLength : UInt32)
    (overrides : Option (FieldOverrides F)) : DecodedField F :=
  { info := f, value, bitOffset := some bitOffset, bitLength := some bitLength,
    repeatIndex := none, repeatSet := 0, overrides }

/-- A field of a type other than VARIABLE: the field, the bits it takes, and the context after
it. -/
def decodeSelfContained (claim : List UInt8 → List (DecodedField F)) (f : FieldInfo F)
    (info : PgnInfo F) (data : List UInt8) (db : PgnDatabase F) (bitOffset : UInt32)
    (ctx : DecodeContext F) : Option (DecodedField F × UInt32 × DecodeContext F) :=
  -- to the end of the payload, in whole bytes
  let rest : UInt32 := UInt32.ofNat ((min (data.length * 8) 4294967295 - bitOffset.toNat) / 8 * 8)
  match f.fieldType, f.bitLength with
  | some .stringLau, _ =>
      let (value, bits) := decodeStringLau data bitOffset
      some (.single f value bitOffset bits none, bits, ctx)
  | some .dynamicFieldValue, _ =>
      let overrides := ctx.dynamicFieldType.map fun v => ⟨v.unit, v.resolution, v.precision⟩
      let (value, bits) := decodeDynamicFieldValue claim data bitOffset db ctx
      some (.single f value bitOffset bits overrides, bits,
        { ctx with dynamicFieldType := none, dynamicLengthBytes := none })
  | some .stringLz, none =>
      some (.single f (decodeStringLz data bitOffset rest) bitOffset rest none, rest, ctx)
  | some .binary, none =>
      some (.single f (decodeBinary data bitOffset rest) bitOffset rest none, rest, ctx)
  | _, none => none
  | _, some bitLength =>
      let (value, ctx) := decodeFixed claim f info data db bitOffset bitLength ctx
      some (.single f value bitOffset bitLength none, bitLength, ctx.note f value)

/-- A VARIABLE field: a value of the field that the message names before. -/
def decodeVariable (claim : List UInt8 → List (DecodedField F)) (f : FieldInfo F)
    (data : List UInt8) (db : PgnDatabase F) (bitOffset : UInt32) (ctx : DecodeContext F) :
    Option (DecodedField F × UInt32 × DecodeContext F) := do
  let targetPgn ← ctx.targetPgn
  let targetIdx ← ctx.currentParamIdx
  let targetInfo ← db.firstPgn targetPgn
  let targetField ← targetInfo.fields.find? (·.order.toUInt32 = targetIdx)
  -- in an empty context a VARIABLE field names no other
  if targetField.fieldType = some .variable then none
  else
    let (sub, bits, _) ← decodeSelfContained claim targetField targetInfo data db bitOffset .empty
    -- whole bytes
    let aligned : UInt32 := UInt32.ofNat ((bits.toNat + 7) / 8) * 8
    let overrides := ⟨targetField.unit, targetField.resolution, targetField.precision⟩
    pure (.single f sub.value bitOffset (targetField.bitLength.getD aligned) (some overrides),
      aligned, ctx)

def decodeOneFieldAt (claim : List UInt8 → List (DecodedField F)) (f : FieldInfo F)
    (info : PgnInfo F) (data : List UInt8) (db : PgnDatabase F) (bitOffset : UInt32)
    (ctx : DecodeContext F) : Option (DecodedField F × UInt32 × DecodeContext F) :=
  if f.fieldType = some .variable then decodeVariable claim f data db bitOffset ctx
  else decodeSelfContained claim f info data db bitOffset ctx

end Canboat
