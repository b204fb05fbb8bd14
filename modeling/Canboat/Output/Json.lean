import Canboat.Core.Bits
import Canboat.Output.Number

/-!
# JSON output

The record as the analyzer writes it, compact and without a final newline.
-/

namespace Canboat

open Binary64 (digits paddedDigits)

/-- Field keys and descriptions as the schema's names or as its identifiers. -/
inductive CamelCase
  | off
  | lower
  | upper
deriving DecidableEq, Repr

structure JsonOptions where
  includeEmpty : Bool
  nameValue : Bool
  debug : Bool
  camelCase : CamelCase
deriving DecidableEq, Repr

/-- The identifier with its first character in upper case. -/
def upperCamel (id : Identifier) : List Char :=
  match id.val.toList with
  | [] => []
  | c :: cs => c.toUpper :: cs

/-- A name of the schema in the style asked for. -/
def displayName (mode : CamelCase) (name : String) (id : Identifier) : List Char :=
  match mode with
  | .off => name.toList
  | .lower => id.val.toList
  | .upper => upperCamel id

/-! ## Strings -/

def hexDigit (upper : Bool) (n : ℕ) : Char :=
  if n < 10 then Char.ofNat (48 + n) else Char.ofNat ((if upper then 55 else 87) + n)

/-- What stands for a character in a string; field values escape a slash too. -/
def escape (slash : Bool) (c : Char) : List Char :=
  if c = '"' then ['\\', '"']
  else if c = '\\' then ['\\', '\\']
  else if c = '\x08' then ['\\', 'b']
  else if c = '\t' then ['\\', 't']
  else if c = '\n' then ['\\', 'n']
  else if c = '\x0c' then ['\\', 'f']
  else if c = '\r' then ['\\', 'r']
  else if c.toNat < 0x20 then
    ['\\', 'u', '0', '0', hexDigit false (c.toNat / 16), hexDigit false (c.toNat % 16)]
  else if slash && c == '/' then ['\\', '/']
  else [c]

def writeJsonStringWithTable (slash : Bool) (s : List Char) : List Char :=
  '"' :: (s.flatMap (escape slash) ++ ['"'])

def writeJsonString (s : List Char) : List Char := writeJsonStringWithTable false s

def writeFieldJsonString (s : List Char) : List Char := writeJsonStringWithTable true s

def hexByte (b : UInt8) : List Char := [hexDigit true (b.toNat / 16), hexDigit true (b.toNat % 16)]

/-- Hexadecimal bytes with spaces between, quoted. -/
def hexString (bytes : List UInt8) : List Char :=
  '"' :: ([' '].intercalate (bytes.map hexByte) ++ ['"'])

def writeInt (n : ℤ) : List Char := (if n < 0 then ['-'] else []) ++ digits n.natAbs

/-! ## Field values -/

variable {F : Type} [Float64 F]

def writeNumber (f : DecodedField F) (v : F) : List Char :=
  let p := effectivePrecision f.precision f.resolution
  writeFixedFloat v p (if p = 7 ∧ f.unit = some "deg" then 10 else 0)

/-- The labels of the set bits, with their values on demand. -/
def writeBits (opts : JsonOptions) (bits : List (UInt64 × String)) : List Char :=
  if bits.isEmpty then "null".toList
  else
    '[' :: ([','].intercalate (bits.map fun b =>
      if opts.nameValue then
        "\x7b\"value\":".toList ++ digits b.1.toNat ++ ",\"name\":".toList ++
          writeJsonString b.2.toList ++ ['\x7d']
      else writeJsonString b.2.toList) ++ [']'])

def writeMmsi (v : UInt32) : List Char := '"' :: (paddedDigits 9 v.toNat ++ ['"'])

def writeUnsupported (fieldType : String) : List Char :=
  writeJsonString ("<unsupported:".toList ++ fieldType.toList ++ ['>'])

def timeText (f : DecodedField F) (seconds : F) : List Char :=
  formatTime seconds (effectivePrecision f.precision f.resolution) false

/-- Seconds for a resolution of whole seconds, else the raw number. -/
def printValue (f : DecodedField F) (raw : Int64) (seconds : F) : ℤ :=
  if (f.resolution.map fun r => Float64.le (Float64.ofInt 1) r) = some true then
    (Float64.toI64 seconds).toInt
  else raw.toInt

/-- A field whose place is past the payload has no place in the output, nor has one that says
nothing. -/
def shown (opts : JsonOptions) (payloadBits : UInt32) (f : DecodedField F) : Bool :=
  let bare := !opts.includeEmpty && !opts.debug
  !((f.bitOffset.map fun bo => decide (payloadBits ≤ bo)).getD false) &&
    match f.value with
    | .notAvailable => !bare
    | .spare value _ _ => value != 0
    | .reserved value _ bitLength =>
        -- all ones
        let max : UInt64 :=
          if 64 ≤ bitLength then 18446744073709551615 else (1 <<< bitLength.toUInt64) - 1
        value != max
    | .bitField _ bits => !(bare && bits.isEmpty)
    | _ => true

/-- A subfield of an ISO NAME is dropped where it says nothing. -/
def subfieldShown (opts : JsonOptions) (f : DecodedField F) : Bool :=
  match f.value with
  | .notAvailable => opts.includeEmpty
  | .spare _ _ _ => false
  | _ => true

/-- A suffix for a field of the primary key. -/
def keySuffix (f : DecodedField F) : List Char :=
  if f.partOfPrimaryKey then ",\"key\":true".toList else []

def optionalName (name : Option String) : List Char :=
  match name with
  | some n => ",\"name\":".toList ++ writeJsonString n.toList
  | none => []

def nameOrNull (name : Option String) : List Char :=
  ",\"name\":".toList ++
    match name with
    | some n => writeJsonString n.toList
    | none => "null".toList

/-- A value other than an ISO NAME. -/
def writeLeaf (opts : JsonOptions) (f : DecodedField F) : FieldValue F → List Char
  | .number v => writeNumber f v
  | .integer v =>
      if opts.nameValue && f.partOfPrimaryKey then
        "\x7b\"value\":".toList ++ writeInt v.toInt ++ ",\"key\":true\x7d".toList
      else writeInt v.toInt
  | .float v => Float64.display v
  | .binary bytes => hexString bytes
  | .lookup value name =>
      if opts.nameValue then
        "\x7b\"value\":".toList ++ digits value.toNat ++
          (if name.isNone ∧ ¬opts.includeEmpty then [] else nameOrNull name) ++
          keySuffix f ++ ['\x7d']
      else
        match name with
        | some n => writeJsonString n.toList
        | none => digits value.toNat
  | .bitField _ bits => writeBits opts bits
  | .string s => writeFieldJsonString s
  | .date d =>
      if opts.nameValue then
        "\x7b\"value\":".toList ++ digits d.toNat ++ ",\"name\":".toList ++
          writeJsonString (formatDate d) ++ ['\x7d']
      else writeJsonString (formatDate d)
  | .time raw seconds =>
      if opts.nameValue then
        "\x7b\"value\":".toList ++ writeInt (printValue f raw seconds) ++ ",\"name\":".toList ++
          writeJsonString (timeText f seconds) ++ ['\x7d']
      else writeJsonString (timeText f seconds)
  | .mmsi v =>
      if opts.nameValue && f.partOfPrimaryKey then
        "\x7b\"value\":".toList ++ writeMmsi v ++ ",\"key\":true\x7d".toList
      else writeMmsi v
  | .pgn value description =>
      if opts.nameValue then
        "\x7b\"value\":".toList ++ digits value.toNat ++ optionalName description ++ ['\x7d']
      else digits value.toNat
  | .isoName value _ => digits value.toNat
  | .reserved _ bytes _ => hexString bytes
  | .spare _ bytes _ => hexString bytes
  | .notAvailable => "null".toList
  | .outOfRange _ => writeJsonString "Out Of Range".toList
  | .reservedValue _ => writeJsonString "Reserved".toList
  | .unsupported fieldType => writeUnsupported fieldType

mutual

def writeFieldValue (opts : JsonOptions) : DecodedField F → List Char
  | ⟨info, value, bitOffset, bitLength, repeatIndex, repeatSet, overrides⟩ =>
      match value with
      | .isoName value subfields =>
          if opts.nameValue then
            "\x7b\"value\":".toList ++ digits value.toNat ++ ",\"name\":\x7b".toList ++
              writeSubfields opts [] subfields ++ "\x7d\x7d".toList
          else digits value.toNat
      | value =>
          writeLeaf opts ⟨info, value, bitOffset, bitLength, repeatIndex, repeatSet, overrides⟩
            value

def writeSubfields (opts : JsonOptions) (sep : List Char) : List (DecodedField F) → List Char
  | [] => []
  | sf :: subfields =>
      if subfieldShown opts sf then
        sep ++ writeJsonString (displayName opts.camelCase sf.info.name sf.info.id) ++
          ':' :: writeFieldValue opts sf ++ writeSubfields opts [','] subfields
      else writeSubfields opts sep subfields

end

/-! ## Diagnostics -/

/-- The bits of a value, in canboat's order. -/
def bitsText (raw : UInt64) (bits : ℕ) : List Char :=
  (List.range bits).reverse.map fun i =>
    if (((raw >>> UInt64.ofNat (i / 8)) &&& 0xff) >>> UInt64.ofNat (i % 8)) &&& 1 = 1 then '1'
    else '0'

/-- The payload bytes of a field in whole bytes; else its value in its place in the bytes it
touches, and the bits. -/
def writeDebugSuffix (f : DecodedField F) (payload : List UInt8) : List Char :=
  match f.bitOffset, f.bitLength with
  | some bo, some bl =>
      if bl = 0 then []
      else if bo % 8 = 0 ∧ bl % 8 = 0 then
        let start := (bo / 8).toNat
        let endClamped := min ((bo + bl) / 8).toNat payload.length
        if start < endClamped then
          ",\"bytes\":".toList ++ hexString ((payload.take endClamped).drop start)
        else []
      else
        let signed := match f.value with
          | .number _ => f.unit.isSome
          | _ => false
        match extractBits payload bo.toNat bl.toNat signed 0 with
        | none => []
        | some ex =>
            let rawUnsigned := ex.value.toUInt64
            let shift := (bo % 8).toNat
            let byteSpan := (shift + bl.toNat + 7) / 8
            let shifted := rawUnsigned.toNat <<< shift
            let bytes := (List.range byteSpan).map fun i => UInt8.ofNat (shifted >>> (i * 8))
            ",\"bytes\":".toList ++ hexString bytes ++
              if bl % 8 ≠ 0 then
                ",\"bits\":\"".toList ++ bitsText rawUnsigned bl.toNat ++ ['"']
              else []
  | _, _ => []

/-- The value in the wrapping object, with its name where there is one; for a value other than
an ISO NAME. -/
def writeBare (opts : JsonOptions) (f : DecodedField F) : FieldValue F → List Char
  | .number v => writeNumber f v
  | .integer v => writeInt v.toInt
  | .float v => Float64.display v
  | .binary bytes => hexString bytes
  | .lookup value name =>
      if opts.nameValue then digits value.toNat ++ nameOrNull name
      else
        match name with
        | some n => writeJsonString n.toList
        | none => digits value.toNat
  | .bitField _ bits => writeBits opts bits
  | .string s => writeFieldJsonString s
  | .date d =>
      if opts.nameValue then
        digits d.toNat ++ ",\"name\":".toList ++ writeJsonString (formatDate d)
      else writeJsonString (formatDate d)
  | .time raw seconds =>
      if opts.nameValue then
        writeInt (printValue f raw seconds) ++ ",\"name\":".toList ++
          writeJsonString (timeText f seconds)
      else writeJsonString (timeText f seconds)
  | .mmsi v => writeMmsi v
  | .pgn value description =>
      digits value.toNat ++ if opts.nameValue then nameOrNull description else []
  | .isoName value _ => digits value.toNat
  | .reserved _ bytes _ => hexString bytes
  | .spare _ _ _ => "null".toList
  | .notAvailable => "null".toList
  | .outOfRange _ => writeJsonString "Out Of Range".toList
  | .reservedValue _ => writeJsonString "Reserved".toList
  | .unsupported fieldType => writeUnsupported fieldType

/-- The eight bytes of an ISO NAME. -/
def namePayload (f : DecodedField F) (payload : List UInt8) : List UInt8 :=
  match f.bitOffset with
  | some bo =>
      if bo % 8 = 0 ∧ (bo / 8).toNat + 8 ≤ payload.length then
        (payload.drop (bo / 8).toNat).take 8
      else []
  | none => []

mutual

def writeFieldValueDebug (opts : JsonOptions) (payload : List UInt8) :
    DecodedField F → List Char
  | ⟨info, value, bitOffset, bitLength, repeatIndex, repeatSet, overrides⟩ =>
      let f : DecodedField F :=
        ⟨info, value, bitOffset, bitLength, repeatIndex, repeatSet, overrides⟩
      "\x7b\"value\":".toList ++
        (match value with
          | .isoName value subfields =>
              if opts.nameValue then
                digits value.toNat ++ ",\"name\":\x7b".toList ++
                  writeSubfieldsDebug opts (namePayload f payload) [] subfields ++ ['\x7d']
              else digits value.toNat
          | value => writeBare opts f value) ++
        writeDebugSuffix f payload ++ (if opts.nameValue then keySuffix f else []) ++ ['\x7d']

def writeSubfieldsDebug (opts : JsonOptions) (payload : List UInt8) (sep : List Char) :
    List (DecodedField F) → List Char
  | [] => []
  | sf :: subfields =>
      if subfieldShown opts sf then
        sep ++ writeJsonString (displayName opts.camelCase sf.info.name sf.info.id) ++
          ':' :: writeFieldValueDebug opts payload sf ++
          writeSubfieldsDebug opts payload [','] subfields
      else writeSubfieldsDebug opts payload sep subfields

end

/-! ## Records -/

/-- The body of the `fields` object so far. -/
structure FieldsBuf where
  buf : List Char
  topSep : List Char
  currentSet : UInt8
  currentIter : Option UInt32
deriving DecidableEq, Repr

/-- A member for a field. -/
def writeMember (opts : JsonOptions) (payload : List UInt8) (f : DecodedField F) : List Char :=
  writeJsonString (displayName opts.camelCase f.info.name f.info.id) ++
    ':' :: if opts.debug then writeFieldValueDebug opts payload f else writeFieldValue opts f

/-- At the top level, or in a list with an object for each iteration. -/
def FieldsBuf.push (opts : JsonOptions) (payload : List UInt8) (b : FieldsBuf)
    (f : DecodedField F) : FieldsBuf :=
  let member := writeMember opts payload f
  if f.repeatSet = 0 then
    let close := if b.currentSet ≠ 0 then "\x7d]".toList else []
    { buf := b.buf ++ (close ++ b.topSep ++ member), topSep := [','], currentSet := 0,
      currentIter := if b.currentSet ≠ 0 then none else b.currentIter }
  else
    let iter := f.repeatIndex.getD 0
    if b.currentSet ≠ f.repeatSet then
      let close := if b.currentSet ≠ 0 then "\x7d]".toList else []
      let key := if f.repeatSet = 1 then "\"list\":[\x7b".toList else "\"list2\":[\x7b".toList
      { buf := b.buf ++ (close ++ b.topSep ++ key ++ member), topSep := [','],
        currentSet := f.repeatSet, currentIter := some iter }
    else if some iter ≠ b.currentIter then
      { b with buf := b.buf ++ ("\x7d,\x7b".toList ++ member), currentIter := some iter }
    else { b with buf := b.buf ++ ',' :: member }

/-- Whether a field of a list counts as one that the list shows. -/
def renderable (opts : JsonOptions) (f : DecodedField F) : Bool :=
  match f.value with
  | .spare value _ _ => value != 0
  | .notAvailable => opts.includeEmpty || opts.debug
  | _ => true

def sawSet (opts : JsonOptions) (fields : List (DecodedField F)) (set : UInt8) : Bool :=
  fields.any fun f => f.repeatSet == set && renderable opts f

/-- The list the loop ended in is closed, and a list that shows no field gets an empty
object. -/
def FieldsBuf.finish (opts : JsonOptions) (pgn : DecodedPgn F) (b : FieldsBuf) : List Char :=
  let buf := b.buf ++ if b.currentSet ≠ 0 then "\x7d]".toList else []
  let buf :=
    if pgn.hasRepeatingSet.1 ∧ ¬sawSet opts pgn.fields 1 then
      buf ++ (if buf ≠ [] ∧ b.currentSet = 0 then b.topSep else []) ++
        "\"list\":[\x7b\x7d]".toList
    else buf
  if pgn.hasRepeatingSet.2 ∧ ¬sawSet opts pgn.fields 2 then
    buf ++ (if buf ≠ [] then [','] else []) ++ "\"list2\":[\x7b\x7d]".toList
  else buf

def payloadBits (data : List UInt8) : UInt32 := UInt32.ofNat (min (data.length * 8) 4294967295)

/-- The inside of the `fields` object. -/
def fieldsText (opts : JsonOptions) (pgn : DecodedPgn F) : List Char :=
  FieldsBuf.finish opts pgn
    ((pgn.fields.filter (shown opts (payloadBits pgn.data))).foldl
      (FieldsBuf.push opts pgn.data) ⟨[], [], 0, none⟩)

/-- The record without the braces around it; the `fields` object only with a field. -/
def recordText (opts : JsonOptions) (pgn : DecodedPgn F) : List Char :=
  (match pgn.timestamp with
    | some ts =>
        "\"timestamp\":".toList ++ writeJsonString (normalizeTimestamp ts.toList) ++ [',']
    | none => []) ++
    "\"prio\":".toList ++ digits pgn.prio.toNat ++ ",\"src\":".toList ++
    digits pgn.src.toNat ++ ",\"dst\":".toList ++ digits pgn.dst.toNat ++ ",\"pgn\":".toList ++
    digits pgn.pgn.toNat ++ ",\"description\":".toList ++
    writeJsonString (displayName opts.camelCase pgn.description pgn.id) ++
    if fieldsText opts pgn = [] then []
    else ",\"fields\":\x7b".toList ++ fieldsText opts pgn ++ ['\x7d']

/-- With identifiers asked for, in an object under the record's own. -/
def writeJson (opts : JsonOptions) (pgn : DecodedPgn F) : List Char :=
  let body := '\x7b' :: recordText opts pgn ++ ['\x7d']
  if opts.camelCase = .off then body
  else
    "\x7b\"".toList ++ displayName opts.camelCase pgn.description pgn.id ++ "\":".toList ++
      body ++ ['\x7d']

end Canboat
