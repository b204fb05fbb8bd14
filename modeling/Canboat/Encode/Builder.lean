import Canboat.Core.Str
import Canboat.Frame
import Canboat.Schema.Types

/-!
# Building a message

The inverse of decoding: field values are staged, and packed least significant
bit first into the payload of a frame. The texts of the errors are left out.
-/

namespace Canboat

variable {F : Type} [Float64 F]

/-- A value to place into a field. -/
inductive EncodeValue (F : Type)
  /-- A scaled physical value, in the unit of the field. -/
  | number (v : F)
  /-- A raw integer, written to the bits verbatim. -/
  | int (n : Int64)
  | lookup (label : String)
  | text (s : List Char)
  | bytes (bytes : List UInt8)
  | pgn (p : UInt32)
  | notAvailable

/-- Why a message could not be encoded. -/
inductive EncodeError (F : Type)
  | noSuchPgnId (id : Identifier)
  | noSuchPgn (pgn : UInt32)
  | ambiguousPgn (pgn : UInt32) (variants : ℕ)
  | noSuchField (pgnId : Identifier) (field : String)
  | unknownLookupLabel (field label : String)
  | valueOutOfRange (field : String) (value : F)
  | notFixedLength (field : String)
  | typeMismatch (field expected : String)
  | lengthMismatch (pgn expected : UInt32) (got : ℕ)

abbrev Encoded (F α : Type) : Type := Except (EncodeError F) α

/-- A staged field value. -/
inductive Staged
  /-- Bits of the width of the field, from the low end. -/
  | scalar (raw : UInt64)
  | bytes (bytes : List UInt8)
deriving DecidableEq, Repr

/-! ## Bits -/

def allOnes (bits : UInt32) : UInt64 :=
  if bits ≥ 64 then 0xffffffffffffffff else (1 <<< bits.toUInt64) - 1

def maskToWidth (value : Int64) (bits : UInt32) : UInt64 := value.toUInt64 &&& allOnes bits

/-- The payload so far, and the bit that comes next. -/
structure BitBuffer where
  buf : List UInt8
  nextBit : ℕ
deriving DecidableEq, Repr

def BitBuffer.empty : BitBuffer := ⟨[], 0⟩

/-- Append the low `bits` bits of the value. -/
def BitBuffer.writeBits (b : BitBuffer) : ℕ → UInt64 → BitBuffer
  | 0, _ => b
  | bits + 1, value =>
      let idx := b.nextBit >>> 3
      let bitpos := b.nextBit &&& 7
      let buf := if bitpos = 0 then b.buf ++ [0] else b.buf
      let buf :=
        if value &&& 1 ≠ 0 then buf.modify idx fun byte => byte ||| (1 <<< UInt8.ofNat bitpos)
        else buf
      writeBits ⟨buf, b.nextBit + 1⟩ bits (value >>> 1)

def BitBuffer.writeBytes (b : BitBuffer) (bytes : List UInt8) : BitBuffer :=
  bytes.foldl (fun b byte => b.writeBits 8 byte.toUInt64) b

/-! ## Staging -/

def orNotFixed {α : Type} (f : FieldInfo F) (o : Option α) : Encoded F α :=
  match o with
  | some a => .ok a
  | none => .error (.notFixedLength f.name)

/-- The raw pattern of a field that is left unset. -/
def defaultRaw (f : FieldInfo F) : UInt64 :=
  let bl := f.bitLength.getD 0
  match f.matchValue with
  | some mv => maskToWidth mv bl
  | none => if f.fieldType = some .spare then 0 else f.unknownValue.getD (allOnes bl)

/-- Invert the decoder's `raw * resolution + offset + unit_offset`. -/
def scaledToRaw (f : FieldInfo F) (scaled : F) : Encoded F Int64 :=
  let resolution := f.resolution.getD (Float64.ofInt 1)
  let displayOffset : F := Float64.ofInt (f.offset.getD 0).toInt
  let raw := Float64.div (Float64.sub (Float64.sub scaled f.unitOffset) displayOffset) resolution
  let rounded := Float64.round raw
  if Float64.isFinite rounded then .ok (Float64.toI64 rounded)
  else .error (.valueOutOfRange f.name scaled)

/-- The first entry with this name or id. -/
def resolveLookup (db : PgnDatabase F) (f : FieldInfo F) (label : String) : Encoded F UInt64 :=
  match f.lookupEnumeration with
  | none => .error (.typeMismatch f.name "a value for a lookup field")
  | some tableName =>
      match (db.lookup tableName).bind fun table =>
          table.values.find? fun lv => lv.name = label ∨ lv.id = some label with
      | some lv => .ok lv.value
      | none => .error (.unknownLookupLabel f.name label)

/-- `n as f32`, its bits. -/
def floatBits (n : Int64) : UInt32 := Binary64.bits32 (decide (n.toInt < 0)) n.toInt.natAbs 1

/-- The raw bits of the value, cut to the width of the field. -/
def valueToRaw (db : PgnDatabase F) (f : FieldInfo F) (v : EncodeValue F) : Encoded F UInt64 := do
  let bl ← orNotFixed f f.bitLength
  let masked (n : Int64) : UInt64 := maskToWidth n bl
  match f.fieldType, v with
  | _, .notAvailable => .ok (defaultRaw f)
  | some .lookup, .lookup label | some .indirectLookup, .lookup label =>
      (resolveLookup db f label).map fun raw => masked raw.toInt64
  | some .float, .number x => .ok (Float64.toBits32 x).toUInt64
  | some .float, .int n => .ok (floatBits n).toUInt64
  | _, .text _ | _, .bytes _ => .error (.typeMismatch f.name "a numeric value")
  | _, .pgn p => .ok (masked p.toUInt64.toInt64)
  | _, .int n => .ok (masked n)
  | _, .number x => (scaledToRaw f x).map masked
  | _, .lookup _ => .error (.typeMismatch f.name "a numeric value")

def textOf (f : FieldInfo F) (v : EncodeValue F) : Encoded F (List Char) :=
  match v with
  | .text s => .ok s
  | .notAvailable => .ok []
  | _ => .error (.typeMismatch f.name "text")

/-- The bytes with zeros to the width, if they fit. -/
def zeroFilled (f : FieldInfo F) (bytes : List UInt8) (width : ℕ) (length : ℕ) :
    Encoded F (List UInt8) :=
  if bytes.length > width then .error (.valueOutOfRange f.name (Float64.ofInt length))
  else .ok (bytes ++ List.replicate (width - bytes.length) 0)

def stageStringFix (f : FieldInfo F) (v : EncodeValue F) : Encoded F (List UInt8) := do
  let text ← textOf f v
  let bits ← orNotFixed f f.bitLength
  zeroFilled f (utf8Bytes text) (bits.toNat / 8) (utf8Bytes text).length

/-- A length byte, then the text. -/
def stageStringLz (f : FieldInfo F) (v : EncodeValue F) : Encoded F (List UInt8) := do
  let text ← textOf f v
  let content := utf8Bytes text
  if content.length > 255 then
    .error (.valueOutOfRange f.name (Float64.ofInt content.length))
  else
    let bytes := UInt8.ofNat content.length :: content
    match f.bitLength with
    | some bl => zeroFilled f bytes (bl.toNat / 8) content.length
    | none => .ok bytes

/-- The total length, the encoding, then the text. -/
def stageStringLau (f : FieldInfo F) (v : EncodeValue F) : Encoded F (List UInt8) := do
  let text ← textOf f v
  let content := utf8Bytes text
  if content.length + 2 > 255 then
    .error (.valueOutOfRange f.name (Float64.ofInt content.length))
  else .ok (UInt8.ofNat (content.length + 2) :: 1 :: content)

def stageBinary (f : FieldInfo F) (v : EncodeValue F) : Encoded F (List UInt8) := do
  let bytes ← match v with
    | .bytes b => .ok b
    | .notAvailable => .ok []
    | _ => .error (.typeMismatch f.name "bytes")
  match f.bitLength with
  | some bl => zeroFilled f bytes (bl.toNat / 8) bytes.length
  | none => .ok bytes

def stageDynamicValue (f : FieldInfo F) (v : EncodeValue F) : Encoded F (List UInt8) :=
  match v with
  | .bytes b => .ok b
  | .notAvailable => .ok []
  | _ => .error (.typeMismatch f.name "value bytes for a dynamic (key/value) field")

def stageValue (db : PgnDatabase F) (f : FieldInfo F) (v : EncodeValue F) : Encoded F Staged :=
  match f.fieldType with
  | some .stringFix => (stageStringFix f v).map .bytes
  | some .stringLz => (stageStringLz f v).map .bytes
  | some .stringLau => (stageStringLau f v).map .bytes
  | some .binary => (stageBinary f v).map .bytes
  | some .dynamicFieldValue => (stageDynamicValue f v).map .bytes
  | _ => (valueToRaw db f v).map .scalar

/-! ## Coercion of an argument -/

def toAsciiLowercase (s : List Char) : List Char :=
  s.map fun c => if 'A' ≤ c ∧ c ≤ 'Z' then Char.ofNat (c.toNat + 32) else c

/-- `i64::from_str_radix(_, 16)`. -/
def parseHexI64 (s : List Char) : Option Int64 :=
  let (neg, digits) := splitSign s
  if digits = [] then none
  else
    (((parseHexDigits 0 digits).map fun n : ℕ => if neg then -(n : ℤ) else (n : ℤ)).filter
      fun n => -9223372036854775808 ≤ n ∧ n ≤ 9223372036854775807).map Int64.ofInt

/-- The number after `0x` or `0X`. -/
def hexArg (s : List Char) : Option Int64 :=
  ((stripPrefix ['0', 'x'] s).orElse fun _ => stripPrefix ['0', 'X'] s).bind parseHexI64

def coerceArg (f : FieldInfo F) (value : List Char) : Encoded F (EncodeValue F) :=
  let s := trim value
  if toAsciiLowercase s = ['n', '/', 'a'] ∨ s = [] then .ok .notAvailable
  else
    match hexArg s with
    | some n => .ok (.int n)
    | none =>
        match f.fieldType with
        | some .lookup | some .indirectLookup =>
            match parseI64 s with
            | some n => .ok (.int n)
            | none => .ok (.lookup (String.ofList s))
        | some .pgn =>
            match parseU32 s with
            | some p => .ok (.pgn p)
            | none => .error (.valueOutOfRange f.name Float64.nan)
        | some .stringFix | some .stringLz | some .stringLau | some .variable => .ok (.text s)
        | _ =>
            match parseI64 s with
            | some n => .ok (.int n)
            | none =>
                match parseF64 s with
                | some x => .ok (.number x)
                | none => .error (.valueOutOfRange f.name Float64.nan)

/-! ## The builder -/

structure PgnBuilder (F : Type) where
  db : PgnDatabase F
  pgn : PgnInfo F
  prio : UInt8
  src : UInt8
  dst : UInt8
  timestamp : Option String
  /-- A value for each field, in their order; `none` is the default of the field. -/
  staged : List (Option Staged)
  aligned : staged.length = pgn.fields.length

namespace PgnBuilder

def forPgn (db : PgnDatabase F) (pgn : PgnInfo F) : PgnBuilder F where
  db := db
  pgn := pgn
  prio := pgn.priority.getD 6
  src := 0
  dst := 255
  timestamp := none
  staged := List.replicate pgn.fields.length none
  aligned := List.length_replicate

/-- The builder with a value in a slot. -/
def withStaged (b : PgnBuilder F) (idx : ℕ) (staged : Staged) : PgnBuilder F where
  db := b.db
  pgn := b.pgn
  prio := b.prio
  src := b.src
  dst := b.dst
  timestamp := b.timestamp
  staged := b.staged.set idx (some staged)
  aligned := List.length_set.trans b.aligned

/-- Stage a value for the field at an index. -/
def stage (b : PgnBuilder F) (idx : ℕ) (f : FieldInfo F) (v : EncodeValue F) :
    Encoded F (PgnBuilder F) :=
  (stageValue b.db f v).map (b.withStaged idx)

/-- Set the field that has this order. The constants name a field by its order and id. -/
def push (b : PgnBuilder F) (order : UInt8) (id : Identifier) (v : EncodeValue F) :
    Encoded F (PgnBuilder F) :=
  match b.pgn.fields[order.toNat - 1]?, order with
  | _, 0 | none, _ => .error (.noSuchField b.pgn.id id.val)
  | some f, _ => b.stage (order.toNat - 1) f v

/-- Set the first field that the test finds. -/
def pushWhere (b : PgnBuilder F) (test : FieldInfo F → Bool) (key : String)
    (value : FieldInfo F → Encoded F (EncodeValue F)) : Encoded F (PgnBuilder F) :=
  match b.pgn.fields.findIdx? test with
  | none => .error (.noSuchField b.pgn.id key)
  | some idx =>
      match b.pgn.fields[idx]? with
      | none => .error (.noSuchField b.pgn.id key)
      | some f => do b.stage idx f (← value f)

def pushByName (b : PgnBuilder F) (name : String) (v : EncodeValue F) : Encoded F (PgnBuilder F) :=
  b.pushWhere (fun f => f.name = name) name fun _ => .ok v

def pushArg (b : PgnBuilder F) (key : String) (value : List Char) : Encoded F (PgnBuilder F) :=
  b.pushWhere (fun f => f.name = key ∨ f.id.val = key) key fun f => coerceArg f value

/-- The "not available" default of a field that is left unset. -/
def writeUnset (b : BitBuffer) (f : FieldInfo F) : Encoded F BitBuffer :=
  match f.fieldType, f.bitLength with
  | some .stringFix, some bl | some .binary, some bl =>
      .ok (b.writeBytes (List.replicate (bl.toNat / 8) 0xff))
  | some .binary, none => .ok b
  | some .stringLz, _ => .ok (b.writeBits 8 0)
  | some .stringLau, _ => .ok ((b.writeBits 8 2).writeBits 8 1)
  | some .variable, _ | some .dynamicFieldKey, _ | some .dynamicFieldLength, _
  | some .dynamicFieldValue, _ => .error (.notFixedLength f.name)
  | _, some bl => .ok (b.writeBits bl.toNat (defaultRaw f))
  | _, none => .error (.notFixedLength f.name)

def writeField (b : BitBuffer) (f : FieldInfo F) (staged : Option Staged) : Encoded F BitBuffer :=
  match staged with
  | some (.bytes bytes) => .ok (b.writeBytes bytes)
  | some (.scalar v) => (orNotFixed f f.bitLength).map fun bl => b.writeBits bl.toNat v
  | none => writeUnset b f

def writeFields (b : BitBuffer) : List (FieldInfo F) → List (Option Staged) → Encoded F BitBuffer
  | f :: fs, staged :: rest => do writeFields (← writeField b f staged) fs rest
  | _, _ => .ok b

/-- Pack all fields, pad the last byte with ones, and check the length. -/
def build (b : PgnBuilder F) : Encoded F RawFrame := do
  let packed ← writeFields .empty b.pgn.fields b.staged
  let packed :=
    if packed.nextBit % 8 ≠ 0 then
      packed.writeBits (8 - packed.nextBit % 8) 0xffffffffffffffff
    else packed
  if b.pgn.length.any fun expected => packed.buf.length ≠ expected.toNat then
    .error (.lengthMismatch b.pgn.pgn (b.pgn.length.getD 0) packed.buf.length)
  else
    .ok { timestamp := b.timestamp, prio := b.prio, pgn := b.pgn.pgn, src := b.src, dst := b.dst,
          data := packed.buf }

end PgnBuilder

/-! ## Starting a message -/

namespace PgnDatabase

def encode (db : PgnDatabase F) (id : Identifier) : Encoded F (PgnBuilder F) :=
  match db.pgnById id with
  | some pgn => .ok (.forPgn db pgn)
  | none => .error (.noSuchPgnId id)

/-- The definition with the same id in this database, else the one given. -/
def encodeFor (db : PgnDatabase F) (pgn : PgnInfo F) : PgnBuilder F :=
  .forPgn db ((db.pgnById pgn.id).getD pgn)

def encodeByPgn (db : PgnDatabase F) (pgn : UInt32) : Encoded F (PgnBuilder F) :=
  match db.pgnVariants pgn with
  | [] => .error (.noSuchPgn pgn)
  | [info] => .ok (.forPgn db info)
  | variants => .error (.ambiguousPgn pgn variants.length)

end PgnDatabase

/-! ## What stays of a message -/

omit [Float64 F] in
theorem encoded_bind_ok {α β : Type} {e : Encoded F α} {g : α → Encoded F β} {y : β}
    (h : e >>= g = .ok y) : ∃ a, e = .ok a ∧ g a = .ok y := by
  cases e with
  | error => cases h
  | ok a => exact ⟨a, rfl, h⟩

/-- The two are of the same definition, and from the same source. -/
structure PgnBuilder.Kept (b b' : PgnBuilder F) : Prop where
  pgn : b'.pgn = b.pgn
  src : b'.src = b.src

omit [Float64 F] in
theorem PgnBuilder.Kept.trans {b b' b'' : PgnBuilder F} (h : b.Kept b') (h' : b'.Kept b'') :
    b.Kept b'' :=
  ⟨h'.pgn.trans h.pgn, h'.src.trans h.src⟩

theorem PgnBuilder.push_kept {b b' : PgnBuilder F} {order : UInt8} {id : Identifier}
    {v : EncodeValue F} (h : b.push order id v = .ok b') : b.Kept b' := by
  unfold PgnBuilder.push at h
  split at h
  · cases h
  · cases h
  · rw [PgnBuilder.stage] at h
    cases hstage : stageValue b.db _ v with
    | error e =>
        rw [hstage] at h
        cases h
    | ok staged =>
        rw [hstage] at h
        cases h
        exact ⟨rfl, rfl⟩

omit [Float64 F] in
theorem PgnBuilder.build_header {b : PgnBuilder F} {f : RawFrame} (h : b.build = .ok f) :
    f.pgn = b.pgn.pgn ∧ f.src = b.src := by
  rw [PgnBuilder.build] at h
  obtain ⟨packed, -, h⟩ := encoded_bind_ok h
  dsimp only at h
  split_ifs at h
  all_goals
    cases h
    exact ⟨rfl, rfl⟩

omit [Float64 F] in
/-- The message is one of the definition that the database has under the id. -/
theorem PgnDatabase.encode_pgn {db : PgnDatabase F} {id : Identifier} {b : PgnBuilder F}
    (h : db.encode id = .ok b) : db.pgnById id = some b.pgn := by
  rw [PgnDatabase.encode] at h
  cases hinfo : db.pgnById id with
  | none =>
      rw [hinfo] at h
      cases h
  | some info =>
      rw [hinfo] at h
      cases h
      rfl

end Canboat
