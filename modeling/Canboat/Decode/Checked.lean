import Canboat.Decode.Fields
import Canboat.Lib.Checked

/-!
# The walk with its faults

The same walk, with the additions that may overflow and the slice that may be out of
bounds, and a record of the iterations of each repeating set.
-/

namespace Canboat

variable {F : Type} [Float64 F]

/-- The iterations of one set: where each began and ended. -/
structure SetRun where
  setNumber : UInt8
  /-- The number in the count field, where there is one. -/
  count : Option UInt32
  iterations : List (UInt32 × UInt32)
deriving DecidableEq, Repr

def addU32 (a b : UInt32) : Except Fault UInt32 :=
  if a.toNat + b.toNat ≤ 4294967295 then .ok (a + b) else .error .overflow

def fitsU32 (n : ℕ) : Except Fault Unit := if n ≤ 4294967295 then .ok () else .error .overflow

def fitsI64 (n : ℤ) : Except Fault Unit :=
  if -9223372036854775808 ≤ n ∧ n ≤ 9223372036854775807 then .ok () else .error .overflow

/-! ## One field -/

/-- An offset is added to the extracted value, and to the largest one of the width. -/
def shiftChecks (f : FieldInfo F) (data : List UInt8) (bitOffset bitLength : UInt32) :
    Except Fault Unit :=
  let offset := f.offset.getD 0
  if offset = 0 then .ok ()
  else
    match extractBits data bitOffset.toNat bitLength.toNat (f.signed.getD false) 0 with
    | none => .ok ()
    | some ex => do
        fitsI64 (ex.raw.toInt64.toInt + offset.toInt)
        fitsI64 (ex.max.toInt + offset.toInt)

/-- The nested decoding of an ISO NAME. -/
def isoNameChecks (claimChecks : List UInt8 → Except Fault Unit) (data : List UInt8)
    (bitOffset bitLength : UInt32) : Except Fault Unit :=
  if bitLength ≠ 64 ∨ bitOffset &&& 7 ≠ 0 then .ok ()
  else if bitOffset.toNat / 8 + 8 > data.length then .ok ()
  else claimChecks ((data.drop (bitOffset.toNat / 8)).take 8)

/-- The width that the key and the length before a dynamic value give it. -/
def dynamicBits (ctx : DecodeContext F) : UInt32 :=
  ((ctx.dynamicLengthBytes.map (· * 8)).or (ctx.dynamicFieldType.bind (·.bits))).getD 0

/-- The bits of so many bytes. -/
def lengthChecks (ctx : DecodeContext F) : Except Fault Unit :=
  match ctx.dynamicLengthBytes with
  | some n => fitsU32 (n.toNat * 8)
  | none => .ok ()

def dynamicChecks (claimChecks : List UInt8 → Except Fault Unit) (data : List UInt8)
    (bitOffset : UInt32) (ctx : DecodeContext F) : Except Fault Unit := do
  lengthChecks ctx
  if ctx.dynamicFieldType.any fun entry => entry.fieldType = some "ISO_NAME" then
    isoNameChecks claimChecks data bitOffset (dynamicBits ctx)
  else .ok ()

def selfContainedChecks (claimChecks : List UInt8 → Except Fault Unit) (f : FieldInfo F)
    (data : List UInt8) (bitOffset : UInt32) (ctx : DecodeContext F) : Except Fault Unit :=
  match f.fieldType, f.bitLength with
  | some .dynamicFieldValue, _ => dynamicChecks claimChecks data bitOffset ctx
  | some .time, some bitLength | some .duration, some bitLength | some .reserved, some bitLength
  | some .spare, some bitLength => shiftChecks f data bitOffset bitLength
  | some .isoName, some bitLength => isoNameChecks claimChecks data bitOffset bitLength
  | _, _ => .ok ()

/-- The definition and the field that a VARIABLE field stands for. -/
def variableTarget (db : PgnDatabase F) (ctx : DecodeContext F) :
    Option (PgnInfo F × FieldInfo F) := do
  let targetPgn ← ctx.targetPgn
  let targetIdx ← ctx.currentParamIdx
  let targetInfo ← db.firstPgn targetPgn
  let targetField ← targetInfo.fields.find? (·.order.toUInt32 = targetIdx)
  pure (targetInfo, targetField)

/-- The width of the field is rounded up to whole bytes. -/
def variableChecks (claim : List UInt8 → List (DecodedField F))
    (claimChecks : List UInt8 → Except Fault Unit) (data : List UInt8) (db : PgnDatabase F)
    (bitOffset : UInt32) (ctx : DecodeContext F) : Except Fault Unit :=
  match variableTarget db ctx with
  | none => .ok ()
  | some (targetInfo, targetField) =>
      if targetField.fieldType = some .variable then .ok ()
      else do
        selfContainedChecks claimChecks targetField data bitOffset .empty
        match decodeSelfContained claim targetField targetInfo data db bitOffset .empty with
        | some (_, bits, _) => fitsU32 ((bits.toNat + 7) / 8 * 8)
        | none => .ok ()

/-! ## The walk -/

/-- What a walk reads from, and what the decoding of an ISO NAME may fault on. -/
structure CheckedSource (F : Type) extends Source F where
  claimChecks : List UInt8 → Except Fault Unit

namespace CheckedSource

variable (s : CheckedSource F)

def fieldChecks (f : FieldInfo F) (bitOffset : UInt32) (ctx : DecodeContext F) :
    Except Fault Unit :=
  if f.fieldType = some .variable then
    variableChecks s.claim s.claimChecks s.data s.db bitOffset ctx
  else selfContainedChecks s.claimChecks f s.data bitOffset ctx

def decodeSet (setNumber : UInt8) (countWasZero : Bool) (iter : UInt32) :
    List (FieldInfo F) → Bool → Walk F → Except Fault (Bool × Walk F)
  | [], produced, w => .ok (produced, w)
  | sf :: set, produced, w =>
      if sf.condition.isSome then decodeSet setNumber countWasZero iter set produced w
      else do
        let off := if iter = 0 then sf.bitOffset.getD w.cursorBits else w.cursorBits
        s.fieldChecks sf off w.ctx
        match decodeOneFieldAt s.claim sf s.info s.data s.db off w.ctx with
        | some (d, bits, ctx) =>
            let repeatIndex := if countWasZero && produced then none else some iter
            let cursorBits ← addU32 off bits
            decodeSet setNumber countWasZero iter set true
              { cursorBits
                out := w.out ++ [{ d with repeatSet := setNumber, repeatIndex }]
                ctx }
        | none =>
            match sf.bitLength with
            | some bl => do
                let cursorBits ← addU32 off bl
                decodeSet setNumber countWasZero iter set produced { w with cursorBits }
            | none => decodeSet setNumber countWasZero iter set produced w

def decodeIterations (setNumber : UInt8) (countWasZero : Bool) (set : List (FieldInfo F)) :
    ℕ → UInt32 → Walk F → Except Fault (Walk F × List (UInt32 × UInt32))
  | 0, _, w => .ok (w, [])
  | n + 1, iter, w =>
      if w.cursorBits ≥ s.payloadBits then .ok (w, [])
      else do
        let r ← s.decodeSet setNumber countWasZero iter set false w
        if r.1 then
          let rest ← decodeIterations setNumber countWasZero set n (iter + 1) r.2
          pure (rest.1, (w.cursorBits, r.2.cursorBits) :: rest.2)
        else pure ({ r.2 with cursorBits := w.cursorBits }, [(w.cursorBits, r.2.cursorBits)])

/-- The set is a slice of the fields from its first on. -/
def decodeRepeating (fields : List (FieldInfo F)) (size : UInt32) (countField : Option UInt32)
    (setNumber : UInt8) (w : Walk F) : Except Fault (Walk F × SetRun) := do
  let count := Source.rawCount countField w.out
  let maxIters := (count.map fun n => max n.toNat 1).getD 4294967295
  let set ← slice fields 0 size.toNat
  match set with
  | [] => pure (w, ⟨setNumber, count, []⟩)
  | first :: _ =>
      let r ← s.decodeIterations setNumber (count = some 0) set maxIters 0
        { w with cursorBits := first.bitOffset.getD w.cursorBits }
      pure (r.1, ⟨setNumber, count, r.2⟩)

def walk : ℕ → List (FieldInfo F) → Bool × Bool → Walk F →
    Except Fault ((Walk F × (Bool × Bool)) × List SetRun)
  | _, [], entered, w => .ok ((w, entered), [])
  | skip + 1, _ :: fields, entered, w => walk skip fields entered w
  | 0, f :: fields, entered, w =>
      match Source.startOf s.info.repeatingFieldSet1 f, Source.startOf s.info.repeatingFieldSet2 f with
      | some size, _ => do
          let r ← s.decodeRepeating (f :: fields) size s.info.repeatingFieldSet1.countField 1 w
          let rest ← walk (size.toNat - 1) fields (entered.1 || s.reached f w, entered.2) r.1
          pure (rest.1, r.2 :: rest.2)
      | none, some size => do
          let r ← s.decodeRepeating (f :: fields) size s.info.repeatingFieldSet2.countField 2 w
          let rest ← walk (size.toNat - 1) fields (entered.1, entered.2 || s.reached f w) r.1
          pure (rest.1, r.2 :: rest.2)
      | none, none =>
          if f.condition.isSome then walk 0 fields entered w
          else do
            let effectiveOffset := f.bitOffset.getD w.cursorBits
            s.fieldChecks f effectiveOffset w.ctx
            match decodeOneFieldAt s.claim f s.info s.data s.db effectiveOffset w.ctx with
            | some (d, bits, ctx) => do
                let cursorBits ← addU32 effectiveOffset bits
                walk 0 fields entered { cursorBits, out := w.out ++ [d], ctx }
            | none => walk 0 fields entered w

def decode : Except Fault ((List (DecodedField F) × (Bool × Bool)) × List SetRun) := do
  let r ← s.walk 0 s.info.fields (false, false) ⟨0, [], .empty⟩
  pure ((r.1.1.out, r.1.2), r.2)

end CheckedSource

def claimFieldsChecks (db : PgnDatabase F) (sub : List UInt8) : Except Fault Unit :=
  match db.firstPgn 60928 with
  | some info => (CheckedSource.decode ⟨⟨fun _ => [], info, sub, db⟩, fun _ => .ok ()⟩).map fun _ => ()
  | none => .ok ()

def decodeFieldsChecked (info : PgnInfo F) (data : List UInt8) (db : PgnDatabase F) :
    Except Fault ((List (DecodedField F) × (Bool × Bool)) × List SetRun) :=
  CheckedSource.decode ⟨⟨claimFields db, info, data, db⟩, claimFieldsChecks db⟩

end Canboat
