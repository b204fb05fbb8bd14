import Canboat.Lib.LittleEndian
import Mathlib.Data.List.Basic

/-!
# NGT-1 framing

The streaming decoder for `DLE STX … DLE ETX` frames, with the `ESC SOH … ESC LF` records of
EBL logs on demand, and the encoder of plain frames. Fed with encoded messages the decoder
yields them in order, from any point where it is not inside a record or behind an escape.
-/

namespace Canboat.Ngt1

def DLE : UInt8 := 0x10
def STX : UInt8 := 0x02
def ETX : UInt8 := 0x03
def ESC : UInt8 := 0x1b
def SOH : UInt8 := 0x01
def LF : UInt8 := 0x0a

/-- From the FILETIME epoch to the Unix epoch, in milliseconds. -/
def FILETIME_TO_UNIX_MS : UInt64 := 11644473600000

def EBL_TIMESTAMP : UInt8 := 0x03

structure NgtMessage where
  command : UInt8
  payload : List UInt8
deriving DecidableEq, Repr

inductive NgtError
  | shortMessage
  | badChecksum
  | lengthMismatch (declared : UInt8) (actual : ℕ)
  | badEscape (b : UInt8)
deriving DecidableEq, Repr

inductive EblHeader
  | timestamp (unixMs : UInt64)
  | unknown (kind : UInt8) (payload : List UInt8)
deriving DecidableEq, Repr

inductive NgtEvent
  | message (m : NgtMessage)
  | header (h : EblHeader)
  | error (e : NgtError)
deriving DecidableEq, Repr

/-- The states that an escape byte is read in. -/
inductive PrevState
  | idle
  | inFrame
  | inHeader
deriving DecidableEq, Repr

inductive DecoderState
  | idle
  | inFrame
  | inHeader
  | escape (prev : PrevState)
deriving DecidableEq, Repr

def restore : PrevState → DecoderState
  | .idle => .idle
  | .inFrame => .inFrame
  | .inHeader => .inHeader

structure Ngt1Decoder where
  state : DecoderState
  buf : List UInt8
  ebl : Bool
deriving DecidableEq, Repr

/-! ## The decoder -/

def finishFrame (raw : List UInt8) : NgtEvent :=
  if raw.length < 3 then .error .shortMessage
  else if raw.foldl (· + ·) 0 ≠ 0 then .error .badChecksum
  else
    let command := raw.getD 0 0
    let declared := raw.getD 1 0
    let actualPayloadLen := raw.length - 3
    if declared.toNat ≠ actualPayloadLen then .error (.lengthMismatch declared actualPayloadLen)
    else .message { command, payload := (raw.take (raw.length - 1)).drop 2 }

def finishHeader (raw : List UInt8) : Option NgtEvent :=
  match raw with
  | [] => none
  | kind :: rest =>
      if kind = EBL_TIMESTAMP ∧ 9 ≤ raw.length then
        let ms := UInt64.ofNat (LittleEndian.decode (rest.take 8)) / 10000
        some (.header (.timestamp (if ms < FILETIME_TO_UNIX_MS then 0 else ms - FILETIME_TO_UNIX_MS)))
      else some (.header (.unknown kind rest))

namespace Ngt1Decoder

def new : Ngt1Decoder := ⟨.idle, [], false⟩

def withEbl : Ngt1Decoder := { new with ebl := true }

def isEscape (d : Ngt1Decoder) (b : UInt8) : Bool := b == DLE || (d.ebl && b == ESC)

/-- An escape byte behind itself is a byte of the frame or of the record. -/
def literal (d : Ngt1Decoder) (prev : PrevState) (b : UInt8) : Ngt1Decoder :=
  { d with state := restore prev, buf := if prev = .idle then d.buf else d.buf ++ [b] }

def pushByte (d : Ngt1Decoder) (b : UInt8) : Ngt1Decoder × Option NgtEvent :=
  match d.state with
  | .idle => if d.isEscape b then ({ d with state := .escape .idle }, none) else (d, none)
  | .inFrame =>
      if d.isEscape b then ({ d with state := .escape .inFrame }, none)
      else ({ d with buf := d.buf ++ [b] }, none)
  | .inHeader =>
      -- DLE is data inside a record
      if d.ebl && b == ESC then ({ d with state := .escape .inHeader }, none)
      else ({ d with buf := d.buf ++ [b] }, none)
  | .escape prev =>
      if b = STX then ({ d with state := .inFrame, buf := [] }, none)
      else if b = ETX then ({ d with state := .idle, buf := [] }, some (finishFrame d.buf))
      else if b = SOH ∧ d.ebl then ({ d with state := .inHeader, buf := [] }, none)
      else if b = LF ∧ d.ebl then ({ d with state := .idle, buf := [] }, finishHeader d.buf)
      else if b = DLE then (d.literal prev DLE, none)
      else if b = ESC ∧ d.ebl then (d.literal prev ESC, none)
      else
        ({ d with state := .idle, buf := [] },
          -- outside a frame it is noise
          if prev = .idle then none else some (.error (.badEscape b)))

def pushBytes (d : Ngt1Decoder) : List UInt8 → Ngt1Decoder × List NgtEvent
  | [] => (d, [])
  | b :: bytes =>
      let (d, event) := d.pushByte b
      let (d, events) := d.pushBytes bytes
      (d, event.toList ++ events)

end Ngt1Decoder

/-! ## The encoder -/

/-- A byte, twice where it is an escape. -/
def stuffed (escapes : UInt8 → Bool) (b : UInt8) : List UInt8 := if escapes b then [b, b] else [b]

def writeStuffed (b : UInt8) : List UInt8 := stuffed (· == DLE) b

/-- Command, length, payload and the checksum that makes the sum of all zero. -/
def frameBody (cmd : UInt8) (payload : List UInt8) : List UInt8 :=
  let len := UInt8.ofNat payload.length
  cmd :: len :: (payload ++ [0 - payload.foldl (· + ·) (cmd + len)])

/-- Appended to `out`; a payload over 255 bytes is refused. -/
def encodeNgtMessage (cmd : UInt8) (payload out : List UInt8) : Option (List UInt8) :=
  if payload.length ≤ 255 then
    some (out ++ (DLE :: STX :: ((frameBody cmd payload).flatMap writeStuffed ++ [DLE, ETX])))
  else none

/-! ## What the decoder makes of stuffed bytes -/

namespace Ngt1Decoder

@[simp] theorem pushBytes_nil (d : Ngt1Decoder) : d.pushBytes [] = (d, []) := rfl

theorem pushBytes_cons (d : Ngt1Decoder) (b : UInt8) (bytes : List UInt8) :
    d.pushBytes (b :: bytes) = (((d.pushByte b).1.pushBytes bytes).1,
      (d.pushByte b).2.toList ++ ((d.pushByte b).1.pushBytes bytes).2) := rfl

theorem pushBytes_append (d : Ngt1Decoder) (p bytes : List UInt8) :
    d.pushBytes (p ++ bytes) = (((d.pushBytes p).1.pushBytes bytes).1,
      (d.pushBytes p).2 ++ ((d.pushBytes p).1.pushBytes bytes).2) := by
  induction p generalizing d with
  | nil => rfl
  | cons b p ih =>
      rw [List.cons_append, pushBytes_cons, ih, pushBytes_cons, List.append_assoc]

theorem pushBytes_then {d d' : Ngt1Decoder} {p bytes : List UInt8} {events : List NgtEvent}
    (h : (d.pushBytes p).1.pushBytes bytes = (d', events)) :
    d.pushBytes (p ++ bytes) = (d', (d.pushBytes p).2 ++ events) := by
  rw [pushBytes_append, h]

/-- Where bytes go on from bytes that yield no event. -/
theorem pushBytes_quiet {d d' : Ngt1Decoder} {p : List UInt8} (hp : d.pushBytes p = (d', []))
    (bytes : List UInt8) : d.pushBytes (p ++ bytes) = d'.pushBytes bytes := by
  rw [pushBytes_append, hp, List.nil_append]

theorem pushByte_ebl (d : Ngt1Decoder) (b : UInt8) : (d.pushByte b).1.ebl = d.ebl := by
  unfold pushByte literal
  split <;> split_ifs <;> rfl

theorem pushBytes_ebl (d : Ngt1Decoder) (bytes : List UInt8) :
    (d.pushBytes bytes).1.ebl = d.ebl := by
  induction bytes generalizing d with
  | nil => rfl
  | cons b bytes ih => rw [pushBytes_cons, ih, pushByte_ebl]

/-- The bytes that are escapes inside a frame, and inside a record. -/
def escapesIn (ebl : Bool) : PrevState → UInt8 → Bool
  | .inHeader, b => ebl && b == ESC
  | _, b => b == DLE || (ebl && b == ESC)

/-- Behind an escape, an escape byte stands for itself. -/
theorem pushByte_escaped (prev : PrevState) (buf : List UInt8) (ebl : Bool) {b : UInt8}
    (hb : b = DLE ∨ (ebl = true ∧ b = ESC)) :
    pushByte ⟨.escape prev, buf, ebl⟩ b = (literal ⟨.escape prev, buf, ebl⟩ prev b, none) := by
  rcases hb with rfl | ⟨rfl, rfl⟩ <;> rfl

theorem escapesIn_iff {ebl : Bool} {prev : PrevState} {b : UInt8}
    (hb : escapesIn ebl prev b = true) : b = DLE ∨ (ebl = true ∧ b = ESC) := by
  cases prev with
  | inHeader => exact Or.inr (by simpa [escapesIn] using hb)
  | idle => simpa [escapesIn] using hb
  | inFrame => simpa [escapesIn] using hb

/-- What the first byte does inside a frame or a record. -/
theorem pushByte_collecting {prev : PrevState} (hprev : prev ≠ .idle) (buf : List UInt8)
    (ebl : Bool) (b : UInt8) :
    pushByte ⟨restore prev, buf, ebl⟩ b =
      if escapesIn ebl prev b then (⟨.escape prev, buf, ebl⟩, none)
      else (⟨restore prev, buf ++ [b], ebl⟩, none) := by
  cases prev with
  | idle => exact absurd rfl hprev
  | inFrame => rfl
  | inHeader => rfl

/-- An escape byte taken twice, or any other byte, is one byte of the frame or record. -/
theorem pushBytes_stuffed {prev : PrevState} (hprev : prev ≠ .idle) (buf : List UInt8) (ebl : Bool)
    (b : UInt8) :
    pushBytes ⟨restore prev, buf, ebl⟩ (stuffed (escapesIn ebl prev) b) =
      (⟨restore prev, buf ++ [b], ebl⟩, []) := by
  unfold stuffed
  split
  · rename_i hb
    rw [pushBytes_cons, pushByte_collecting hprev, if_pos hb, pushBytes_cons,
      pushByte_escaped prev buf ebl (escapesIn_iff hb), literal, if_neg hprev]
    rfl
  · rename_i hb
    rw [pushBytes_cons, pushByte_collecting hprev, if_neg hb]
    rfl

theorem pushBytes_flatMap_stuffed {prev : PrevState} (hprev : prev ≠ .idle) (buf : List UInt8)
    (ebl : Bool) (bytes : List UInt8) :
    pushBytes ⟨restore prev, buf, ebl⟩ (bytes.flatMap (stuffed (escapesIn ebl prev))) =
      (⟨restore prev, buf ++ bytes, ebl⟩, []) := by
  induction bytes generalizing buf with
  | nil => rw [List.append_nil]; rfl
  | cons b bytes ih =>
      rw [List.flatMap_cons, pushBytes_quiet (pushBytes_stuffed hprev buf ebl b), ih,
        List.append_assoc]
      rfl

/-- Not in a record, and not behind an escape. -/
def AtFrameStart (d : Ngt1Decoder) : Prop := d.state = .idle ∨ d.state = .inFrame

/-- A frame is read from such a state whatever was collected before. -/
theorem pushBytes_frame {d : Ngt1Decoder} (hd : d.AtFrameStart) (body : List UInt8) :
    d.pushBytes (DLE :: STX :: (body.flatMap (stuffed (escapesIn d.ebl .inFrame)) ++ [DLE, ETX])) =
      (⟨.idle, [], d.ebl⟩, [finishFrame body]) := by
  obtain ⟨state, buf, ebl⟩ := d
  have hstart : pushBytes ⟨state, buf, ebl⟩ [DLE, STX] = (⟨.inFrame, [], ebl⟩, []) := by
    rcases hd with rfl | rfl <;> rfl
  have hbody := pushBytes_flatMap_stuffed (show PrevState.inFrame ≠ .idle by decide) [] ebl body
  rw [List.nil_append] at hbody
  have heq : DLE :: STX :: (body.flatMap (stuffed (escapesIn ebl .inFrame)) ++ [DLE, ETX]) =
      [DLE, STX] ++ (body.flatMap (stuffed (escapesIn ebl .inFrame)) ++ [DLE, ETX]) := rfl
  rw [heq, pushBytes_quiet hstart]
  exact (pushBytes_quiet hbody [DLE, ETX]).trans rfl

/-- And so is a record. -/
theorem pushBytes_record {d : Ngt1Decoder} (hd : d.AtFrameStart) (hebl : d.ebl = true)
    (body : List UInt8) :
    d.pushBytes (ESC :: SOH :: (body.flatMap (stuffed (escapesIn d.ebl .inHeader)) ++ [ESC, LF])) =
      (⟨.idle, [], d.ebl⟩, (finishHeader body).toList) := by
  obtain ⟨state, buf, ebl⟩ := d
  have hebl : ebl = true := hebl
  subst hebl
  have hstart : pushBytes ⟨state, buf, true⟩ [ESC, SOH] = (⟨.inHeader, [], true⟩, []) := by
    rcases hd with rfl | rfl <;> rfl
  have hbody := pushBytes_flatMap_stuffed (show PrevState.inHeader ≠ .idle by decide) [] true body
  rw [List.nil_append] at hbody
  have heq : ESC :: SOH :: (body.flatMap (stuffed (escapesIn true .inHeader)) ++ [ESC, LF]) =
      [ESC, SOH] ++ (body.flatMap (stuffed (escapesIn true .inHeader)) ++ [ESC, LF]) := rfl
  rw [heq, pushBytes_quiet hstart]
  refine (pushBytes_quiet hbody [ESC, LF]).trans ?_
  simp [pushBytes, pushByte, restore, ESC, LF, STX, ETX, SOH]

end Ngt1Decoder

/-! ## Messages -/

theorem foldl_add (bytes : List UInt8) (a : UInt8) :
    bytes.foldl (· + ·) a = a + bytes.foldl (· + ·) 0 := by
  induction bytes generalizing a with
  | nil => simp
  | cons b bytes ih =>
      rw [List.foldl_cons, List.foldl_cons, ih, ih (0 + b), UInt8.zero_add, UInt8.add_assoc]

/-- The checksum makes the sum of the whole body zero. -/
theorem sum_frameBody (cmd : UInt8) (payload : List UInt8) :
    (frameBody cmd payload).foldl (· + ·) 0 = 0 := by
  unfold frameBody
  simp only
  rw [List.foldl_cons, List.foldl_cons, List.foldl_append, List.foldl_cons, List.foldl_nil,
    UInt8.zero_add]
  rw [UInt8.zero_sub, UInt8.add_right_neg]

/-- A frame's body is taken apart as it was put together. -/
theorem finishFrame_frameBody (cmd : UInt8) {payload : List UInt8} (hlen : payload.length ≤ 255) :
    finishFrame (frameBody cmd payload) = .message ⟨cmd, payload⟩ := by
  have hlength : (frameBody cmd payload).length = payload.length + 3 := by
    simp [frameBody]
  have hdeclared : (UInt8.ofNat payload.length).toNat = payload.length :=
    UInt8.toNat_ofNat_of_lt (Nat.lt_succ_of_le hlen)
  rw [finishFrame, sum_frameBody, hlength, if_neg (by omega), if_neg (not_not.mpr rfl)]
  simp only
  rw [Nat.add_sub_cancel, if_neg]
  · simp [frameBody]
  · exact not_not.mpr hdeclared

theorem encodeNgtMessage_of_le (cmd : UInt8) {payload : List UInt8} (hlen : payload.length ≤ 255)
    (out : List UInt8) : encodeNgtMessage cmd payload out =
      some (out ++ (DLE :: STX :: ((frameBody cmd payload).flatMap writeStuffed ++ [DLE, ETX]))) :=
  if_pos hlen

/-- One more encoded message is one more event, and the decoder is outside any frame. -/
theorem pushBytes_encodeNgtMessage {p : List UInt8}
    (hp : (Ngt1Decoder.new.pushBytes p).1.AtFrameStart) {m : NgtMessage}
    (hlen : m.payload.length ≤ 255) :
    ∃ out, encodeNgtMessage m.command m.payload p = some out ∧
      Ngt1Decoder.new.pushBytes out =
        (⟨.idle, [], false⟩, (Ngt1Decoder.new.pushBytes p).2 ++ [.message m]) := by
  refine ⟨_, encodeNgtMessage_of_le m.command hlen p, ?_⟩
  have hframe := Ngt1Decoder.pushBytes_frame hp (frameBody m.command m.payload)
  rw [Ngt1Decoder.pushBytes_ebl, finishFrame_frameBody m.command hlen] at hframe
  have hstuffed : writeStuffed = stuffed (Ngt1Decoder.escapesIn false .inFrame) := by
    funext b
    simp [writeStuffed, stuffed, Ngt1Decoder.escapesIn]
  rw [hstuffed]
  exact Ngt1Decoder.pushBytes_then hframe

/-- Behind any bytes that leave the decoder outside a record and not behind an escape, encoded
messages come out in order, and nothing else does. -/
theorem pushBytes_encodeNgtMessages (p : List UInt8)
    (hp : (Ngt1Decoder.new.pushBytes p).1.AtFrameStart) (messages : List NgtMessage)
    (hlen : ∀ m ∈ messages, m.payload.length ≤ 255) :
    ∃ wire, messages.foldlM (fun out m => encodeNgtMessage m.command m.payload out) p = some wire ∧
      (Ngt1Decoder.new.pushBytes wire).2 =
        (Ngt1Decoder.new.pushBytes p).2 ++ messages.map .message := by
  induction messages generalizing p with
  | nil => exact ⟨p, rfl, (List.append_nil _).symm⟩
  | cons m messages ih =>
      obtain ⟨out, hencode, hout⟩ := pushBytes_encodeNgtMessage hp (hlen m List.mem_cons_self)
      have hstart : (Ngt1Decoder.new.pushBytes out).1.AtFrameStart := by
        rw [hout]
        exact Or.inl rfl
      obtain ⟨wire, hwire, hevents⟩ := ih out hstart fun m hm => hlen m (List.mem_cons_of_mem _ hm)
      refine ⟨wire, ?_, ?_⟩
      · rw [List.foldlM_cons, hencode]
        exact hwire
      · rw [hevents, hout, List.append_assoc]
        rfl

end Canboat.Ngt1
