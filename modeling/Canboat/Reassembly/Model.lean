import Canboat.Frame
import Canboat.Lib.Buffer
import Canboat.Lib.SlotTable

/-!
# The fast-packet and ISO TP reassembler

`Reassembler.push` as the program computes it. Fast-packet frames are collected
in 64 slots keyed by (pgn, src, seq); ISO Transport Protocol sessions in 16
slots keyed by source. Both tables take the first free slot and evict the
oldest one when full.

Log messages are left out. Everything a later push or the result can depend on
is kept, the claim ages (`u64`, wrapping) included.
-/

namespace Canboat

open Buffer SlotTable

def REASSEMBLY_BUFFER_SIZE : ℕ := 64
def BUCKET_0_SIZE : ℕ := 6
def BUCKET_N_SIZE : ℕ := 7
def BUCKET_0_OFFSET : ℕ := 2
def BUCKET_N_OFFSET : ℕ := 1
def FASTPACKET_MAX_INDEX : ℕ := 0x1f
def PGN_ISO_TP_CM : UInt32 := 60416
def PGN_ISO_TP_DT : UInt32 := 60160
def TP_CM_BAM : UInt8 := 32
def TP_CM_RTS : UInt8 := 16
def TP_CM_ABORT : UInt8 := 255
def ISO_TP_SLOTS : ℕ := 16
def ISO_TP_MAX_SIZE : ℕ := 255 * BUCKET_N_SIZE

inductive ReassemblyError where
  | EmptyData
  | OutOfSlots (pgn : UInt32) (src : UInt8)
deriving DecidableEq, Repr

/-- What the reassembler emitted in response to a push. -/
inductive Reassembled where
  | PassThrough (frame : RawFrame)
  | Complete (frame : RawFrame)
  | Partial
  | Error (e : ReassemblyError)
deriving DecidableEq, Repr

inductive FramePacketType where
  | Single
  | Fast
  | Other
deriving DecidableEq, Repr

/-! ## Fast-packet slots -/

structure Slot where
  used : Bool := false
  pgn : UInt32 := 0
  src : UInt8 := 0
  seq : UInt8 := 0
  /-- Frame indices received so far. -/
  frames : BitVec 32 := 0#32
  /-- Frame indices required to complete; 0 until frame 0 is seen. -/
  allFrames : BitVec 32 := 0#32
  /-- Payload size from frame 0's length byte. -/
  size : ℕ := 0
  age : UInt64 := 0
  data : List UInt8 := List.replicate FASTPACKET_MAX_SIZE 0
deriving DecidableEq, Repr

/-- Key of a fast-packet slot: (pgn, src, seq). -/
abbrev FastId : Type := UInt32 × UInt8 × UInt8

def slotView : View Slot FastId where
  used := Slot.used
  key s := (s.pgn, s.src, s.seq)
  age s := s.age.toNat

/-- Header byte of a fast-packet CAN frame: the frame index. -/
def frameIndex (header : UInt8) : ℕ := (header &&& 0x1f).toNat

/-- Header byte of a fast-packet CAN frame: the sequence counter, in place. -/
def frameSeq (header : UInt8) : UInt8 := header &&& 0xe0

/-- Mask of the frame indices a message of `size` bytes needs. -/
def requiredFrames (size : ℕ) : BitVec 32 :=
  match min (1 + size / BUCKET_N_SIZE) (FASTPACKET_MAX_INDEX + 1) with
  | 0 => 0#32
  | n => if n ≥ 32 then BitVec.allOnes 32 else BitVec.twoPow 32 n - 1#32

/-- Size and mask declared by frame 0. -/
def declared (data : List UInt8) : ℕ × BitVec 32 :=
  let size := min (data.getD 1 0).toNat FASTPACKET_MAX_SIZE
  (size, requiredFrames size)

/-- Destination offset, source offset and capacity of frame `index`'s bucket. -/
def bucket (index : ℕ) : ℕ × ℕ × ℕ :=
  if index = 0 then (0, BUCKET_0_OFFSET, BUCKET_0_SIZE)
  else (BUCKET_0_SIZE + (index - 1) * BUCKET_N_SIZE, BUCKET_N_OFFSET, BUCKET_N_SIZE)

/-- Restart rules: a frame index seen twice, or a frame 0 that would complete
at once off the bits already held. -/
def Slot.restarts (slot : Slot) (index : ℕ) (newAllFrames : Option (ℕ × BitVec 32)) : Bool :=
  let stale := slot.frames
  let duplicate := decide (stale &&& BitVec.twoPow 32 index ≠ 0#32)
  let completesInstantly := match newAllFrames with
    | some (_, mask) =>
        !duplicate && decide (stale ≠ 0#32) && decide (mask ≠ 1#32) &&
          decide ((stale ||| 1#32) &&& mask = mask)
    | none => false
  duplicate || completesInstantly

/-- Copy a frame's payload into its bucket, filling what the frame does not
carry with `0xff`. (Copying an empty run changes nothing, so the source's two
length guards are not repeated.) -/
def storeBucket (buffer : List UInt8) (index : ℕ) (data : List UInt8) : List UInt8 :=
  let (dstOff, srcOff, bucketLen) := bucket index
  let stop := min (dstOff + bucketLen) FASTPACKET_MAX_SIZE
  let capacity := stop - dstOff
  let copyLen := min (data.length - srcOff) capacity
  let copied := overwrite buffer dstOff ((data.drop srcOff).take copyLen)
  overwrite copied (dstOff + copyLen) (List.replicate (stop - (dstOff + copyLen)) 0xff)

/-- The selected slot with the frame taken in: restarted where a rule says so,
size and mask refreshed by a frame 0, payload copied, index marked. -/
def Slot.gather (slot : Slot) (frame : RawFrame) : Slot :=
  let index := frameIndex (frame.data.headD 0)
  let newAllFrames := if index = 0 then some (declared frame.data) else none
  let kept := if slot.restarts index newAllFrames then 0#32 else slot.frames
  { slot with
    size := (newAllFrames.map Prod.fst).getD slot.size
    allFrames := (newAllFrames.map Prod.snd).getD slot.allFrames
    data := storeBucket slot.data index frame.data
    frames := kept ||| BitVec.twoPow 32 index }

/-- What a push does to the slot it selected. -/
def Slot.accept (slot : Slot) (frame : RawFrame) : Slot × Reassembled :=
  let slot := slot.gather frame
  if slot.allFrames ≠ 0#32 ∧ slot.frames = slot.allFrames then
    ({ slot with used := false, frames := 0#32, size := 0 },
      .Complete { frame with data := slot.data.take slot.size })
  else (slot, .Partial)

/-! ## ISO TP slots -/

structure TpSlot where
  used : Bool := false
  src : UInt8 := 0
  dst : UInt8 := 0
  prio : UInt8 := 0
  targetPgn : UInt32 := 0
  totalSize : ℕ := 0
  packets : UInt8 := 0
  /-- Bit `n` of the four words: sequence number `n + 1` received. -/
  received : List (BitVec 64) := List.replicate 4 0#64
  timestamp : Option String := none
  data : List UInt8 := []
  age : UInt64 := 0
deriving DecidableEq, Repr

def tpView : View TpSlot UInt8 where
  used := TpSlot.used
  key := TpSlot.src
  age s := s.age.toNat

/-- Every declared sequence number has arrived: the full words and the low bits
of the last one. -/
def TpSlot.allReceived (slot : TpSlot) : Bool :=
  let packets := slot.packets.toNat
  let fullWords := packets / 64
  let partialBits := packets % 64
  let allFull := (slot.received.take fullWords).all fun w => decide (w = BitVec.allOnes 64)
  let lastOk :=
    if partialBits = 0 then true
    else
      let mask := BitVec.twoPow 64 partialBits - 1#64
      decide (slot.received.getD fullWords 0#64 &&& mask = mask)
  allFull && lastOk

/-- The session with the chunk of an in-range sequence number taken in. -/
def TpSlot.gather (slot : TpSlot) (frame : RawFrame) : TpSlot :=
  let seqZeroBased := (frame.data.headD 0 - 1).toNat
  let offset := seqZeroBased * BUCKET_N_SIZE
  let stop := min (offset + BUCKET_N_SIZE) slot.totalSize
  let n := min (stop - offset) (frame.data.length - 1)
  { slot with
    received := slot.received.modify (seqZeroBased / 64) fun word =>
      word ||| BitVec.twoPow 64 (seqZeroBased % 64)
    data := overwrite slot.data offset ((frame.data.drop 1).take n) }

/-- What a TP.DT frame does to the session of its source. -/
def TpSlot.accept (slot : TpSlot) (frame : RawFrame) : TpSlot × Reassembled :=
  let sequence := frame.data.headD 0
  if sequence = 0 ∨ sequence > slot.packets then (slot, .Partial)
  else
    let slot := slot.gather frame
    if slot.allReceived = false then (slot, .Partial)
    else
      ({ slot with timestamp := none, used := false },
        .Complete
          { timestamp := slot.timestamp
            prio := slot.prio
            pgn := slot.targetPgn
            src := frame.src
            dst := slot.dst
            data := slot.data.take slot.totalSize })

/-! ## The reassembler -/

structure Reassembler where
  slots : List Slot
  tpSlots : List TpSlot
  nextAge : UInt64
  tpNextAge : UInt64
deriving DecidableEq, Repr

namespace Reassembler

def new : Reassembler where
  slots := List.replicate REASSEMBLY_BUFFER_SIZE {}
  tpSlots := List.replicate ISO_TP_SLOTS {}
  nextAge := 0
  tpNextAge := 0

def findSlot (r : Reassembler) (pgn : UInt32) (src seq : UInt8) : Option ℕ :=
  r.slots.findIdx? fun s => s.used && s.pgn == pgn && s.src == src && s.seq == seq

def claimSlot (r : Reassembler) (pgn : UInt32) (src seq : UInt8) :
    Option (ℕ × Reassembler) :=
  (slotView.victim r.slots).map fun i =>
    (i, { r with
      nextAge := r.nextAge + 1
      slots := r.slots.set i { used := true, pgn, src, seq, age := r.nextAge } })

def findTpSlot (r : Reassembler) (src : UInt8) : Option ℕ :=
  r.tpSlots.findIdx? fun s => s.used && s.src == src

/-- Reuse the slot of `src`, else take a free one or evict the oldest. -/
def claimTpSlot (r : Reassembler) (src : UInt8) : Option (ℕ × Reassembler) :=
  let age := r.tpNextAge + 1
  match r.findTpSlot src with
  | some existing =>
      some (existing, { r with
        tpNextAge := age
        tpSlots := r.tpSlots.modify existing fun s => { s with src, age, used := true } })
  | none =>
      (tpView.victim r.tpSlots).map fun i =>
        (i, { r with tpNextAge := age, tpSlots := r.tpSlots.set i { used := true, src, age } })

/-- What a TP.CM frame declares: total size, packet count and target PGN. -/
def tpDeclared (data : List UInt8) : ℕ × UInt8 × UInt32 :=
  ((data.getD 1 0).toNat + 256 * (data.getD 2 0).toNat,
    data.getD 3 0,
    (data.getD 5 0).toUInt32 ||| ((data.getD 6 0).toUInt32 <<< 8) |||
      ((data.getD 7 0).toUInt32 <<< 16))

/-- TP.CM: `BAM` and `RTS` open a session, `Abort` closes one, anything else is
swallowed. -/
def handleTpCm (r : Reassembler) (frame : RawFrame) : Reassembler × Reassembled :=
  match frame.data with
  | [] => (r, .Error .EmptyData)
  | control :: _ =>
      if control = TP_CM_BAM ∨ control = TP_CM_RTS then
        if frame.data.length < 8 then (r, .Partial)
        else
          let (totalSize, packets, targetPgn) := tpDeclared frame.data
          if packets = 0 ∨ totalSize = 0 ∨ totalSize > ISO_TP_MAX_SIZE then (r, .Partial)
          else match r.claimTpSlot frame.src with
            | none => (r, .Error (.OutOfSlots targetPgn frame.src))
            | some (i, r) =>
                ({ r with tpSlots := r.tpSlots.modify i fun s => { s with
                    dst := frame.dst
                    prio := frame.prio
                    targetPgn, totalSize, packets
                    received := List.replicate 4 0#64
                    timestamp := frame.timestamp
                    data := List.replicate totalSize 0xff } }, .Partial)
      else if control = TP_CM_ABORT then
        match r.findTpSlot frame.src with
        | some i =>
            ({ r with tpSlots := r.tpSlots.modify i fun s => { s with used := false } }, .Partial)
        | none => (r, .Partial)
      else (r, .Partial)

/-- TP.DT: the chunk goes to the open session of its source; without one the
frame is swallowed. -/
def handleTpDt (r : Reassembler) (frame : RawFrame) : Reassembler × Reassembled :=
  match frame.data with
  | [] => (r, .Error .EmptyData)
  | _ :: _ =>
      match r.findTpSlot frame.src with
      | none => (r, .Partial)
      | some i =>
          let (slot, out) := (r.tpSlots.getD i {}).accept frame
          ({ r with tpSlots := r.tpSlots.set i slot }, out)

/-- Push one CAN frame. -/
def push (r : Reassembler) (frame : RawFrame) (packetType : FramePacketType) :
    Reassembler × Reassembled :=
  if frame.pgn = PGN_ISO_TP_CM then r.handleTpCm frame
  else if frame.pgn = PGN_ISO_TP_DT then r.handleTpDt frame
  else if frame.data.length > 8 ∨ packetType ≠ .Fast then (r, .PassThrough frame)
  else match frame.data with
    | [] => (r, .Error .EmptyData)
    | header :: _ =>
        let seq := frameSeq header
        let selected := match r.findSlot frame.pgn frame.src seq with
          | some i => some (i, r)
          | none => r.claimSlot frame.pgn frame.src seq
        match selected with
        | none => (r, .Error (.OutOfSlots frame.pgn frame.src))
        | some (i, r) =>
            let (slot, out) := (r.slots.getD i {}).accept frame
            ({ r with slots := r.slots.set i slot }, out)

/-! ## Runs -/

/-- A log of pushes: each frame with the packet type the caller passes. -/
abbrev Log : Type := List (RawFrame × FramePacketType)

/-- Push a log of frames, collecting what each push emitted. -/
def pushAll (r : Reassembler) : Log → Reassembler × List Reassembled
  | [] => (r, [])
  | (frame, packetType) :: rest =>
      let (r, out) := r.push frame packetType
      let (r, outs) := r.pushAll rest
      (r, out :: outs)

/-- A state some sequence of pushes leads to. -/
def Reachable (r : Reassembler) : Prop := ∃ log, (new.pushAll log).1 = r

/-- The frames of the pushes a log makes that satisfy `sel`. -/
def framesOf (sel : RawFrame × FramePacketType → Prop) [DecidablePred sel] (log : Log) :
    List RawFrame :=
  (log.filter fun e => sel e).map Prod.fst

/-- What the pushes that satisfy `sel` returned when the log was pushed into `r`. -/
def outputsOf (r : Reassembler) (sel : RawFrame × FramePacketType → Prop) [DecidablePred sel]
    (log : Log) : List Reassembled :=
  ((log.zip (r.pushAll log).2).filter fun e => sel e.1).map Prod.snd

end Reassembler

end Canboat
