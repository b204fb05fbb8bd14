import Canboat.Format.Common
import Canboat.Reassembly.Model
import Mathlib.Logic.Function.Basic

/-!
# The SocketCAN transmit side

`Bus::send_pgn` splits a payload into CAN frames and queues them in the bounded
`TxBuffer`; the worker drains the queue one frame per writability wakeup. What
the kernel reports on a write is an input of the drain.

The PGN type table is generated at build time and is a parameter here. Log
messages are left out.
-/

namespace Canboat

open Buffer

def TX_BUFFER_CAPACITY : ℕ := 1024
def CAN_EFF_MASK : UInt32 := 0x1FFFFFFF

/-- A CAN frame with an extended identifier. -/
structure CanFrame where
  id : UInt32
  data : List UInt8
deriving DecidableEq, Repr

structure TxBuffer where
  queue : List CanFrame
  overflowed : ℕ
  /-- Per-(pgn, src) fast-packet sequence counter, mod 8. -/
  fastSeq : UInt32 × UInt8 → UInt8

/-- What the kernel answers to a write. -/
inductive WriteResult where
  | Ok
  | WouldBlock
  | Failed
deriving DecidableEq, Repr

namespace TxBuffer

def new : TxBuffer where
  queue := []
  overflowed := 0
  fastSeq _ := 0

/-- The next fast-packet sequence number for (pgn, src). -/
def nextFastSeq (tx : TxBuffer) (pgn : UInt32) (src : UInt8) : UInt8 × TxBuffer :=
  let s := tx.fastSeq (pgn, src)
  (s, { tx with fastSeq := Function.update tx.fastSeq (pgn, src) ((s + 1) &&& 0x07) })

def push (tx : TxBuffer) (canId : UInt32) (data : List UInt8) : TxBuffer :=
  if tx.queue.length ≥ TX_BUFFER_CAPACITY then { tx with overflowed := tx.overflowed + 1 }
  else
    -- the masked identifier always fits; a CAN frame takes at most eight bytes
    if data.length > 8 then tx
    else { tx with queue := tx.queue ++ [{ id := canId &&& CAN_EFF_MASK, data }] }

/-- One frame to the kernel. The result says whether another one may follow. -/
def drainOne (tx : TxBuffer) (write : WriteResult) : TxBuffer × Bool :=
  match tx.queue with
  | [] => (tx, false)
  | _ :: rest =>
      match write with
      | .Ok =>
          ({ tx with
              queue := rest
              overflowed :=
                if tx.overflowed > 0 ∧ rest.length < TX_BUFFER_CAPACITY / 2 then 0
                else tx.overflowed }, true)
      | .WouldBlock => (tx, false)
      | .Failed => ({ tx with queue := rest }, false)

/-- The eight bytes of a fast-packet CAN frame: header, the length in frame 0, the chunk,
and `0xff` to the end. -/
def fastFrame (seq index : UInt8) (data : List UInt8) (offset chunk : ℕ) : List UInt8 :=
  let frame := (List.replicate 8 (0xff : UInt8)).set 0 ((seq <<< 5) ||| (index &&& 0x1f))
  let frame := if index = 0 then frame.set 1 (UInt8.ofNat data.length) else frame
  overwrite frame (if index = 0 then 2 else 1) ((data.drop offset).take chunk)

/-- Queue the fast-packet frames of the `remaining` bytes from `offset` on. -/
def sendFast (tx : TxBuffer) (canId : UInt32) (seq : UInt8) (data : List UInt8)
    (index : UInt8) (offset remaining : ℕ) : TxBuffer :=
  if _h : remaining = 0 then tx
  else
    let chunk := min remaining (if index = 0 then 6 else 7)
    (tx.push canId (fastFrame seq index data offset chunk)).sendFast canId seq data
      (index + 1) (offset + chunk) (remaining - chunk)
termination_by remaining
decreasing_by
  refine Nat.sub_lt (Nat.pos_of_ne_zero _h) ?_
  split <;> omega

end TxBuffer

/-- The arguments of one `Bus::send_pgn`. -/
structure SendPgn where
  prio : UInt8
  pgn : UInt32
  src : UInt8
  dst : UInt8
  data : List UInt8
  emit : Bool
deriving DecidableEq, Repr

/-- Queue an outbound PGN. With `emit` the consumer also gets the whole frame, stamped. -/
def TxBuffer.sendPgn (packetType : UInt32 → FramePacketType) (tx : TxBuffer) (call : SendPgn)
    (stamp : String) : TxBuffer × Option RawFrame :=
  let canId := iso11783Compose call.prio call.pgn call.src call.dst
  let tx :=
    if packetType call.pgn ≠ .Fast then tx.push canId call.data
    else
      let (seq, tx) := tx.nextFastSeq call.pgn call.src
      tx.sendFast canId seq call.data 0 0 call.data.length
  let echo :=
    if call.emit then
      some { timestamp := some stamp, prio := call.prio, pgn := call.pgn, src := call.src,
             dst := call.dst, data := call.data }
    else none
  (tx, echo)

/-! ## A node's run -/

/-- What happens to the transmit side: a send, or a writability wakeup. -/
inductive TxAction where
  | send (call : SendPgn) (stamp : String)
  | drain (write : WriteResult)
deriving DecidableEq, Repr

/-- The buffer, and the frames that have left it. -/
structure TxNode where
  tx : TxBuffer
  drained : List CanFrame

namespace TxNode

def new : TxNode where
  tx := .new
  drained := []

/-- Every frame ever queued, in queue order. -/
def queued (node : TxNode) : List CanFrame := node.drained ++ node.tx.queue

def step (packetType : UInt32 → FramePacketType) (node : TxNode) : TxAction → TxNode
  | .send call stamp => { node with tx := (node.tx.sendPgn packetType call stamp).1 }
  | .drain write =>
      let tx := (node.tx.drainOne write).1
      { tx, drained := node.drained ++
              node.tx.queue.take (node.tx.queue.length - tx.queue.length) }

def run (packetType : UInt32 → FramePacketType) (node : TxNode) (actions : List TxAction) :
    TxNode :=
  actions.foldl (step packetType) node

/-- The sends of a run, in order. -/
def calls (actions : List TxAction) : List SendPgn :=
  actions.filterMap fun action => match action with
    | .send call _ => some call
    | .drain _ => none

end TxNode

end Canboat
