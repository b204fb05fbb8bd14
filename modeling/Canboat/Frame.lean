import Mathlib.Data.Nat.Notation

/-!
# CAN frames

The frame every layer passes on: either a single CAN frame of at most eight
data bytes, or an already coalesced fast-packet or ISO TP payload.
-/

namespace Canboat

/-- Maximum payload of a coalesced fast-packet message: `6 + 31 * 7`. -/
def FASTPACKET_MAX_SIZE : ℕ := 223

/-- The broadcast address: a destination, never the source of a frame. -/
def ADDR_GLOBAL : UInt8 := 255

/-- The null address of a node that has not claimed one. -/
def ADDR_NULL : UInt8 := 254

structure RawFrame where
  timestamp : Option String
  prio : UInt8
  pgn : UInt32
  src : UInt8
  dst : UInt8
  data : List UInt8
deriving DecidableEq, Repr

end Canboat
