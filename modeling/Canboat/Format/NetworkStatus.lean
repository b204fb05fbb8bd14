import Canboat.Core.Str
import Canboat.Frame
import Canboat.Lib.LittleEndian

/-!
# The network status of a gateway

A synthetic PGN with what a gateway measures, built from its own numbers or from a heartbeat line.
-/

namespace Canboat

namespace Ikonvert

/-- Start of the synthetic PGNs of the device. -/
def IKONVERT_BEM : UInt32 := 0x40100

structure NetworkStatus where
  loadPct : Option UInt8
  errors : Option UInt32
  deviceCount : Option UInt8
  uptimeS : Option UInt32
  gatewayAddr : UInt8
  rejectedTx : Option UInt32

/-- All ones stand for no data. -/
def buildNetworkStatus (status : NetworkStatus) (timestamp : Option String) : RawFrame :=
  let u32 (v : Option UInt32) : List UInt8 :=
    (v.map fun v => LittleEndian.encode 4 v.toNat).getD [0xff, 0xff, 0xff, 0xff]
  { timestamp, prio := 7, pgn := IKONVERT_BEM, src := status.gatewayAddr, dst := 255,
    data := [status.loadPct.getD 0xff] ++ u32 status.errors ++ [status.deviceCount.getD 0xff] ++
      u32 status.uptimeS ++ [status.gatewayAddr] ++ u32 status.rejectedTx }

def parseStatusField (s : Option (List Char)) : Option ℤ :=
  s.bind fun s => if s = [] then none else parseSigned (-2147483648) 2147483647 s

def synthesizeNetworkStatus (body : List Char) (timestamp : String) : Option RawFrame :=
  (stripPrefix "000000,".toList body).bind fun rest =>
    if rest = ",,,,,".toList then none
    else
      let fields := rest.splitOn ','
      let load := (parseStatusField fields[0]?).getD 0xff
      let errors := (parseStatusField fields[1]?).getD (-1)
      let count := (parseStatusField fields[2]?).getD 0
      let uptime := (parseStatusField fields[3]?).getD 0
      let addr := (parseStatusField fields[4]?).getD 0
      let rejected := (parseStatusField fields[5]?).getD 0
      some (buildNetworkStatus
        { loadPct := some (UInt8.ofInt load)
          errors := some (UInt32.ofInt errors)
          deviceCount := if count ≠ 0 then some (UInt8.ofInt count) else none
          uptimeS := if uptime ≠ 0 then some (UInt32.ofInt uptime) else none
          gatewayAddr := UInt8.ofInt addr
          rejectedTx := if rejected ≠ 0 then some (UInt32.ofInt rejected) else none }
        (some timestamp))

end Ikonvert

end Canboat
