import Canboat.Format.NetworkStatus
import Canboat.Format.Timestamp
import Canboat.Io.AddressClaim
import Canboat.Io.TxRoundTrip
import Canboat.Lib.Replies

/-!
# A participant of the bus

The SocketCAN gateway: the address claim, and around it the answers to requests, the heartbeat, the
group function, and what the program itself wants to send. All of it goes through one transmit
queue.

What the kernel counts, the clock, and the payload that the message builder makes of the product
information are parameters. Times wrap around in 64 bits.
-/

namespace Canboat

def PGN_ISO_ACK : UInt32 := 59392

def PGN_GROUP_FUNCTION : UInt32 := 126208

def PGN_PGN_LIST : UInt32 := 126464

def PGN_HEARTBEAT : UInt32 := 126993

def PGN_PRODUCT_INFO : UInt32 := 126996

/-- From here on PGNs are synthetic, and never on the wire. -/
def CANBOAT_PGN_START : UInt32 := 0x40000

def NETWORK_STATUS_INTERVAL_MS : UInt64 := 5000

/-! ## Responses -/

structure ProductInfo where
  dbVersion : ℤ
  productCode : ℤ
  modelId : String
  softwareVersion : String
  modelVersion : String
  modelSerial : String
  certificationLevel : ℤ
  loadEquivalency : ℤ

/-- Priority and payload of a message that the builder makes. -/
structure Built where
  prio : UInt8
  data : List UInt8

def ProductInfo.frame (build : ProductInfo → Option Built) (pi : ProductInfo) (src : UInt8) :
    Option RawFrame :=
  (build pi).map fun b =>
    { timestamp := none, prio := b.prio, pgn := PGN_PRODUCT_INFO, src, dst := ADDR_GLOBAL,
      data := b.data }

def pgnListFrames (src dst : UInt8) (tx rx : List UInt32) : List RawFrame :=
  [((0 : UInt8), tx), (1, rx)].map fun (func, list) =>
    { timestamp := none, prio := 6, pgn := PGN_PGN_LIST, src, dst,
      data := func :: list.flatMap fun pgn => LittleEndian.encode 3 pgn.toNat }

def isoAckFrame (src dst control : UInt8) (pgn : UInt32) : RawFrame where
  timestamp := none
  prio := 6
  pgn := PGN_ISO_ACK
  src := src
  dst := dst
  data := [control, 0xff, 0xff, 0xff, 0xff] ++ LittleEndian.encode 3 pgn.toNat

def heartbeatFrame (src seq : UInt8) (intervalMs : UInt64) : RawFrame where
  timestamp := none
  prio := 7
  pgn := PGN_HEARTBEAT
  src := src
  dst := ADDR_GLOBAL
  data := LittleEndian.encode 2 (intervalMs / 10).toUInt16.toNat ++
    [seq, 0xcc, 0xff, 0xff, 0xff, 0xff]

/-! ## The load of the bus -/

structure LoadSample where
  rxBytes : UInt64
  txBytes : UInt64
  rxPackets : UInt64
  txPackets : UInt64
  atMs : UInt64

def CAN_EFF_OVERHEAD_BITS : ℕ := 67

def STUFFING_NUMER : ℕ := 120

def STUFFING_DENOM : ℕ := 100

/-- At most the largest `u64`. -/
def saturate (n : ℕ) : ℕ := min n 18446744073709551615

def computeLoadPct (prev curr : LoadSample) (bitrateBps : UInt32) : Option UInt8 :=
  let dtMs := curr.atMs.toNat - prev.atMs.toNat
  if dtMs = 0 ∨ bitrateBps = 0 then none
  else
    let dBytes := saturate ((curr.rxBytes - prev.rxBytes).toNat + (curr.txBytes - prev.txBytes).toNat)
    let dPackets :=
      saturate ((curr.rxPackets - prev.rxPackets).toNat + (curr.txPackets - prev.txPackets).toNat)
    let bitsRaw := saturate (saturate (dBytes * 8) + saturate (dPackets * CAN_EFF_OVERHEAD_BITS))
    let bitsOnWire := saturate (bitsRaw * STUFFING_NUMER) / STUFFING_DENOM
    let denom := saturate (bitrateBps.toNat * dtMs)
    if denom = 0 then none
    else some (UInt8.ofNat (min (saturate (bitsOnWire * 100000) / denom) 100))

/-- What the kernel counts. -/
structure Counters where
  rxErrors : Option UInt32
  txDropped : Option UInt32
  /-- Bytes and packets, received and sent. -/
  load : Option (UInt32 × UInt32 × UInt32 × UInt32)

def Counters.sample (c : Counters) (now : UInt64) : Option LoadSample :=
  c.load.map fun (rxBytes, txBytes, rxPackets, txPackets) =>
    ⟨rxBytes.toUInt64, txBytes.toUInt64, rxPackets.toUInt64, txPackets.toUInt64, now⟩

/-! ## The device -/

structure NmeaDevice where
  claim : AddressClaim
  /-- Zero turns the heartbeat off. -/
  heartbeatInterval : UInt64
  heartbeatSeq : UInt8
  nextHeartbeat : UInt64
  lastProductInfo : UInt64
  modelVersion : String
  startMs : UInt64
  nextNetworkStatus : UInt64
  seenAddrs : UInt8 → Bool
  bitrateBps : UInt32
  prevLoadSample : Option LoadSample

/-- What the device does to its bus: a PGN for the transmit queue, its status for the consumer, or
a message from the bus for the consumer. -/
inductive BusEvent
  | send (call : SendPgn)
  | status (f : RawFrame)
  | consume (f : RawFrame)

/-- The frames are sent, and the consumer sees them too. -/
def emitFrames (frames : List RawFrame) : List BusEvent :=
  frames.map fun f => .send ⟨f.prio, f.pgn, f.src, f.dst, f.data, true⟩

/-- The claimed address. -/
def AddressClaim.claimed? (c : AddressClaim) : Option UInt8 :=
  if c.state = .Claimed then some c.address else none

/-- What stays the same in a run of the program. -/
structure DeviceEnv where
  packetType : UInt32 → FramePacketType
  buildProductInfo : ProductInfo → Option Built
  pkgVersion : String

def TX_PGN_LIST : List UInt32 :=
  [PGN_ISO_ACK, PGN_ISO_REQUEST, PGN_ISO_ADDRESS_CLAIM, PGN_GROUP_FUNCTION, PGN_PGN_LIST,
    PGN_HEARTBEAT, PGN_PRODUCT_INFO]

def RX_PGN_LIST : List UInt32 := [PGN_ISO_REQUEST, PGN_ISO_ADDRESS_CLAIM, PGN_GROUP_FUNCTION]

def GROUP_FUNCTION_REQUEST : UInt8 := 0

def GROUP_FUNCTION_ACK : UInt8 := 2

def TX_INTERVAL_NO_CHANGE : UInt32 := 0xffffffff

def TX_INTERVAL_RESTORE_DEFAULT : UInt32 := 0xfffffffe

namespace NmeaDevice

variable (env : DeviceEnv)

def new (claim : AddressClaim) (heartbeatMs : UInt64) (modelVersion : String) (now : UInt64)
    (bitrateBps : UInt32) : NmeaDevice where
  claim
  heartbeatInterval := heartbeatMs
  heartbeatSeq := 0
  nextHeartbeat := 0
  lastProductInfo := 0
  modelVersion
  startMs := now
  nextNetworkStatus := 0
  seenAddrs _ := false
  bitrateBps
  prevLoadSample := none

def addr (d : NmeaDevice) : UInt8 := d.claim.claimed?.getD ADDR_NULL

def start (d : NmeaDevice) (now : UInt64) : NmeaDevice × List BusEvent :=
  let (claim, frames) := d.claim.start now
  ({ d with claim }, emitFrames frames)

def onClaim (d : NmeaDevice) (now : UInt64) (src : UInt8) (data : List UInt8) :
    NmeaDevice × List BusEvent :=
  if data.length < 8 then (d, [])
  else
    let theirName := UInt64.ofNat (LittleEndian.decode (data.take 8))
    let (claim, frames) := d.claim.onAddressClaim now src theirName
    ({ d with claim }, emitFrames frames)

def productInfo (d : NmeaDevice) : ProductInfo where
  dbVersion := 2100
  productCode := 1
  modelId := "CANboat"
  softwareVersion := env.pkgVersion
  modelVersion := d.modelVersion
  modelSerial := (d.claim.name &&& 0x1fffff).toNat.repr
  certificationLevel := 0
  loadEquivalency := 1

def sendProductInfo (d : NmeaDevice) (now : UInt64) : NmeaDevice × List BusEvent :=
  if now - d.lastProductInfo < 1000 then (d, [])
  else
    ({ d with lastProductInfo := now },
      emitFrames ((d.productInfo env).frame env.buildProductInfo d.addr).toList)

def sendPgnList (d : NmeaDevice) (dst : UInt8) : List BusEvent :=
  emitFrames (pgnListFrames d.addr dst TX_PGN_LIST RX_PGN_LIST)

def sendIsoAck (d : NmeaDevice) (dst control : UInt8) (pgn : UInt32) : List BusEvent :=
  emitFrames [isoAckFrame d.addr dst control pgn]

def sendAckGroupFunction (d : NmeaDevice) (dst : UInt8) (pgn : UInt32) (pgnErr paramErr : UInt8) :
    List BusEvent :=
  let errors : UInt8 := (pgnErr &&& (0x0f : UInt8)) ||| ((paramErr &&& (0x0f : UInt8)) <<< 4)
  [.send { prio := 6, pgn := PGN_GROUP_FUNCTION, src := d.addr, dst
           data := GROUP_FUNCTION_ACK :: LittleEndian.encode 3 pgn.toNat ++ [errors, 0]
           emit := true }]

def sendHeartbeat (d : NmeaDevice) : NmeaDevice × List BusEvent :=
  ({ d with heartbeatSeq := if d.heartbeatSeq ≥ 252 then 0 else d.heartbeatSeq + 1 },
    emitFrames [heartbeatFrame d.addr d.heartbeatSeq d.heartbeatInterval])

def onRequest (d : NmeaDevice) (now : UInt64) (src dst : UInt8) (data : List UInt8) :
    NmeaDevice × List BusEvent :=
  if data.length < 3 then (d, [])
  else
    let requested := UInt32.ofNat (LittleEndian.decode (data.take 3))
    let addressed := dst = d.addr
    if ¬addressed ∧ dst ≠ ADDR_GLOBAL then (d, [])
    else if requested = PGN_ISO_ADDRESS_CLAIM then (d, emitFrames d.claim.respondToClaimRequest.toList)
    else if d.claim.state ≠ .Claimed then (d, [])
    else if requested = PGN_PRODUCT_INFO then d.sendProductInfo env now
    else if requested = PGN_PGN_LIST then (d, d.sendPgnList src)
    else if requested = PGN_HEARTBEAT then d.sendHeartbeat
    -- a request for all that cannot be met is not answered
    else if addressed then (d, d.sendIsoAck src 1 requested)
    else (d, [])

def handleGroupFunction (d : NmeaDevice) (now : UInt64) (src : UInt8) (data : List UInt8) :
    NmeaDevice × List BusEvent :=
  if data.length < 8 ∨ data.head? ≠ some GROUP_FUNCTION_REQUEST ∨ d.claim.state ≠ .Claimed then
    (d, [])
  else
    let target := UInt32.ofNat (LittleEndian.decode ((data.drop 1).take 3))
    if target ≠ PGN_HEARTBEAT then (d, [])
    else
      let interval := UInt32.ofNat (LittleEndian.decode ((data.drop 4).take 4))
      let (d, paramErr) : NmeaDevice × UInt8 :=
        if interval = TX_INTERVAL_NO_CHANGE then (d, 0)
        else if interval = TX_INTERVAL_RESTORE_DEFAULT then
          ({ d with heartbeatInterval := 60000, nextHeartbeat := now + 60000 }, 0)
        else if interval = 0 then ({ d with heartbeatInterval := 0 }, 0)
        else if 1000 ≤ interval ∧ interval ≤ 60000 then
          ({ d with heartbeatInterval := interval.toUInt64
                    nextHeartbeat := now + interval.toUInt64 }, 0)
        else (d, 2)
      (d, d.sendAckGroupFunction src PGN_HEARTBEAT 0 paramErr)

def emitNetworkStatus (d : NmeaDevice) (now : UInt64) (counters : Counters) :
    NmeaDevice × List BusEvent :=
  let curr := counters.sample now
  let loadPct := match d.prevLoadSample, curr with
    | some prev, some curr => computeLoadPct prev curr d.bitrateBps
    | _, _ => none
  let seen := ((List.range 256).filter fun a => d.seenAddrs (UInt8.ofNat a)).length
  let frame := Ikonvert.buildNetworkStatus
    { loadPct
      errors := counters.rxErrors
      deviceCount := some (UInt8.ofNat (min seen 255))
      uptimeS := some ((now - d.startMs) / 1000).toUInt32
      gatewayAddr := d.addr
      rejectedTx := counters.txDropped }
    (some (formatIsoMs now))
  ({ d with prevLoadSample := curr.or d.prevLoadSample }, [.status frame])

/-- What a node says first from a new address. The clock is read again for it. -/
def announce (d : NmeaDevice) (was : ClaimState) (now clock : UInt64) :
    NmeaDevice × List BusEvent :=
  if was ≠ .Claimed ∧ d.claim.state = .Claimed then
    let (d, events) := d.sendProductInfo env clock
    ({ d with
        nextHeartbeat :=
          if d.heartbeatInterval > 0 then now + d.heartbeatInterval else d.nextHeartbeat
        nextNetworkStatus := now + NETWORK_STATUS_INTERVAL_MS }, events)
  else (d, [])

def heartbeatDue (d : NmeaDevice) (now : UInt64) : NmeaDevice × List BusEvent :=
  if d.claim.state = .Claimed ∧ d.heartbeatInterval > 0 ∧ d.nextHeartbeat ≤ now then
    let (d, events) := d.sendHeartbeat
    ({ d with nextHeartbeat := now + d.heartbeatInterval }, events)
  else (d, [])

def networkStatusDue (d : NmeaDevice) (now : UInt64) (counters : Counters) :
    NmeaDevice × List BusEvent :=
  if d.claim.state = .Claimed ∧ d.nextNetworkStatus ≤ now then
    let (d, events) := d.emitNetworkStatus now counters
    ({ d with nextNetworkStatus := now + NETWORK_STATUS_INTERVAL_MS }, events)
  else (d, [])

def tick (d : NmeaDevice) (now clock : UInt64) (counters : Counters) :
    NmeaDevice × List BusEvent :=
  let (claim, frames) := d.claim.tick now
  let (d, announced) := announce env { d with claim } d.claim.state now clock
  let (d, heartbeat) := d.heartbeatDue now
  let (d, status) := d.networkStatusDue now counters
  (d, emitFrames frames ++ (announced ++ heartbeat ++ status))

/-- What a frame of the bus does to the claim, before reassembly. -/
def drive (d : NmeaDevice) (now : UInt64) (f : RawFrame) : NmeaDevice × List BusEvent :=
  if d.claim.state = .Disabled then (d, [])
  else if f.pgn = PGN_ISO_ADDRESS_CLAIM then d.onClaim now f.src f.data
  else if f.pgn = PGN_ISO_REQUEST then d.onRequest env now f.src f.dst f.data
  else (d, [])

def noteAddr (d : NmeaDevice) (src : UInt8) : NmeaDevice :=
  if src ≠ ADDR_NULL ∧ src ≠ ADDR_GLOBAL then
    { d with seenAddrs := Function.update d.seenAddrs src true }
  else d

/-- What a whole message asks of the device. -/
def respond (d : NmeaDevice) (now : UInt64) (src : UInt8) (f : RawFrame) :
    NmeaDevice × List BusEvent :=
  if d.claim.state ≠ .Disabled ∧ f.pgn = PGN_GROUP_FUNCTION then d.handleGroupFunction now src f.data
  else (d, [])

end NmeaDevice

/-! ## The worker -/

/-- What the program hands to a device for sending. -/
inductive WriterCmd
  | frame (f : RawFrame)
  | bytes (bytes : List UInt8)

/-- What happens to the worker, with the clock. -/
inductive NmeaAction
  | start (now : UInt64)
  | handleFrame (now : UInt64) (canId : UInt32) (data : List UInt8) (whenMs : UInt64)
  | dispatchCmd (cmd : WriterCmd)
  | tick (now clock : UInt64) (counters : Counters)
  | drain (write : WriteResult)

/-- The time on echoes; what the program hands over has none. -/
def NmeaAction.stamp : NmeaAction → String
  | .start now | .handleFrame now _ _ _ | .tick _ now _ => formatIsoMs now
  | .dispatchCmd _ | .drain _ => ""

structure NmeaNode where
  device : NmeaDevice
  reasm : Reassembler
  tx : TxBuffer

namespace NmeaNode

variable (env : DeviceEnv)

def new (device : NmeaDevice) : NmeaNode := ⟨device, .new, .new⟩

/-- The address claim is driven by each frame, all else by whole messages. -/
def handleFrame (n : NmeaNode) (now : UInt64) (canId : UInt32) (data : List UInt8)
    (whenMs : UInt64) : NmeaNode × List BusEvent :=
  let (prio, pgn, src, dst) := iso11783Decompose canId
  let single : RawFrame := { timestamp := some (formatIsoMs whenMs), prio, pgn, src, dst, data }
  let (device, claims) := n.device.drive env now single
  let device := device.noteAddr src
  let (reasm, out) := n.reasm.push single (env.packetType pgn)
  match out with
  | .PassThrough f | .Complete f =>
      let (device, acks) := device.respond now src f
      ({ n with device, reasm }, claims ++ acks ++ [.consume f])
  | .Partial | .Error _ => ({ n with device, reasm }, claims)

/-- Sources 0 and 255 stand for the claimed address. -/
def dispatchCmd (n : NmeaNode) : WriterCmd → List BusEvent
  | .frame f =>
      if CANBOAT_PGN_START ≤ f.pgn then []
      else
        let src := if f.src = 0 ∨ f.src = ADDR_GLOBAL then n.device.addr else f.src
        [.send ⟨f.prio, f.pgn, src, f.dst, f.data, false⟩]
  | .bytes _ => []

/-- What a call does, before any of it reaches the queue. -/
def act (n : NmeaNode) : NmeaAction → NmeaNode × List BusEvent
  | .start now =>
      let (device, events) := n.device.start now
      ({ n with device }, events)
  | .handleFrame now canId data whenMs => n.handleFrame env now canId data whenMs
  | .dispatchCmd cmd => (n, n.dispatchCmd cmd)
  | .tick now clock counters =>
      let (device, events) := n.device.tick env now clock counters
      ({ n with device }, events)
  | .drain write => ({ n with tx := (n.tx.drainOne write).1 }, [])

/-- The queue after the events, and the frames that the consumer gets. -/
def perform (tx : TxBuffer) (stamp : String) : List BusEvent → TxBuffer × List RawFrame
  | [] => (tx, [])
  | .send call :: events =>
      let (tx, echo) := tx.sendPgn env.packetType call stamp
      let (tx, frames) := perform tx stamp events
      (tx, echo.toList ++ frames)
  | .status f :: events | .consume f :: events =>
      let (tx, frames) := perform tx stamp events
      (tx, f :: frames)

def step (n : NmeaNode) (action : NmeaAction) : NmeaNode × List RawFrame :=
  let (m, events) := n.act env action
  let (tx, frames) := perform env m.tx action.stamp events
  ({ m with tx }, frames)

end NmeaNode

/-! ## Speaking from one's own address -/

/-- A claim, a request for claims of a node without an address, or a frame from the address. -/
def BusEvent.Own (c : AddressClaim) : BusEvent → Prop
  | .send call =>
      call.pgn = PGN_ISO_ADDRESS_CLAIM ∨ call.pgn = PGN_ISO_REQUEST ∧ c.claimed? = none ∨
        c.claimed? = some call.src
  | .status f => c.claimed? = some f.src
  | .consume _ => True

def AllOwn (c : AddressClaim) (events : List BusEvent) : Prop := ∀ e ∈ events, e.Own c

namespace AddressClaim

theorem claimed?_of_state {c : AddressClaim} (h : c.state = .Claimed) :
    c.claimed? = some c.address := if_pos h

theorem pgn_settle (c : AddressClaim) (now : UInt64) (next : Option UInt8) :
    ∀ f ∈ (c.settle now next).2, f.pgn = PGN_ISO_ADDRESS_CLAIM := by
  cases next <;> intro f hf <;> rw [List.mem_singleton.mp hf] <;> rfl

theorem pgn_onAddressClaim (c : AddressClaim) (now : UInt64) (src : UInt8) (theirName : UInt64) :
    ∀ f ∈ (c.onAddressClaim now src theirName).2, f.pgn = PGN_ISO_ADDRESS_CLAIM := by
  rw [onAddressClaim]
  split_ifs
  · exact nofun
  · exact nofun
  · exact nofun
  · intro f hf
    rw [List.mem_singleton.mp hf]
    rfl
  · exact pgn_settle _ _ _

theorem pgn_tick (c : AddressClaim) (now : UInt64) :
    ∀ f ∈ (c.tick now).2, f.pgn = PGN_ISO_ADDRESS_CLAIM := by
  rw [tick]
  split
  · split_ifs
    · exact pgn_settle _ _ _
    · exact nofun
  · split_ifs <;> exact nofun
  · exact nofun

end AddressClaim

theorem allOwn_nil (c : AddressClaim) : AllOwn c [] := nofun

theorem AllOwn.append {c : AddressClaim} {events later : List BusEvent} (h : AllOwn c events)
    (hlater : AllOwn c later) : AllOwn c (events ++ later) :=
  List.forall_mem_append.mpr ⟨h, hlater⟩

theorem allOwn_claims {c : AddressClaim} {frames : List RawFrame}
    (h : ∀ f ∈ frames, f.pgn = PGN_ISO_ADDRESS_CLAIM) : AllOwn c (emitFrames frames) := by
  intro e he
  obtain ⟨f, hf, rfl⟩ := List.mem_map.mp he
  exact Or.inl (h f hf)

/-- What a node sends from the address that it has. -/
theorem allOwn_emit {c : AddressClaim} {frames : List RawFrame}
    (h : ∀ f ∈ frames, c.claimed? = some f.src) : AllOwn c (emitFrames frames) := by
  intro e he
  obtain ⟨f, hf, rfl⟩ := List.mem_map.mp he
  exact Or.inr (Or.inr (h f hf))

namespace NmeaDevice

variable {env : DeviceEnv} {d : NmeaDevice}

theorem claimed?_eq_addr (h : d.claim.state = .Claimed) : d.claim.claimed? = some d.addr := by
  rw [addr, AddressClaim.claimed?_of_state h]
  rfl

theorem start_own (now : UInt64) : AllOwn (d.start now).1.claim (d.start now).2 := by
  rw [start, AddressClaim.start]
  split_ifs with hdisabled
  · exact allOwn_nil _
  · intro e he
    rw [List.mem_singleton.mp he]
    exact Or.inr (Or.inl ⟨rfl, rfl⟩)

theorem onClaim_own (now : UInt64) (src : UInt8) (data : List UInt8) :
    AllOwn (d.onClaim now src data).1.claim (d.onClaim now src data).2 := by
  rw [onClaim]
  split_ifs
  · exact allOwn_nil _
  · exact allOwn_claims (AddressClaim.pgn_onAddressClaim _ _ _ _)

theorem sendProductInfo_claim (now : UInt64) : (d.sendProductInfo env now).1.claim = d.claim := by
  rw [sendProductInfo]
  split_ifs <;> rfl

theorem sendProductInfo_own (h : d.claim.state = .Claimed) (now : UInt64) :
    AllOwn d.claim (d.sendProductInfo env now).2 := by
  rw [sendProductInfo]
  split_ifs
  · exact allOwn_nil _
  · apply allOwn_emit
    intro f hf
    rw [Option.mem_toList, ProductInfo.frame] at hf
    obtain ⟨b, -, rfl⟩ := Option.map_eq_some_iff.mp hf
    exact claimed?_eq_addr h

theorem sendPgnList_own (h : d.claim.state = .Claimed) (dst : UInt8) :
    AllOwn d.claim (d.sendPgnList dst) := by
  apply allOwn_emit
  intro f hf
  obtain ⟨list, -, rfl⟩ := List.mem_map.mp hf
  exact claimed?_eq_addr h

theorem sendHeartbeat_own (h : d.claim.state = .Claimed) : AllOwn d.claim d.sendHeartbeat.2 := by
  apply allOwn_emit
  intro f hf
  rw [List.mem_singleton.mp hf]
  exact claimed?_eq_addr h

theorem sendIsoAck_own (h : d.claim.state = .Claimed) (dst control : UInt8) (pgn : UInt32) :
    AllOwn d.claim (d.sendIsoAck dst control pgn) := by
  apply allOwn_emit
  intro f hf
  rw [List.mem_singleton.mp hf]
  exact claimed?_eq_addr h

theorem onRequest_claim (now : UInt64) (src dst : UInt8) (data : List UInt8) :
    (d.onRequest env now src dst data).1.claim = d.claim := by
  rw [onRequest]
  dsimp only
  split_ifs
  all_goals first | rfl | exact sendProductInfo_claim now

theorem onRequest_own (now : UInt64) (src dst : UInt8) (data : List UInt8) :
    AllOwn d.claim (d.onRequest env now src dst data).2 := by
  rw [onRequest]
  dsimp only
  split_ifs with hshort hother hclaim hstate hinfo hlist hbeat haddressed
  · exact allOwn_nil _
  · exact allOwn_nil _
  · apply allOwn_claims
    intro f hf
    rw [Option.mem_toList, AddressClaim.respondToClaimRequest] at hf
    split_ifs at hf
    cases hf
    rfl
  · exact allOwn_nil _
  · exact sendProductInfo_own (not_not.mp hstate) now
  · exact sendPgnList_own (not_not.mp hstate) src
  · exact sendHeartbeat_own (not_not.mp hstate)
  · exact sendIsoAck_own (not_not.mp hstate) _ _ _
  · exact allOwn_nil _

theorem handleGroupFunction_claim (now : UInt64) (src : UInt8) (data : List UInt8) :
    (d.handleGroupFunction now src data).1.claim = d.claim := by
  rw [handleGroupFunction]
  dsimp only
  split_ifs <;> rfl

theorem sendAckGroupFunction_own (h : d.claim.state = .Claimed) (dst : UInt8) (pgn : UInt32)
    (pgnErr paramErr : UInt8) : AllOwn d.claim (d.sendAckGroupFunction dst pgn pgnErr paramErr) := by
  intro e he
  rw [List.mem_singleton.mp he]
  exact Or.inr (Or.inr (claimed?_eq_addr h))

theorem handleGroupFunction_own (now : UInt64) (src : UInt8) (data : List UInt8) :
    AllOwn d.claim (d.handleGroupFunction now src data).2 := by
  rw [handleGroupFunction]
  dsimp only
  split_ifs with hskip htarget
  all_goals first
    | exact allOwn_nil _
    | exact sendAckGroupFunction_own (not_not.mp fun h => hskip (Or.inr (Or.inr h))) _ _ _ _

theorem emitNetworkStatus_claim (now : UInt64) (counters : Counters) :
    (d.emitNetworkStatus now counters).1.claim = d.claim := rfl

theorem emitNetworkStatus_own (h : d.claim.state = .Claimed) (now : UInt64) (counters : Counters) :
    AllOwn d.claim (d.emitNetworkStatus now counters).2 := by
  intro e he
  rw [List.mem_singleton.mp he]
  exact claimed?_eq_addr h

/-- A stage of a call: it leaves the claim alone, and speaks from its address. -/
structure Stage (d : NmeaDevice) (out : NmeaDevice × List BusEvent) : Prop where
  claim : out.1.claim = d.claim
  own : AllOwn d.claim out.2

theorem Stage.andThen {out next : NmeaDevice × List BusEvent} (h : Stage d out)
    (hnext : Stage out.1 next) : Stage d (next.1, out.2 ++ next.2) :=
  ⟨hnext.claim.trans h.claim, h.own.append (h.claim ▸ hnext.own)⟩

variable (env) in
theorem announce_stage (was : ClaimState) (now clock : UInt64) :
    Stage d (d.announce env was now clock) := by
  rw [announce]
  split_ifs with h
  · exact ⟨sendProductInfo_claim clock, sendProductInfo_own h.2 clock⟩
  · exact ⟨rfl, allOwn_nil _⟩

theorem heartbeatDue_stage (now : UInt64) : Stage d (d.heartbeatDue now) := by
  rw [heartbeatDue]
  split_ifs with h
  · exact ⟨rfl, sendHeartbeat_own h.1⟩
  · exact ⟨rfl, allOwn_nil _⟩

theorem networkStatusDue_stage (now : UInt64) (counters : Counters) :
    Stage d (d.networkStatusDue now counters) := by
  rw [networkStatusDue]
  split_ifs with h
  · exact ⟨rfl, emitNetworkStatus_own h.1 now counters⟩
  · exact ⟨rfl, allOwn_nil _⟩

variable (env) in
/-- The claim moves first; what follows comes from the address that it then has. -/
theorem tick_spec (now clock : UInt64) (counters : Counters) :
    ∃ later, (d.tick env now clock counters).2 = emitFrames (d.claim.tick now).2 ++ later ∧
      (d.tick env now clock counters).1.claim = (d.claim.tick now).1 ∧
      AllOwn (d.claim.tick now).1 later := by
  have hstages := ((announce_stage env (d := { d with claim := (d.claim.tick now).1 })
    d.claim.state now clock).andThen (heartbeatDue_stage now)).andThen
      (networkStatusDue_stage now counters)
  exact ⟨_, rfl, hstages.claim, hstages.own⟩

theorem tick_own (now clock : UInt64) (counters : Counters) :
    AllOwn (d.tick env now clock counters).1.claim (d.tick env now clock counters).2 := by
  obtain ⟨later, hevents, hclaim, hlater⟩ := tick_spec env (d := d) now clock counters
  rw [hevents, hclaim]
  exact (allOwn_claims (AddressClaim.pgn_tick d.claim now)).append hlater

variable (env) in
theorem drive_own (now : UInt64) (f : RawFrame) :
    AllOwn (d.drive env now f).1.claim (d.drive env now f).2 := by
  rw [drive]
  split_ifs
  · exact allOwn_nil _
  · exact onClaim_own now _ _
  · rw [onRequest_claim]
    exact onRequest_own now _ _ _
  · exact allOwn_nil _

theorem noteAddr_claim (src : UInt8) : (d.noteAddr src).claim = d.claim := by
  rw [noteAddr]
  split_ifs <;> rfl

theorem respond_stage (now : UInt64) (src : UInt8) (f : RawFrame) :
    Stage d (d.respond now src f) := by
  rw [respond]
  split_ifs
  · exact ⟨handleGroupFunction_claim now src f.data, handleGroupFunction_own now src f.data⟩
  · exact ⟨rfl, allOwn_nil _⟩

end NmeaDevice

namespace NmeaNode

variable {env : DeviceEnv} {n : NmeaNode}

variable (env) in
/-- The frame moves the claim, and the message that it completes is answered after that. -/
theorem handleFrame_spec (now : UInt64) (canId : UInt32) (data : List UInt8) (whenMs : UInt64) :
    ∃ f later, (n.handleFrame env now canId data whenMs).2 =
        (n.device.drive env now f).2 ++ later ∧
      (n.handleFrame env now canId data whenMs).1.device.claim =
        (n.device.drive env now f).1.claim ∧
      AllOwn (n.device.drive env now f).1.claim later := by
  rw [handleFrame]
  obtain ⟨prio, pgn, src, dst⟩ := iso11783Decompose canId
  dsimp only
  generalize RawFrame.mk .. = single
  generalize hdriven : n.device.drive env now single = driven
  obtain ⟨device, claims⟩ := driven
  have hnote := device.noteAddr_claim src
  generalize device.noteAddr src = noted at hnote ⊢
  have hanswer (f : RawFrame) : AllOwn device.claim ((noted.respond now src f).2 ++ [.consume f]) := by
    rw [← hnote]
    refine (noted.respond_stage now src f).own.append ?_
    intro e he
    rw [List.mem_singleton.mp he]
    exact trivial
  refine ⟨single, ?_⟩
  rw [hdriven]
  split
  next f _ =>
    exact ⟨_, List.append_assoc _ _ _, (noted.respond_stage now src f).claim.trans hnote, hanswer f⟩
  next f _ =>
    exact ⟨_, List.append_assoc _ _ _, (noted.respond_stage now src f).claim.trans hnote, hanswer f⟩
  next => exact ⟨[], (List.append_nil _).symm, hnote, allOwn_nil _⟩
  next => exact ⟨[], (List.append_nil _).symm, hnote, allOwn_nil _⟩

theorem handleFrame_own (now : UInt64) (canId : UInt32) (data : List UInt8) (whenMs : UInt64) :
    AllOwn (n.handleFrame env now canId data whenMs).1.device.claim
      (n.handleFrame env now canId data whenMs).2 := by
  obtain ⟨f, later, hevents, hclaim, hlater⟩ :=
    handleFrame_spec env (n := n) now canId data whenMs
  rw [hevents, hclaim]
  exact (n.device.drive_own env now f).append hlater

end NmeaNode

/-! ## Reaching the queue -/

namespace TxBuffer

variable {packetType : UInt32 → FramePacketType} {tx : TxBuffer}

/-- The queue has room for a first frame, and there is one. -/
def Admits (packetType : UInt32 → FramePacketType) (tx : TxBuffer) (call : SendPgn) : Prop :=
  tx.queue.length < TX_BUFFER_CAPACITY ∧
    if packetType call.pgn = .Fast then call.data ≠ [] else call.data.length ≤ 8

theorem push_queue_ne_iff (canId : UInt32) (data : List UInt8) :
    (tx.push canId data).queue ≠ tx.queue ↔
      tx.queue.length < TX_BUFFER_CAPACITY ∧ data.length ≤ 8 := by
  rw [push]
  split_ifs with hfull hlong
  · exact iff_of_false (fun h => h rfl) fun h => hfull.not_gt h.1
  · exact iff_of_false (fun h => h rfl) fun h => hlong.not_ge h.2
  · exact iff_of_true (by simp) ⟨Nat.not_le.mp hfull, Nat.not_lt.mp hlong⟩

theorem sendFast_queue_ne_iff (canId : UInt32) (seq : UInt8) (data : List UInt8) (index : UInt8)
    (offset remaining : ℕ) :
    (tx.sendFast canId seq data index offset remaining).queue ≠ tx.queue ↔
      tx.queue.length < TX_BUFFER_CAPACITY ∧ remaining ≠ 0 := by
  by_cases hfull : TX_BUFFER_CAPACITY ≤ tx.queue.length
  · rw [sendFast_of_full hfull]
    exact iff_of_false (fun h => h rfl) fun h => hfull.not_gt h.1
  · by_cases hzero : remaining = 0
    · rw [sendFast, dif_pos hzero]
      exact iff_of_false (fun h => h rfl) fun h => h.2 hzero
    · refine iff_of_true (fun h => ?_) ⟨Nat.not_le.mp hfull, hzero⟩
      rw [sendFast, dif_neg hzero] at h
      dsimp only at h
      -- the first frame already makes the queue longer
      generalize hchunk : min remaining (if index = 0 then 6 else 7) = chunk at h
      have hpush : tx.queue.length <
          (tx.push canId (fastFrame seq index data offset chunk)).queue.length := by
        rw [push, if_neg hfull, if_neg (by rw [fastFrame_length]; decide)]
        simp
      have hle := (tx.push canId (fastFrame seq index data offset chunk)).sendFast_length_le
        canId seq data (index + 1) (offset + chunk) (remaining - chunk)
      rw [h] at hle
      exact hle.not_gt hpush

theorem sendPgn_queue_ne_iff (call : SendPgn) (stamp : String) :
    (tx.sendPgn packetType call stamp).1.queue ≠ tx.queue ↔ tx.Admits packetType call := by
  rw [sendPgn, Admits]
  dsimp only
  by_cases hfast : packetType call.pgn = .Fast
  · rw [if_neg (not_not.mpr hfast), if_pos hfast]
    exact (sendFast_queue_ne_iff _ _ _ _ _ _).trans
      (and_congr_right' (not_congr List.length_eq_zero_iff))
  · rw [if_pos hfast, if_neg hfast]
    exact push_queue_ne_iff _ _

/-- There is room for all of the call's frames. -/
def Fits (packetType : UInt32 → FramePacketType) (tx : TxBuffer) (call : SendPgn) : Prop :=
  if packetType call.pgn = .Fast then
    1 ≤ call.data.length ∧ call.data.length ≤ FASTPACKET_MAX_SIZE ∧
      tx.queue.length + frameCount call.data.length ≤ TX_BUFFER_CAPACITY
  else call.data.length ≤ 8 ∧ tx.queue.length < TX_BUFFER_CAPACITY

/-- The frames of a call, and nothing else, follow what is queued. -/
def Gains (packetType : UInt32 → FramePacketType) (tx : TxBuffer) (call : SendPgn)
    (tx' : TxBuffer) : Prop :=
  let payloads :=
    if packetType call.pgn = .Fast then
      (List.range (frameCount call.data.length)).map
        (txFrame (tx.fastSeq (call.pgn, call.src)) call.data)
    else [call.data]
  tx'.queue = tx.queue ++ payloads.map fun data =>
    { id := iso11783Compose call.prio call.pgn call.src call.dst &&& CAN_EFF_MASK, data }

theorem push_queue_of_room (canId : UInt32) {data : List UInt8} (hdata : data.length ≤ 8)
    (hroom : tx.queue.length < TX_BUFFER_CAPACITY) :
    (tx.push canId data).queue = tx.queue ++ [{ id := canId &&& CAN_EFF_MASK, data }] := by
  rw [push, if_neg (Nat.not_le.mpr hroom), if_neg (Nat.not_lt.mpr hdata)]

/-- **With room to the end a call is queued whole.** -/
theorem sendPgn_gains (call : SendPgn) (stamp : String) (hfits : tx.Fits packetType call) :
    tx.Gains packetType call (tx.sendPgn packetType call stamp).1 := by
  rw [Fits] at hfits
  rw [Gains, sendPgn]
  dsimp only
  by_cases hfast : packetType call.pgn = .Fast
  · rw [if_pos hfast] at hfits ⊢
    rw [if_neg (not_not.mpr hfast)]
    obtain ⟨hpos, hmax, hroom⟩ := hfits
    set canId := iso11783Compose call.prio call.pgn call.src call.dst
    set seq := tx.fastSeq (call.pgn, call.src)
    have hloop := sendFast_eq canId seq hpos hmax (tx.nextFastSeq call.pgn call.src).2
      (Nat.zero_add (frameCount call.data.length))
    rw [← List.range_eq_range'] at hloop
    have hqueue := congrArg queue hloop
    refine hqueue.trans (pushAll_queue_of_room (fun data hdata => ?_) ?_)
    · obtain ⟨i, hi, rfl⟩ := List.mem_map.mp hdata
      exact (txFrame_carries seq (lt_32 hmax (List.mem_range.mp hi))).2.le
    · rw [List.length_map, List.length_range]
      exact hroom
  · rw [if_neg hfast] at hfits ⊢
    rw [if_pos hfast]
    exact push_queue_of_room _ hfits.1 hfits.2

end TxBuffer

/-! ## Silence -/

/-- A send of the program with a source of its own. -/
def NmeaAction.Explicit : NmeaAction → Prop
  | .dispatchCmd (.frame f) => f.src ≠ 0 ∧ f.src ≠ ADDR_GLOBAL
  | _ => False

/-- What the device itself does. -/
def NmeaAction.Device : NmeaAction → Prop
  | .dispatchCmd _ => False
  | _ => True

/-- A claim, or what comes from the address. -/
def BusEvent.Speaks (a : UInt8) : BusEvent → Prop
  | .send call => call.pgn = PGN_ISO_ADDRESS_CLAIM ∨ call.src = a
  | .status f => f.src = a
  | .consume _ => True

namespace NmeaNode

variable (env : DeviceEnv)

/-- Without an address only the negotiation of one reaches the queue, and what names its source;
with one, the device speaks from it. -/
structure StepQuiet (n : NmeaNode) (action : NmeaAction) : Prop where
  silent : ∀ before call later, (n.act env action).2 = before ++ .send call :: later →
    (n.act env action).1.device.claim.claimed? = none →
    ((perform env (n.act env action).1.tx action.stamp before).1.sendPgn env.packetType call
        action.stamp).1.queue ≠
      (perform env (n.act env action).1.tx action.stamp before).1.queue →
    call.pgn = PGN_ISO_REQUEST ∨ call.pgn = PGN_ISO_ADDRESS_CLAIM ∨ action.Explicit
  own : action.Device → ∀ a, (n.act env action).1.device.claim.claimed? = some a →
    ∀ e ∈ (n.act env action).2, e.Speaks a

/-- The program waits for an address before it has the device fill in the source. -/
def Addressed (n : NmeaNode) : NmeaAction → Prop
  | .dispatchCmd (.frame f) =>
      n.device.claim.claimed? = none → f.src = 0 ∨ f.src = ADDR_GLOBAL →
        f.pgn < CANBOAT_PGN_START → f.pgn ≠ PGN_ISO_REQUEST → f.pgn ≠ PGN_ISO_ADDRESS_CLAIM →
          ¬n.tx.Admits env.packetType ⟨f.prio, f.pgn, ADDR_NULL, f.dst, f.data, false⟩
  | _ => True

variable {env : DeviceEnv} {n : NmeaNode}

theorem stepQuiet_of_own {action : NmeaAction}
    (h : AllOwn (n.act env action).1.device.claim (n.act env action).2) :
    n.StepQuiet env action := by
  constructor
  · intro before call later hevents hnone _
    have hmem : BusEvent.send call ∈ (n.act env action).2 := by
      rw [hevents]
      exact List.mem_append_right before List.mem_cons_self
    obtain hclaim | hrequest | hsome := h _ hmem
    · exact Or.inr (Or.inl hclaim)
    · exact Or.inl hrequest.1
    · cases hnone.symm.trans hsome
  · intro _ a ha e he
    cases e with
    | send call =>
        obtain hclaim | hrequest | hsome := h _ he
        · exact Or.inl hclaim
        · cases ha.symm.trans hrequest.2
        · exact Or.inr (Option.some.inj (hsome.symm.trans ha))
    | status f => exact Option.some.inj ((h _ he).symm.trans ha)
    | consume f => exact trivial

theorem stepQuiet_dispatch_iff (f : RawFrame) :
    n.StepQuiet env (.dispatchCmd (.frame f)) ↔ n.Addressed env (.dispatchCmd (.frame f)) := by
  by_cases hpgn : CANBOAT_PGN_START ≤ f.pgn
  · have hnone : n.dispatchCmd (.frame f) = [] := if_pos hpgn
    refine iff_of_true (stepQuiet_of_own ?_) fun _ _ h => absurd hpgn (UInt32.not_le.mpr h)
    rw [act, hnone]
    exact allOwn_nil _
  · have hsend : (n.act env (.dispatchCmd (.frame f))).2 = [.send ⟨f.prio, f.pgn,
        if f.src = 0 ∨ f.src = ADDR_GLOBAL then n.device.addr else f.src, f.dst, f.data, false⟩] :=
      if_neg hpgn
    constructor
    · intro h hunclaimed hsrc _ hrequest hclaim hadmits
      have haddr : n.device.addr = ADDR_NULL := by
        rw [NmeaDevice.addr, hunclaimed]
        rfl
      rw [if_pos hsrc, haddr] at hsend
      obtain hq | hq | hexplicit := h.silent [] _ [] hsend hunclaimed
        ((TxBuffer.sendPgn_queue_ne_iff _ _).mpr hadmits)
      · exact hrequest hq
      · exact hclaim hq
      · obtain hzero | hglobal := hsrc
        · exact hexplicit.1 hzero
        · exact hexplicit.2 hglobal
    · intro h
      refine ⟨fun before call later hevents hunclaimed hputs => ?_, fun hdevice => hdevice.elim⟩
      rw [hsend] at hevents
      obtain ⟨rfl, hcall⟩ | ⟨-, hnil⟩ := List.append_eq_singleton_iff.mp hevents.symm
      · obtain ⟨⟨⟨⟩⟩, rfl⟩ := List.cons_eq_cons.mp hcall
        by_contra hneither
        push Not at hneither
        obtain ⟨hrequest, hclaim, hexplicit⟩ := hneither
        have hsrc : f.src = 0 ∨ f.src = ADDR_GLOBAL := by
          by_contra hother
          exact hexplicit (not_or.mp hother)
        have haddr : n.device.addr = ADDR_NULL := by
          rw [NmeaDevice.addr, show n.device.claim.claimed? = none from hunclaimed]
          rfl
        have hadmits := (TxBuffer.sendPgn_queue_ne_iff _ _).mp hputs
        rw [if_pos hsrc, haddr] at hadmits
        exact h hunclaimed hsrc (UInt32.not_le.mp hpgn) hrequest hclaim hadmits
      · cases hnil

theorem stepQuiet_iff (action : NmeaAction) :
    n.StepQuiet env action ↔ n.Addressed env action := by
  cases action with
  | start now => exact iff_of_true (stepQuiet_of_own (n.device.start_own now)) trivial
  | handleFrame now canId data whenMs =>
      exact iff_of_true (stepQuiet_of_own (handleFrame_own now canId data whenMs)) trivial
  | dispatchCmd cmd =>
      cases cmd with
      | frame f => exact stepQuiet_dispatch_iff f
      | bytes bytes => exact iff_of_true (stepQuiet_of_own (allOwn_nil _)) trivial
  | tick now clock counters =>
      exact iff_of_true (stepQuiet_of_own (NmeaDevice.tick_own now clock counters)) trivial
  | drain write => exact iff_of_true (stepQuiet_of_own (allOwn_nil _)) trivial

/-- A run is silent without an address exactly if the program always waits for one. -/
theorem quiet_iff (env : DeviceEnv) (n : NmeaNode) (actions : List NmeaAction) :
    Along (fun n action => (n.step env action).1) (StepQuiet env) n actions ↔
      Along (fun n action => (n.step env action).1) (Addressed env) n actions :=
  Along.congr fun _ action => stepQuiet_iff action

/-- A heading that the program sends before the node has an address. -/
def earlyHeading : RawFrame where
  timestamp := none
  prio := 2
  pgn := 127250
  src := 0
  dst := 255
  data := [0, 0, 0, 0, 0, 0, 0, 0]

/-- It is queued, from the null address. -/
theorem not_quiet : ¬∀ (env : DeviceEnv) (name : UInt64) (preferred : UInt8) (heartbeatMs : UInt64)
    (actions : List NmeaAction),
    Along (fun n action => (n.step env action).1) (StepQuiet env)
      (.new (.new (.new name preferred true) heartbeatMs "" 0 250000)) actions := by
  intro h
  have hquiet := h ⟨fun _ => .Single, fun _ => none, ""⟩ 1 0 0 [.dispatchCmd (.frame earlyHeading)]
  exact (stepQuiet_iff _).mp (hquiet [] _ [] rfl) rfl (Or.inl rfl) (by decide) (by decide)
    (by decide) ⟨by decide, by decide⟩

end NmeaNode

end Canboat
