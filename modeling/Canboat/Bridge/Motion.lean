import Canboat.Decode.DeviceName
import Canboat.Io.NmeaDevice

/-!
# The motion quirk

A virtual node beside the gateway: it claims an address of its own, says that it is a certain
motion sensor, and hands on the rates of turn that another sensor measures.

The machine id, both clocks, and the payload of the product information are parameters.
-/

namespace Canboat

/-! ## The NAME of a node -/

structure Name where
  uniqueNumber : UInt32
  manufacturerCode : UInt16
  deviceInstance : UInt8
  deviceFunction : UInt8
  deviceClass : UInt8
  systemInstance : UInt8
  industryGroup : UInt8
  arbitraryAddressCapable : Bool

namespace Name

def new (manufacturerCode : UInt16) (uniqueNumber : UInt32) : Name where
  uniqueNumber
  manufacturerCode
  deviceInstance := 0
  deviceFunction := 0
  deviceClass := 0
  systemInstance := 0
  industryGroup := 4
  arbitraryAddressCapable := true

def toU64 (n : Name) : UInt64 :=
  let di := n.deviceInstance.toUInt64
  (n.uniqueNumber &&& 0x1fffff).toUInt64
    ||| ((n.manufacturerCode &&& 0x7ff).toUInt64 <<< 21)
    ||| ((di &&& 0x07) <<< 32)
    ||| (((di >>> 3) &&& 0x1f) <<< 35)
    ||| (n.deviceFunction.toUInt64 <<< 40)
    ||| ((n.deviceClass.toUInt64 &&& 0x7f) <<< 49)
    ||| ((n.systemInstance.toUInt64 &&& 0x0f) <<< 56)
    ||| ((n.industryGroup.toUInt64 &&& 0x07) <<< 60)
    ||| (n.arbitraryAddressCapable.toUInt64 <<< 63)

end Name

/-! ## The sensor -/

def PGN_BG_RATES : UInt32 := 130824

def PGN_BG_RATES_PRIO : UInt8 := 3

def PGN_SCX_6DOF : UInt32 := 130842

def MFG_FURUNO : UInt16 := 1855

def KEY_ROLL_RATE : UInt16 := 60

def KEY_PITCH_RATE : UInt16 := 158

def KEY_YAW_RATE : UInt16 := 68

def MFG_BANDG : UInt16 := 381

def INDUSTRY_MARINE : UInt16 := 4

/-- Not zero, which the pipeline takes for canboat's own node. -/
def PREFERRED_ADDRESS : UInt8 := 24

namespace Motion

def TX_PGN_LIST : List UInt32 :=
  [PGN_ISO_ADDRESS_CLAIM, PGN_PRODUCT_INFO, PGN_PGN_LIST, PGN_BG_RATES]

def RX_PGN_LIST : List UInt32 := [PGN_ISO_REQUEST, PGN_ISO_ADDRESS_CLAIM, PGN_SCX_6DOF]

def PRODUCT_INFO : ProductInfo where
  dbVersion := 2100
  productCode := 21488
  modelId := "H5000 Motion Sensor"
  softwareVersion := "1.2.4"
  modelVersion := "Motion"
  modelSerial := "canboat"
  certificationLevel := 2
  loadEquivalency := 1

end Motion

structure Motion where
  claim : AddressClaim
  /-- The first call's time. -/
  base : Option ℕ
  started : Bool
  rateSource : Option UInt8

/-! ## The rates -/

def headerManufacturer (data : List UInt8) : Option UInt16 :=
  if data.length < 2 then none
  else some (UInt16.ofNat (LittleEndian.decode (data.take 2)) &&& 0x07ff)

/-- Roll, pitch and yaw. -/
def scx6dofRates (data : List UInt8) : Option (Int32 × Int32 × Int32) :=
  let rate (i : ℕ) : Int32 := (UInt32.ofNat (LittleEndian.decode ((data.drop i).take 4))).toInt32
  if data.length < 27 then none else some (rate 15, rate 19, rate 23)

section

variable (F : Type) [Float64 F]

def SCX_RATE_LSB_RAD_S : F :=
  Float64.div (Float64.mul (Float64.ofRat 0.001) (Float64.ofRat 3.14159265358979323846264338327950288))
    (Float64.ofRat 180)

def BG_RATE_LSB_RAD_S : F := Float64.ofRat 3.125e-8

/-- At the ends of an `i32` it stays there. -/
def transcodeRate (scxCount : Int32) : Int32 :=
  let radS : F := Float64.mul (Float64.ofInt scxCount.toInt) (SCX_RATE_LSB_RAD_S F)
  Int32.ofInt (Float64.toIntWithin (-2147483648) 2147483647
    (Float64.round (Float64.div radS (BG_RATE_LSB_RAD_S F))))

def build130824Payload (roll pitch yaw : Int32) : List UInt8 :=
  let header : UInt16 := MFG_BANDG ||| ((0b11 : UInt16) <<< 11) ||| (INDUSTRY_MARINE <<< 13)
  let entry (key : UInt16) (count : Int32) : List UInt8 :=
    LittleEndian.encode 2 ((key &&& (0x0fff : UInt16)) ||| ((4 : UInt16) <<< 12)).toNat ++
      LittleEndian.encode 4 (transcodeRate F count).toUInt32.toNat
  LittleEndian.encode 2 header.toNat ++ entry KEY_ROLL_RATE roll ++ entry KEY_PITCH_RATE pitch ++
    entry KEY_YAW_RATE yaw

end

/-- The time of the host on frames without one. -/
def stampFrames (wall : UInt64) (frames : List RawFrame) : List RawFrame :=
  frames.map fun f =>
    if f.timestamp = none then { f with timestamp := some (formatIsoMs wall) } else f

namespace Motion

variable (env : DeviceEnv) {F : Type} [Float64 F]

def buildName (machineId : UInt32) : UInt64 :=
  { Name.new MFG_BANDG machineId with deviceFunction := 140, deviceClass := 60 }.toU64

def new (machineId : UInt32) : Motion where
  claim := .new (buildName machineId) PREFERRED_ADDRESS true
  base := none
  started := false
  rateSource := none

def productInfo (m : Motion) : Option RawFrame :=
  m.claim.claimed?.bind fun addr => PRODUCT_INFO.frame env.buildProductInfo addr

def pgnLists (m : Motion) : List RawFrame :=
  match m.claim.claimed? with
  | some addr => pgnListFrames addr ADDR_GLOBAL TX_PGN_LIST RX_PGN_LIST
  | none => []

/-- The field of a request that names the PGN. -/
def requestedPgn (d : DecodedPgn F) : Option UInt32 :=
  ((d.field 1).bind (·.value.asI64)).map fun v => v.toUInt64.toUInt32

def handleRequest (m : Motion) (d : DecodedPgn F) : List RawFrame :=
  match requestedPgn d with
  | none => []
  | some requested =>
      if ¬(m.claim.claimed? = some d.dst ∨ d.dst = ADDR_GLOBAL) then []
      else if requested = PGN_ISO_ADDRESS_CLAIM then m.claim.respondToClaimRequest.toList
      else if requested = PGN_PRODUCT_INFO then (m.productInfo env).toList
      else if requested = PGN_PGN_LIST then m.pgnLists
      else []

/-- From the first source of rates, and from no other. -/
def maybeEmitRates (m : Motion) (d : DecodedPgn F) : Motion × List RawFrame :=
  match m.claim.claimed?, scx6dofRates d.data with
  | some addr, some (roll, pitch, yaw) =>
      if d.src = addr ∨ headerManufacturer d.data ≠ some MFG_FURUNO then (m, [])
      else
        let m := { m with rateSource := some (m.rateSource.getD d.src) }
        if m.rateSource ≠ some d.src then (m, [])
        else
          (m, [{ timestamp := none, prio := PGN_BG_RATES_PRIO, pgn := PGN_BG_RATES, src := addr
                 dst := ADDR_GLOBAL, data := build130824Payload F roll pitch yaw }])
  | _, _ => (m, [])

/-- On its own clock, from the first call on. -/
def nowMs (m : Motion) (now : ℕ) : UInt64 := UInt64.ofNat ((now - m.base.getD now) / 1000000)

def begin (m : Motion) (now : ℕ) : Motion × List RawFrame :=
  let base := some (m.base.getD now)
  if m.started then ({ m with base }, [])
  else
    let (claim, frames) := m.claim.start (m.nowMs now)
    ({ m with claim, base, started := true }, frames)

/-- What the record says to the node. -/
def heed (m : Motion) (d : DecodedPgn F) (nowMs : UInt64) : Motion × List RawFrame :=
  if d.pgn = PGN_ISO_ADDRESS_CLAIM then
    match d.isoName with
    | some theirName =>
        let (claim, frames) := m.claim.onAddressClaim nowMs d.src theirName
        ({ m with claim }, frames)
    | none => (m, [])
  else if d.pgn = PGN_ISO_REQUEST then (m, m.handleRequest env d)
  else if d.pgn = PGN_SCX_6DOF then m.maybeEmitRates d
  else (m, [])

/-- The deadlines of the claim. A node introduces itself when it gets an address. -/
def settleDown (m : Motion) (wasClaimed : Bool) (nowMs : UInt64) : Motion × List RawFrame :=
  let (claim, frames) := m.claim.tick nowMs
  let m := { m with claim }
  (m, frames ++
    if !wasClaimed && m.claim.claimed?.isSome then (m.productInfo env).toList else [])

def process (m : Motion) (d : DecodedPgn F) (now : ℕ) (wall : UInt64) : Motion × List RawFrame :=
  let nowMs := m.nowMs now
  let (m, started) := m.begin now
  let wasClaimed := m.claim.claimed?.isSome
  let (m, answers) := m.heed env d nowMs
  let (m, moves) := m.settleDown env wasClaimed nowMs
  (m, stampFrames wall (started ++ answers ++ moves))

end Motion

/-! ## What the node says -/

/-- A frame of the bus, from the node's own address or from none. -/
structure FromNode (c : AddressClaim) (f : RawFrame) : Prop where
  pgn : f.pgn < CANBOAT_PGN_START
  src : f.src = ADDR_NULL ∨ c.Active ∧ f.src = c.address

namespace AddressClaim

variable {c : AddressClaim}

theorem claim_onBus : PGN_ISO_ADDRESS_CLAIM < CANBOAT_PGN_START := by decide

theorem active_of_claimed? {addr : UInt8} (h : c.claimed? = some addr) :
    c.Active ∧ addr = c.address := by
  rw [claimed?] at h
  split_ifs at h with hstate
  exact ⟨Or.inr hstate, (Option.some.inj h).symm⟩

theorem fromNode_claimed {addr : UInt8} (h : c.claimed? = some addr) {f : RawFrame}
    (hpgn : f.pgn < CANBOAT_PGN_START) (hsrc : f.src = addr) : FromNode c f := by
  obtain ⟨hactive, rfl⟩ := active_of_claimed? h
  exact ⟨hpgn, Or.inr ⟨hactive, hsrc⟩⟩

theorem Call.fromNode {res : AddressClaim × List RawFrame} (h : Call c res) :
    ∀ f ∈ res.2, FromNode res.1 f := by
  cases h with
  | quiet c' hname hpref hstate haddr => exact nofun
  | moved c' hname hpref hstate =>
      intro f hf
      rw [List.mem_singleton.mp hf]
      obtain ⟨hpending, -⟩ | ⟨-, hnull⟩ := hstate
      · exact ⟨claim_onBus, Or.inr ⟨Or.inl hpending, rfl⟩⟩
      · exact ⟨claim_onBus, Or.inl hnull⟩

theorem Call.preferred {res : AddressClaim × List RawFrame} (h : Call c res) :
    res.1.preferred = c.preferred := by
  cases h with
  | quiet c' hname hpref hstate haddr => exact hpref
  | moved c' hname hpref hstate => exact hpref

theorem fromNode_respond : ∀ f ∈ c.respondToClaimRequest.toList, FromNode c f := by
  intro f hf
  rw [Option.mem_toList, respondToClaimRequest] at hf
  split_ifs at hf with hactive
  cases hf
  exact ⟨claim_onBus, Or.inr ⟨hactive.symm, rfl⟩⟩

/-- A node that holds or is establishing an address keeps it over a tick. -/
theorem tick_of_active (hactive : c.Active) (now : UInt64) :
    (c.tick now).1.Active ∧ (c.tick now).1.address = c.address := by
  obtain hpending | hclaimed := hactive
  · rw [tick, hpending]
    dsimp only
    split_ifs
    · exact ⟨Or.inr rfl, rfl⟩
    · exact ⟨Or.inl hpending, rfl⟩
  · rw [tick, hclaimed]
    exact ⟨Or.inr hclaimed, rfl⟩

end AddressClaim

theorem FromNode.tick {c : AddressClaim} {f : RawFrame} (h : FromNode c f) (now : UInt64) :
    FromNode (c.tick now).1 f := by
  refine ⟨h.pgn, h.src.imp_right ?_⟩
  rintro ⟨hactive, hsrc⟩
  obtain ⟨hactive', haddr⟩ := AddressClaim.tick_of_active hactive now
  exact ⟨hactive', hsrc.trans haddr.symm⟩

namespace Motion

variable {env : DeviceEnv} {F : Type} [Float64 F] {m : Motion} {d : DecodedPgn F}

theorem fromNode_productInfo : ∀ f ∈ (m.productInfo env).toList, FromNode m.claim f := by
  intro f hf
  rw [Option.mem_toList, productInfo] at hf
  obtain ⟨addr, haddr, hframe⟩ := Option.bind_eq_some_iff.mp hf
  obtain ⟨b, -, rfl⟩ := Option.map_eq_some_iff.mp hframe
  have hpgn : PGN_PRODUCT_INFO < CANBOAT_PGN_START := by decide
  exact AddressClaim.fromNode_claimed haddr hpgn rfl

theorem fromNode_pgnLists : ∀ f ∈ m.pgnLists, FromNode m.claim f := by
  intro f hf
  rw [pgnLists] at hf
  split at hf
  next addr haddr =>
    obtain ⟨list, -, rfl⟩ := List.mem_map.mp hf
    have hpgn : PGN_PGN_LIST < CANBOAT_PGN_START := by decide
    exact AddressClaim.fromNode_claimed haddr hpgn rfl
  next => cases hf

theorem fromNode_handleRequest : ∀ f ∈ m.handleRequest env d, FromNode m.claim f := by
  rw [handleRequest]
  split
  · exact nofun
  · split_ifs
    · exact AddressClaim.fromNode_respond
    · exact fromNode_productInfo
    · exact fromNode_pgnLists
    · exact nofun
    · exact nofun

theorem maybeEmitRates_claim : (m.maybeEmitRates d).1.claim = m.claim := by
  rw [maybeEmitRates]
  split
  · dsimp only
    split_ifs <;> rfl
  · rfl

theorem fromNode_maybeEmitRates : ∀ f ∈ (m.maybeEmitRates d).2, FromNode m.claim f := by
  rw [maybeEmitRates]
  split
  next addr roll pitch yaw haddr hrates =>
    dsimp only
    split_ifs
    · exact nofun
    · exact nofun
    · intro f hf
      rw [List.mem_singleton.mp hf]
      have hpgn : PGN_BG_RATES < CANBOAT_PGN_START := by decide
      exact AddressClaim.fromNode_claimed haddr hpgn rfl
  next => exact nofun

theorem fromNode_heed (nowMs : UInt64) :
    ∀ f ∈ (m.heed env d nowMs).2, FromNode (m.heed env d nowMs).1.claim f := by
  rw [heed]
  split_ifs
  · split
    next theirName _ => exact (AddressClaim.onAddressClaim_call d.src theirName).fromNode
    next => exact nofun
  · exact fromNode_handleRequest
  · rw [maybeEmitRates_claim]
    exact fromNode_maybeEmitRates
  · exact nofun

theorem fromNode_begin (c : AddressClaim) (now : ℕ) : ∀ f ∈ (m.begin now).2, FromNode c f := by
  rw [begin]
  dsimp only
  split_ifs
  · rintro _ ⟨⟩
  · dsimp only
    rw [AddressClaim.start]
    split_ifs
    · rintro _ ⟨⟩
    · intro f hf
      rw [List.mem_singleton.mp hf]
      have hpgn : PGN_ISO_REQUEST < CANBOAT_PGN_START := by decide
      exact ⟨hpgn, Or.inl rfl⟩

theorem begin_started (hm : m.claim.Started) (now : ℕ) : (m.begin now).1.claim.Started := by
  rw [begin]
  dsimp only
  split_ifs
  · exact hm
  · dsimp only
    rw [AddressClaim.start, if_neg hm.enabled]
    refine ⟨ClaimState.noConfusion, ?_, by rintro ⟨⟩, hm.preferred⟩
    rintro (h | h) <;> cases h

variable (env) in
theorem heed_started (hm : m.claim.Started) (nowMs : UInt64) :
    (m.heed env d nowMs).1.claim.Started := by
  rw [heed]
  split_ifs
  · split
    next theirName _ => exact ((AddressClaim.onAddressClaim_call d.src theirName).keeps hm).1
    next => exact hm
  · exact hm
  · rw [maybeEmitRates_claim]
    exact hm
  · exact hm

theorem fromNode_settleDown (hm : m.claim.Started) (wasClaimed : Bool) (nowMs : UInt64) :
    ∀ f ∈ (m.settleDown env wasClaimed nowMs).2,
      FromNode (m.settleDown env wasClaimed nowMs).1.claim f := by
  intro f hf
  obtain hmove | hinfo := List.mem_append.mp hf
  · exact (AddressClaim.tick_call hm).fromNode f hmove
  · exact fromNode_productInfo f (List.mem_ite_nil_right.mp hinfo).2

theorem fromNode_stampFrames {c : AddressClaim} {wall : UInt64} {frames : List RawFrame}
    (h : ∀ f ∈ frames, FromNode c f) : ∀ f ∈ stampFrames wall frames, FromNode c f := by
  intro f hf
  obtain ⟨g, hg, rfl⟩ := List.mem_map.mp hf
  split_ifs
  · exact ⟨(h g hg).pgn, (h g hg).src⟩
  · exact h g hg

variable (env) in
/-- All that a call says comes from the address that the node has after it, or from none. -/
theorem fromNode_process (hm : m.claim.Started) (now : ℕ) (wall : UInt64) :
    ∀ f ∈ (m.process env d now wall).2, FromNode (m.process env d now wall).1.claim f := by
  have hbegun := m.begin_started hm now
  have hheard := heed_started env (d := d) hbegun (m.nowMs now)
  apply fromNode_stampFrames
  intro f hf
  obtain hf | hmove := List.mem_append.mp hf
  · obtain hstart | hanswer := List.mem_append.mp hf
    · exact fromNode_begin _ now f hstart
    · exact (fromNode_heed _ f hanswer).tick _
  · exact fromNode_settleDown hheard _ _ f hmove

end Motion

/-! ## Away from address zero -/

namespace AddressClaim

variable {c : AddressClaim} {now : UInt64}

theorem settle_address_ne_zero {next : Option UInt8} (h : next ≠ some 0) :
    (c.settle now next).1.address ≠ 0 := by
  cases next with
  | none =>
      have hnull : ADDR_NULL ≠ 0 := by decide
      exact hnull
  | some a => exact fun ha => h (congrArg some ha)

theorem settle_state_ne (c : AddressClaim) (next : Option UInt8) :
    (c.settle now next).1.state ≠ .Scanning := by
  cases next <;> exact ClaimState.noConfusion

theorem pickFree_ne_zero (h : c.used 0 = true) : c.pickFree ≠ some 0 := by
  intro hpick
  rw [(pickFree_spec hpick).2] at h
  cases h

theorem markUsed_used {src a : UInt8} (h : c.used a = true ∨ src = a) :
    (c.markUsed src).used a = true := by
  by_cases hsrc : src = a
  · subst hsrc
    exact Function.update_self ..
  · exact (Function.update_of_ne (Ne.symm hsrc) _ _).trans (h.resolve_right hsrc)

/-- Only a node that holds an address, or holds out for one, has it contested. -/
theorem active_of_contested (hc : c.Started) {src : UInt8}
    (hout : ¬src > ADDR_MAX ∧ c.state ≠ .Disabled) (hscanning : c.state ≠ .Scanning)
    (hsrc : src = c.address) : c.Active := by
  cases hstate : c.state with
  | Disabled => exact absurd hstate hout.2
  | Scanning => exact absurd hstate hscanning
  | Pending => exact Or.inl hstate
  | Claimed => exact Or.inr hstate
  | Failed =>
      rw [hsrc, hc.failed hstate] at hout
      exact absurd (by decide) hout.1

theorem onAddressClaim_address_ne_zero (hc : c.Started) (haddr : c.address ≠ 0) {src : UInt8}
    {theirName : UInt64}
    (hzero : c.Active → src = c.address → theirName < c.name → c.used 0 = true) :
    (c.onAddressClaim now src theirName).1.address ≠ 0 := by
  rw [onAddressClaim]
  split_ifs with hout hself hother hdefend
  · exact haddr
  · exact haddr
  · exact haddr
  · exact haddr
  · rw [not_or] at hout hother
    obtain ⟨hscanning, hsrc⟩ := hother
    have hsrc := not_not.mp hsrc
    have hactive := active_of_contested hc hout hscanning hsrc
    have hlower : theirName < c.name :=
      UInt64.lt_of_le_of_ne (UInt64.not_lt.mp hdefend) hself
    apply settle_address_ne_zero
    split_ifs
    · exact pickFree_ne_zero (markUsed_used (Or.inl (hzero hactive hsrc hlower)))
    · rintro ⟨⟩

/-- A scanning node only takes note. -/
theorem onAddressClaim_scanning {src : UInt8} {theirName : UInt64}
    (h : (c.onAddressClaim now src theirName).1.state = .Scanning) :
    c.state = .Scanning ∧ (c.onAddressClaim now src theirName).1.deadline = c.deadline ∧
      (c.onAddressClaim now src theirName).1.preferred = c.preferred ∧
      ∀ a, (c.onAddressClaim now src theirName).1.used a = true ↔
        c.used a = true ∨ src ≤ ADDR_MAX ∧ theirName ≠ c.name ∧ src = a := by
  rw [onAddressClaim] at h ⊢
  split_ifs at h ⊢ with hout hself hother hdefend
  · refine ⟨h, rfl, rfl, fun a => (or_iff_left ?_).symm⟩
    rintro ⟨hmax, -⟩
    obtain hout | hout := hout
    · exact UInt8.not_le.mpr hout hmax
    · cases hout.symm.trans h
  · exact ⟨h, rfl, rfl, fun a => (or_iff_left fun hheard => hheard.2.1 hself).symm⟩
  · refine ⟨h, rfl, rfl, fun a => ⟨fun hused => ?_, fun hused => ?_⟩⟩
    · by_cases hsrc : src = a
      · exact Or.inr ⟨UInt8.not_lt.mp (not_or.mp hout).1, hself, hsrc⟩
      · rw [← Function.update_of_ne (Ne.symm hsrc) true c.used]
        exact Or.inl hused
    · exact markUsed_used (hused.imp_right fun hheard => hheard.2.2)
  · exact absurd h (settle_state_ne _ _)

theorem tick_address_ne_zero (haddr : c.address ≠ 0) (hpref : c.preferred ≠ 0)
    (hzero : c.state = .Scanning → c.deadline ≤ now → c.used c.preferred = true →
      c.used 0 = true) : (c.tick now).1.address ≠ 0 := by
  rw [tick]
  split
  next hstate =>
    split_ifs with hdue
    · apply settle_address_ne_zero
      split_ifs with hused
      · exact pickFree_ne_zero (hzero hstate hdue hused)
      · exact fun h => hpref (Option.some.inj h)
    · exact haddr
  next => split_ifs <;> exact haddr
  next => exact haddr

end AddressClaim

namespace Motion

variable {env : DeviceEnv} {F : Type} [Float64 F]

/-- The record is another node's claim of the address. -/
def Hears (m : Motion) (d : DecodedPgn F) (a : UInt8) : Prop :=
  d.src = a ∧ ∃ theirName, d.isoName = some theirName ∧ theirName ≠ m.claim.name

/-- The record leaves the node without the address that it holds, or holds out for. -/
def MustPick (m : Motion) (d : DecodedPgn F) (nowMs : UInt64) : Prop :=
  m.started = true ∧
    (m.claim.state = .Scanning ∧ m.claim.deadline ≤ nowMs ∧
        (m.claim.used m.claim.preferred = true ∨ m.Hears d m.claim.preferred) ∨
      m.claim.Active ∧ d.src = m.claim.address ∧
        ∃ theirName, d.isoName = some theirName ∧ theirName < m.claim.name)

/-- The node looks for an address only when it knows that zero is taken. -/
def KnowsZero (m : Motion) (d : DecodedPgn F) (nowMs : UInt64) : Prop :=
  m.MustPick d nowMs → m.claim.used 0 = true ∨ m.Hears d 0

/-- The node is not at address zero, and does not want to be. -/
structure Apart (m : Motion) : Prop where
  claim : m.claim.Started
  address : m.claim.address ≠ 0
  preferred : m.claim.preferred ≠ 0
  fresh : m.started = false → m.base = none

theorem new_apart (machineId : UInt32) : (new machineId).Apart := by
  have hmax : PREFERRED_ADDRESS ≤ ADDR_MAX := by decide
  have hzero : PREFERRED_ADDRESS ≠ 0 := by decide
  exact ⟨⟨nofun, fun _ => hmax, nofun, hmax⟩, hzero, hzero, fun _ => rfl⟩

theorem begin_on (m : Motion) (now : ℕ) : (m.begin now).1.started = true := by
  rw [begin]
  dsimp only
  split_ifs with hstarted
  · exact hstarted
  · rfl

theorem begin_apart {m : Motion} (hm : m.Apart) (now : ℕ) : (m.begin now).1.Apart := by
  refine ⟨begin_started hm.claim now, ?_, ?_, ?_⟩
  all_goals
    rw [begin, AddressClaim.start, if_neg hm.claim.enabled]
    dsimp only
    split_ifs with hstarted
  · exact hm.address
  · exact hm.address
  · exact hm.preferred
  · exact hm.preferred
  · exact fun h => absurd (hstarted.symm.trans h) (by decide)
  · rintro ⟨⟩

/-- A record moves the claim exactly by the NAME that it announces. -/
theorem heed_claim {m : Motion} {d : DecodedPgn F} {nowMs : UInt64} :
    (m.heed env d nowMs).1.claim =
      match d.isoName with
      | some theirName => (m.claim.onAddressClaim nowMs d.src theirName).1
      | none => m.claim := by
  rw [heed]
  split_ifs with hclaim
  · cases d.isoName <;> rfl
  all_goals
    have hnone : d.isoName = none := if_pos hclaim
    rw [hnone]
  exact maybeEmitRates_claim

variable (env) in
theorem heed_rest {m : Motion} {d : DecodedPgn F} (nowMs : UInt64) :
    (m.heed env d nowMs).1.started = m.started ∧ (m.heed env d nowMs).1.base = m.base := by
  rw [heed]
  split_ifs
  · split <;> exact ⟨rfl, rfl⟩
  · exact ⟨rfl, rfl⟩
  · rw [maybeEmitRates]
    split
    · dsimp only
      split_ifs <;> exact ⟨rfl, rfl⟩
    · exact ⟨rfl, rfl⟩
  · exact ⟨rfl, rfl⟩

/-- Beginning changes nothing for a node that has begun. Else it scans, for longer than now. -/
theorem begin_cases {m : Motion} (hm : m.Apart) (now : ℕ) :
    m.started = true ∧ (m.begin now).1.claim = m.claim ∨
      (m.begin now).1.claim.state = .Scanning ∧
        ¬(m.begin now).1.claim.deadline ≤ m.nowMs now := by
  rw [begin, AddressClaim.start, if_neg hm.claim.enabled]
  dsimp only
  split_ifs with hstarted
  · exact Or.inl ⟨hstarted, rfl⟩
  · refine Or.inr ⟨rfl, ?_⟩
    have hbase := hm.fresh (Bool.eq_false_of_not_eq_true hstarted)
    have hnow : m.nowMs now = 0 := by
      rw [nowMs, hbase, Option.getD_none, Nat.sub_self]
      rfl
    have hlater : ¬(0 : UInt64) + SCAN_TIMEOUT_MS ≤ 0 := by decide
    rw [hnow]
    exact hlater

variable (env) in
theorem heed_apart {m : Motion} (hm : m.Apart) {d : DecodedPgn F} {nowMs : UInt64}
    (hlost : m.claim.Active → d.src = m.claim.address →
      ∀ theirName, d.isoName = some theirName → theirName < m.claim.name →
        m.claim.used 0 = true) :
    (m.heed env d nowMs).1.claim.address ≠ 0 ∧ (m.heed env d nowMs).1.claim.preferred ≠ 0 := by
  rw [heed_claim]
  cases hname : d.isoName with
  | none => exact ⟨hm.address, hm.preferred⟩
  | some theirName =>
      refine ⟨AddressClaim.onAddressClaim_address_ne_zero hm.claim hm.address ?_, ?_⟩
      · exact fun hactive hsrc => hlost hactive hsrc theirName hname
      · have hcall : AddressClaim.Call _ (m.claim.onAddressClaim nowMs d.src theirName) :=
          AddressClaim.onAddressClaim_call d.src theirName
        exact fun h => hm.preferred (hcall.preferred.symm.trans h)

variable (env) in
theorem heed_scanning {m : Motion} {d : DecodedPgn F} (nowMs : UInt64)
    (hscanning : (m.heed env d nowMs).1.claim.state = .Scanning) :
    m.claim.state = .Scanning ∧
      (m.heed env d nowMs).1.claim.deadline = m.claim.deadline ∧
      (m.heed env d nowMs).1.claim.preferred = m.claim.preferred ∧
      ∀ a ≤ ADDR_MAX, (m.heed env d nowMs).1.claim.used a = true ↔
        m.claim.used a = true ∨ m.Hears d a := by
  rw [heed_claim] at hscanning ⊢
  cases hname : d.isoName with
  | none =>
      rw [hname] at hscanning
      refine ⟨hscanning, rfl, rfl, fun a _ => (or_iff_left ?_).symm⟩
      rintro ⟨-, theirName, hsome, -⟩
      cases hname.symm.trans hsome
  | some theirName =>
      rw [hname] at hscanning
      obtain ⟨hstate, hdeadline, hpref, hused⟩ :=
        AddressClaim.onAddressClaim_scanning hscanning
      refine ⟨hstate, hdeadline, hpref, fun a ha => (hused a).trans (or_congr_right ?_)⟩
      constructor
      · rintro ⟨-, hother, hsrc⟩
        exact ⟨hsrc, theirName, hname, hother⟩
      · rintro ⟨rfl, other, hsome, hother⟩
        obtain rfl := Option.some.inj (hname.symm.trans hsome)
        exact ⟨ha, hother, rfl⟩

variable (env) in
/-- **Staying apart.** A node that knows zero to be taken whenever it looks for an address does
not come to it. -/
theorem process_apart {m : Motion} (hm : m.Apart) {d : DecodedPgn F} {now : ℕ}
    (hzero : m.KnowsZero d (m.nowMs now)) (wall : UInt64) :
    (m.process env d now wall).1.Apart := by
  have hbegun := begin_apart hm now
  have hcases := begin_cases hm now
  have hon := begin_on m now
  rw [process]
  dsimp only
  generalize m.nowMs now = nowMs at hzero hcases ⊢
  generalize (m.begin now).1 = begun at hbegun hcases hon ⊢
  -- an address can be lost only after the first call
  have hlost (hactive : begun.claim.Active) (hsrc : d.src = begun.claim.address) (theirName)
      (hname : d.isoName = some theirName) (hlower : theirName < begun.claim.name) :
      begun.claim.used 0 = true := by
    obtain ⟨hstarted, hsame⟩ | ⟨hscanning, -⟩ := hcases
    · rw [hsame] at hactive hsrc hlower ⊢
      obtain hused | hhears := hzero ⟨hstarted, Or.inr ⟨hactive, hsrc, theirName, hname, hlower⟩⟩
      · exact hused
      · exact absurd (hsrc.symm.trans hhears.1) hm.address
    · rcases hactive with h | h <;> cases hscanning.symm.trans h
  have hstarted := heed_started env (d := d) hbegun.claim nowMs
  obtain ⟨haddr, hpref⟩ := heed_apart env hbegun hlost
  have hscanning := heed_scanning env (m := begun) (d := d) nowMs
  have hrest := heed_rest env (m := begun) (d := d) nowMs
  generalize (begun.heed env d nowMs).1 = heard at hstarted haddr hpref hscanning hrest ⊢
  have htick : AddressClaim.Call _ (heard.claim.tick nowMs) := AddressClaim.tick_call hstarted
  refine ⟨(htick.keeps hstarted).1, ?_, fun h => hpref (htick.preferred.symm.trans h), ?_⟩
  · apply AddressClaim.tick_address_ne_zero haddr hpref
    intro hstate hdue hused
    obtain ⟨hbegunState, hdeadline, hprefSame, hmarks⟩ := hscanning hstate
    rw [hdeadline] at hdue
    rw [hprefSame, hmarks _ hbegun.claim.preferred] at hused
    rw [hmarks 0 (by decide)]
    obtain ⟨hstarted, hsame⟩ | ⟨-, hlater⟩ := hcases
    · rw [Hears, hsame] at hused ⊢
      rw [hsame] at hbegunState hdue
      exact hzero ⟨hstarted, Or.inl ⟨hbegunState, hdue, hused⟩⟩
    · exact absurd hdue hlater
  · intro hnot
    have hstill : heard.started = true := hrest.1.trans hon
    exact absurd (hstill.symm.trans hnot) (by decide)

end Motion

end Canboat
