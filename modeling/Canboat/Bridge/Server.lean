import Canboat.Bridge.Motion
import Canboat.Io.Drivers

/-!
# The server on a bus of its own

The gateway's worker and the pipeline, with the motion quirk in it. The worker hands messages and
echoes to the pipeline. What the quirk makes of them goes back to the worker as commands, and to
the pipeline itself, which takes them before all else.

SocketCAN hands whole messages over, so the pipeline reassembles nothing. Commands of other
parties are actions of the worker here. The pipeline's outputs are left out.
-/

namespace Canboat

def CLAIM_UNCLAIMED : UInt8 := 254

structure ServerEnv (F : Type) where
  device : DeviceEnv
  db : PgnDatabase F

structure Server where
  node : NmeaNode
  /-- The address that the worker last published. -/
  claimAddr : UInt8
  /-- From the worker to the pipeline. -/
  frames : List RawFrame
  /-- From the quirk to the worker. -/
  commands : List RawFrame
  motion : Motion
  /-- From the quirk to the pipeline. -/
  pendingSynth : List RawFrame

/-- What either thread does next. -/
inductive ServerAction
  | worker (action : NmeaAction)
  | publish
  | dispatch
  /-- With the times that the quirk sees. -/
  | pipeline (now : ℕ) (wall : UInt64)

namespace Server

variable {F : Type} [Float64 F] (env : ServerEnv F)

/-- The worker has started the claim. -/
def new (device : NmeaDevice) (machineId : UInt32) (now : UInt64) : Server :=
  let (node, frames) := (NmeaNode.new device).step env.device (.start now)
  { node, claimAddr := CLAIM_UNCLAIMED, frames, commands := [], motion := .new machineId,
    pendingSynth := [] }

/-- What the pipeline works on next, and the server without it. -/
def nextFrame (s : Server) : Option (RawFrame × Server) :=
  match s.pendingSynth, s.frames with
  | f :: pendingSynth, _ => some (f, { s with pendingSynth })
  | [], f :: frames => some (f, { s with frames })
  | [], [] => none

/-- The published address, if it is one of a node. -/
def ownAddr (s : Server) : Option UInt8 :=
  if s.claimAddr ≠ ADDR_GLOBAL ∧ s.claimAddr ≠ ADDR_NULL then some s.claimAddr else none

/-- Sources 0 and 255 stand for canboat's own node. -/
def stampSource (s : Server) (f : RawFrame) : RawFrame :=
  match s.ownAddr with
  | some addr => if f.src = 0 ∨ f.src = ADDR_GLOBAL then { f with src := addr } else f
  | none => f

def pipelineStep (s : Server) (now : ℕ) (wall : UInt64) : Server :=
  match s.nextFrame with
  | none => s
  | some (f, s) =>
      match env.db.decode? f with
      | none => s
      | some d =>
          let (motion, synths) := s.motion.process env.device d now wall
          let stamped := synths.map s.stampSource
          { s with motion, commands := s.commands ++ stamped
                   pendingSynth := s.pendingSynth ++ stamped }

def step (s : Server) : ServerAction → Server
  | .worker action =>
      let (node, out) := s.node.step env.device action
      { s with node, frames := s.frames ++ out }
  | .publish => { s with claimAddr := s.node.device.claim.claimed?.getD CLAIM_UNCLAIMED }
  | .dispatch =>
      match s.commands with
      | [] => s
      | f :: commands =>
          let (node, out) := s.node.step env.device (.dispatchCmd (.frame f))
          { s with node, commands, frames := s.frames ++ out }
  | .pipeline now wall => s.pipelineStep env now wall

/-! ## The identity of the quirk's node -/

/-- The send of a frame from the source that it names. -/
def sendOf (f : RawFrame) : SendPgn := ⟨f.prio, f.pgn, f.src, f.dst, f.data, false⟩

/-- What the quirk says comes from its own address or from none. It goes to both queues as it is,
and from there to the interface under the same source. -/
def Faithful (s : Server) : ServerAction → Prop
  | .pipeline now wall => ∀ f s' d, s.nextFrame = some (f, s') → env.db.decode? f = some d →
      (∀ g ∈ (s'.motion.process env.device d now wall).2,
          g.src = ADDR_NULL ∨
            (s'.motion.process env.device d now wall).1.claim.Active ∧
              g.src = (s'.motion.process env.device d now wall).1.claim.address) ∧
        (s.step env (.pipeline now wall)).commands =
          s.commands ++ (s'.motion.process env.device d now wall).2 ∧
        (s.step env (.pipeline now wall)).pendingSynth =
          s'.pendingSynth ++ (s'.motion.process env.device d now wall).2
  | .dispatch => ∀ f commands, s.commands = f :: commands →
      s.node.tx.Gains env.device.packetType (sendOf f) (s.step env .dispatch).node.tx
  | _ => True

/-- The quirk's node looks for an address only when it knows that zero is taken, and the interface
has room for what the node says. -/
def KeepsRoom (s : Server) : ServerAction → Prop
  | .pipeline now _ => ∀ f s' d, s.nextFrame = some (f, s') → env.db.decode? f = some d →
      s.motion.KnowsZero d (s.motion.nowMs now)
  | .dispatch => ∀ f commands, s.commands = f :: commands →
      s.node.tx.Fits env.device.packetType (sendOf f)
  | _ => True

/-- The quirk's node is no stand-in for canboat's own. -/
structure Distinct (s : Server) : Prop where
  motion : s.motion.Apart
  commands : ∀ f ∈ s.commands, f.pgn < CANBOAT_PGN_START ∧ f.src ≠ 0 ∧ f.src ≠ ADDR_GLOBAL

variable {env} {s : Server}

theorem src_of_fromNode {m : Motion} (hm : m.Apart) {f : RawFrame} (hf : FromNode m.claim f) :
    f.src ≠ 0 ∧ f.src ≠ ADDR_GLOBAL := by
  obtain hnull | ⟨hactive, hsrc⟩ := hf.src
  · rw [hnull]
    decide
  · rw [hsrc]
    refine ⟨hm.address, fun hglobal => ?_⟩
    have hmax := hm.claim.active hactive
    rw [hglobal] at hmax
    exact absurd hmax (by decide)

theorem stampSource_of_distinct {f : RawFrame} (hf : f.src ≠ 0 ∧ f.src ≠ ADDR_GLOBAL) :
    s.stampSource f = f := by
  rw [stampSource]
  split
  · exact if_neg (not_or.mpr hf)
  · rfl

theorem nextFrame_rest {f : RawFrame} {s' : Server} (h : s.nextFrame = some (f, s')) :
    s'.motion = s.motion ∧ s'.commands = s.commands ∧ s'.node = s.node := by
  rw [nextFrame] at h
  split at h
  · cases h
    exact ⟨rfl, rfl, rfl⟩
  · cases h
    exact ⟨rfl, rfl, rfl⟩
  · cases h

theorem step_pipeline {f : RawFrame} {s' : Server} {d : DecodedPgn F}
    (hnext : s.nextFrame = some (f, s')) (hd : env.db.decode? f = some d) (now : ℕ)
    (wall : UInt64) :
    s.step env (.pipeline now wall) =
      { s' with
        motion := (s'.motion.process env.device d now wall).1
        commands := s'.commands ++
          (s'.motion.process env.device d now wall).2.map s'.stampSource
        pendingSynth := s'.pendingSynth ++
          (s'.motion.process env.device d now wall).2.map s'.stampSource } := by
  rw [step, pipelineStep, hnext]
  dsimp only
  rw [hd]

variable (env) in
theorem step_dispatch {f : RawFrame} {commands : List RawFrame}
    (hcommands : s.commands = f :: commands) (hpgn : f.pgn < CANBOAT_PGN_START)
    (hsrc : f.src ≠ 0 ∧ f.src ≠ ADDR_GLOBAL) :
    (s.step env .dispatch).node.tx =
        (s.node.tx.sendPgn env.device.packetType (sendOf f) "").1 ∧
      (s.step env .dispatch).commands = commands ∧ (s.step env .dispatch).motion = s.motion := by
  have hsend : s.node.dispatchCmd (.frame f) = [.send (sendOf f)] := by
    rw [NmeaNode.dispatchCmd, if_neg (UInt32.not_le.mpr hpgn), if_neg (not_or.mpr hsrc)]
    rfl
  rw [step, hcommands]
  refine ⟨?_, rfl, rfl⟩
  dsimp only [NmeaNode.step, NmeaNode.act]
  rw [hsend]
  rfl

/-- What the quirk says passes the stamping as it is. -/
theorem process_unstamped (h : s.Distinct) {f : RawFrame} {s' : Server} {d : DecodedPgn F}
    (hnext : s.nextFrame = some (f, s')) (hd : env.db.decode? f = some d) {now : ℕ} {wall : UInt64}
    (hroom : s.KeepsRoom env (.pipeline now wall)) :
    (s'.motion.process env.device d now wall).1.Apart ∧
      (∀ g ∈ (s'.motion.process env.device d now wall).2,
        FromNode (s'.motion.process env.device d now wall).1.claim g) ∧
      (s'.motion.process env.device d now wall).2.map s'.stampSource =
        (s'.motion.process env.device d now wall).2 := by
  obtain ⟨hmotion, -, -⟩ := nextFrame_rest hnext
  rw [hmotion]
  have hapart := Motion.process_apart env.device h.motion (hroom f s' d hnext hd) wall
  have hfrom := Motion.fromNode_process env.device (d := d) h.motion.claim now wall
  refine ⟨hapart, hfrom, ?_⟩
  rw [List.map_congr_left fun g hg => stampSource_of_distinct (src_of_fromNode hapart (hfrom g hg))]
  exact List.map_id' _

omit [Float64 F] in
theorem distinct_new (device : NmeaDevice) (machineId : UInt32) (now : UInt64) :
    (new env device machineId now).Distinct :=
  ⟨Motion.new_apart machineId, nofun⟩

/-- One step keeps the quirk's node apart. -/
theorem distinct_step (h : s.Distinct) {action : ServerAction} (hroom : s.KeepsRoom env action) :
    (s.step env action).Distinct := by
  cases action with
  | worker action => exact ⟨h.motion, h.commands⟩
  | publish => exact ⟨h.motion, h.commands⟩
  | dispatch =>
      cases hcommands : s.commands with
      | nil =>
          rw [step, hcommands]
          exact h
      | cons f commands =>
          have hf := h.commands f (hcommands ▸ List.mem_cons_self)
          obtain ⟨-, hrest, hmotion⟩ := step_dispatch env hcommands hf.1 hf.2
          refine ⟨hmotion ▸ h.motion, fun g hg => h.commands g ?_⟩
          rw [hcommands]
          rw [hrest] at hg
          exact List.mem_cons_of_mem f hg
  | pipeline now wall =>
      cases hnext : s.nextFrame with
      | none =>
          rw [step, pipelineStep, hnext]
          exact h
      | some out =>
          obtain ⟨f, s'⟩ := out
          obtain ⟨hmotion, hcommands, -⟩ := nextFrame_rest hnext
          cases hd : env.db.decode? f with
          | none =>
              rw [step, pipelineStep, hnext]
              dsimp only
              rw [hd]
              exact ⟨hmotion ▸ h.motion, hcommands ▸ h.commands⟩
          | some d =>
              obtain ⟨hapart, hfrom, hsame⟩ := process_unstamped h hnext hd hroom
              rw [step_pipeline hnext hd, hsame]
              refine ⟨hapart, fun g hg => ?_⟩
              obtain hold | hnew := List.mem_append.mp hg
              · exact h.commands g (hcommands ▸ hold)
              · exact ⟨(hfrom g hnew).pgn, src_of_fromNode hapart (hfrom g hnew)⟩

theorem faithful_step (h : s.Distinct) {action : ServerAction} (hroom : s.KeepsRoom env action) :
    s.Faithful env action := by
  cases action with
  | worker action => trivial
  | publish => trivial
  | dispatch =>
      intro f commands hcommands
      have hf := h.commands f (hcommands ▸ List.mem_cons_self)
      rw [(step_dispatch env hcommands hf.1 hf.2).1]
      exact TxBuffer.sendPgn_gains _ _ (hroom f commands hcommands)
  | pipeline now wall =>
      intro f s' d hnext hd
      obtain ⟨-, hcommands, -⟩ := nextFrame_rest hnext
      obtain ⟨-, hfrom, hsame⟩ := process_unstamped h hnext hd hroom
      rw [step_pipeline hnext hd, hsame]
      exact ⟨fun g hg => (hfrom g hg).src, by rw [hcommands], rfl⟩

/-- **The quirk's node keeps its identity.** -/
theorem keeps_identity (env : ServerEnv F) (device : NmeaDevice) (machineId : UInt32)
    (now : UInt64) (actions : List ServerAction)
    (hroom : Along (step env) (KeepsRoom env) (new env device machineId now) actions) :
    Along (step env) (Faithful env) (new env device machineId now) actions :=
  Along.of_step (fun _ _ h hroom => faithful_step h hroom)
    (fun _ _ h hroom => distinct_step h hroom) (distinct_new device machineId now) hroom

variable (env) in
/-- What the quirk says to the record that comes next. -/
def said (s : Server) (now : ℕ) (wall : UInt64) : List RawFrame :=
  match s.nextFrame with
  | none => []
  | some (f, s) =>
      match env.db.decode? f with
      | none => []
      | some d => (s.motion.process env.device d now wall).2

theorem commands_of_faithful {now : ℕ} {wall : UInt64}
    (h : s.Faithful env (.pipeline now wall)) :
    (s.step env (.pipeline now wall)).commands = s.commands ++ s.said env now wall := by
  rw [said]
  cases hnext : s.nextFrame with
  | none =>
      rw [step, pipelineStep, hnext]
      exact (List.append_nil _).symm
  | some out =>
      obtain ⟨f, s'⟩ := out
      cases hd : env.db.decode? f with
      | none =>
          rw [step, pipelineStep, hnext]
          dsimp only
          rw [hd]
          exact (nextFrame_rest hnext).2.1.trans (List.append_nil _).symm
      | some d =>
          dsimp only
          rw [hd]
          exact (h f s' d hnext hd).2.1

end Server

/-! ## A neighbour at the preferred address -/

def loneClaims : ServerEnv Binary64 where
  device := ⟨fun _ => .Single, fun _ => none, ""⟩
  db := claimDatabase

/-- A claim on the bus, of a node with this NAME. -/
def busClaim (now : UInt64) (src name : UInt8) : ServerAction :=
  .worker (.handleFrame now (iso11783Compose 6 PGN_ISO_ADDRESS_CLAIM src ADDR_GLOBAL)
    [name, 0, 0, 0, 0, 0, 0, 0x80] now)

/-- Canboat claims address 100. Meanwhile the quirk starts, and hears another node claim 24. -/
def crowdedBus : List ServerAction :=
  [.pipeline 0 0, busClaim 0 24 5, .pipeline 0 0, .worker (.tick 1000 1000 ⟨none, none, none⟩),
    .worker (.tick 1250 1250 ⟨none, none, none⟩), .publish, .pipeline 0 0, .pipeline 0 0,
    busClaim 1300 30 6]

def crowdedServer : Server := .new loneClaims (.new (.new 1 100 true) 0 "" 0 250000) 0 0

/-- One second later the quirk's node claims the lowest free address, zero, and the claim leaves
from address 100. -/
theorem Server.not_keeps_identity : ¬∀ (env : ServerEnv Binary64) (device : NmeaDevice)
    (machineId : UInt32) (now : UInt64) (actions : List ServerAction),
    Along (step env) (Faithful env) (new env device machineId now) actions := by
  intro h
  have hlast := h loneClaims (.new (.new 1 100 true) 0 "" 0 250000) 0 0
    (crowdedBus ++ [.pipeline 1000000000 0]) crowdedBus _ [] rfl
  have hsources := congrArg (List.map RawFrame.src) (commands_of_faithful hlast)
  revert hsources
  decide +kernel

/-- The start of the quirk's node, up to its request on the interface. -/
theorem Server.keeps_identity_start :
    Along (step loneClaims) (KeepsRoom loneClaims) crowdedServer
        [busClaim 0 24 5, .pipeline 0 0, .pipeline 0 0, .dispatch] ∧
      Along (step loneClaims) (Faithful loneClaims) crowdedServer
        [busClaim 0 24 5, .pipeline 0 0, .pipeline 0 0, .dispatch] := by
  have hstarted (s : Server) (now : ℕ) (wall : UInt64) (h : s.motion.started = false) :
      s.KeepsRoom loneClaims (.pipeline now wall) := by
    intro f s' d _ _ hpick
    exact absurd (h.symm.trans hpick.1) (by decide)
  have hroom : Along (step loneClaims) (KeepsRoom loneClaims) crowdedServer
      [busClaim 0 24 5, .pipeline 0 0, .pipeline 0 0, .dispatch] := by
    rw [Along.cons_iff, Along.cons_iff, Along.cons_iff, Along.cons_iff]
    refine ⟨trivial, hstarted _ _ _ (by decide +kernel), hstarted _ _ _ (by decide +kernel), ?_, .nil⟩
    intro f commands hcommands
    generalize hs : Server.step loneClaims _ _ = s at hcommands ⊢
    have hshort : (∀ f ∈ s.commands, f.data.length ≤ 8) ∧
        s.node.tx.queue.length < TX_BUFFER_CAPACITY := by
      rw [← hs]
      decide +kernel
    exact ⟨hshort.1 f (hcommands ▸ List.mem_cons_self), hshort.2⟩
  exact ⟨hroom, keeps_identity loneClaims _ 0 0 _ hroom⟩

end Canboat
