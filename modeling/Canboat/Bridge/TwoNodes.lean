import Canboat.Bridge.Server

/-!
# Two nodes on one interface

The gateway's worker and the quirk's node each claim an address. The node hears the gateway's
claims, because the worker hands them to the pipeline; the worker hears none of the node's. So it
is the node that has to give way when both are after one address.
-/

namespace Canboat

/-! ## Addresses in use -/

namespace AddressClaim

variable {c : AddressClaim} {now : UInt64}

/-- An address that the node holds, or holds out for, is not one of another's. -/
def Settled (c : AddressClaim) : Prop := c.Active → c.used c.address = false

/-- The node keeps its address, or announces the one that it has now. -/
structure Announced (c : AddressClaim) (out : AddressClaim × List RawFrame) : Prop where
  name : out.1.name = c.name
  address : out.1.Active →
    c.Active ∧ out.1.address = c.address ∨ out.1.claimFrame ∈ out.2

theorem settle_announced (next : Option UInt8) : Announced c (c.settle now next) := by
  cases next with
  | some a => exact ⟨rfl, fun _ => Or.inr List.mem_cons_self⟩
  | none => exact ⟨rfl, fun _ => Or.inr List.mem_cons_self⟩

theorem start_announced : Announced c (c.start now) := by
  rw [start]
  split_ifs
  · exact ⟨rfl, fun h => Or.inl ⟨h, rfl⟩⟩
  · refine ⟨rfl, ?_⟩
    rintro (h | h) <;> cases h

theorem onAddressClaim_announced (src : UInt8) (theirName : UInt64) :
    Announced c (c.onAddressClaim now src theirName) := by
  rw [onAddressClaim]
  split_ifs
  · exact ⟨rfl, fun h => Or.inl ⟨h, rfl⟩⟩
  · exact ⟨rfl, fun h => Or.inl ⟨h, rfl⟩⟩
  · exact ⟨rfl, fun h => Or.inl ⟨h, rfl⟩⟩
  · exact ⟨rfl, fun _ => Or.inr List.mem_cons_self⟩
  · have hsettle : Announced (c.markUsed src) ((c.markUsed src).settle now
        (if (c.markUsed src).arbitrary then (c.markUsed src).pickFree else none)) :=
      settle_announced _
    exact ⟨hsettle.name, fun h => hsettle.address h⟩

theorem tick_announced : Announced c (c.tick now) := by
  rw [tick]
  split
  · split_ifs
    · exact settle_announced _
    · exact ⟨rfl, fun h => Or.inl ⟨h, rfl⟩⟩
  next hpending =>
    split_ifs
    · exact ⟨rfl, fun _ => Or.inl ⟨Or.inl hpending, rfl⟩⟩
    · exact ⟨rfl, fun h => Or.inl ⟨h, rfl⟩⟩
  · exact ⟨rfl, fun h => Or.inl ⟨h, rfl⟩⟩

theorem settle_used (next : Option UInt8) : (c.settle now next).1.used = c.used := by
  cases next <;> rfl

theorem tick_used : (c.tick now).1.used = c.used := by
  rw [tick]
  split
  · split_ifs
    · exact settle_used _
    · rfl
  · split_ifs <;> rfl
  · rfl

theorem onAddressClaim_used {src a : UInt8} {theirName : UInt64} (h : c.used a = true) :
    (c.onAddressClaim now src theirName).1.used a = true := by
  rw [onAddressClaim]
  split_ifs
  · exact h
  · exact h
  · exact markUsed_used (Or.inl h)
  · exact h
  · dsimp only
    rw [settle_used]
    exact markUsed_used (Or.inl h)

/-- A foreign claim is noted, unless the node holds out against it. -/
theorem onAddressClaim_marks {src : UInt8} {theirName : UInt64} (henabled : c.state ≠ .Disabled)
    (hmax : src ≤ ADDR_MAX) (hother : theirName ≠ c.name)
    (hyields : c.state ≠ .Scanning → src = c.address → theirName < c.name) :
    (c.onAddressClaim now src theirName).1.used src = true := by
  rw [onAddressClaim]
  split_ifs with hout hlisten hdefend
  · obtain hout | hout := hout
    · exact absurd hmax (UInt8.not_le.mpr hout)
    · exact absurd hout henabled
  · exact markUsed_used (Or.inr rfl)
  · obtain ⟨hscanning, hsrc⟩ := not_or.mp hlisten
    exact absurd (hyields hscanning (not_not.mp hsrc)) (UInt64.lt_asymm hdefend)
  · dsimp only
    rw [settle_used]
    exact markUsed_used (Or.inr rfl)

theorem settle_settled {next : Option UInt8} (h : ∀ a, next = some a → c.used a = false) :
    (c.settle now next).1.Settled := by
  cases next with
  | some a => exact fun _ => h a rfl
  | none =>
      rintro (hstate | hstate) <;> cases hstate

theorem onAddressClaim_settled (hc : c.Started) (h : c.Settled) (src : UInt8) (theirName : UInt64) :
    (c.onAddressClaim now src theirName).1.Settled := by
  rw [onAddressClaim]
  split_ifs with hout hself hlisten hdefend
  · exact h
  · exact h
  · intro hactive
    obtain hscanning | hsrc := hlisten
    · rcases hactive with hstate | hstate <;> cases hscanning.symm.trans hstate
    · exact (Function.update_of_ne (Ne.symm hsrc) _ _).trans (h hactive)
  · intro _
    obtain ⟨hscanning, hsrc⟩ := not_or.mp hlisten
    exact h (active_of_contested hc (not_or.mp hout) hscanning (not_not.mp hsrc))
  · apply settle_settled
    intro a ha
    split_ifs at ha
    exact (pickFree_spec ha).2

theorem tick_settled (h : c.Settled) : (c.tick now).1.Settled := by
  rw [tick]
  split
  · split_ifs
    · apply settle_settled
      intro a ha
      split_ifs at ha with hused
      · exact (pickFree_spec ha).2
      · rw [← Option.some.inj ha]
        exact Bool.eq_false_of_not_eq_true hused
    · exact h
  next hpending =>
    split_ifs
    · exact fun _ => h (Or.inl hpending)
    · exact h
  · exact h

end AddressClaim

/-! ## What the pipeline hears of the gateway -/

/-- A frame with the claim that the machine makes now. -/
structure IsClaimOf (c : AddressClaim) (f : RawFrame) : Prop where
  pgn : f.pgn = PGN_ISO_ADDRESS_CLAIM
  src : f.src = c.address
  data : f.data = c.claimFrame.data

theorem isClaimOf_congr {c c' : AddressClaim} (haddr : c'.address = c.address)
    (hname : c'.name = c.name) {f : RawFrame} (h : IsClaimOf c f) : IsClaimOf c' f := by
  refine ⟨h.pgn, h.src.trans haddr.symm, h.data.trans ?_⟩
  rw [AddressClaim.claimFrame, AddressClaim.claimFrame, hname]

/-- A claim on its way to the bus, with an echo. -/
def claimEvent (c : AddressClaim) : BusEvent :=
  .send ⟨c.claimFrame.prio, c.claimFrame.pgn, c.claimFrame.src, c.claimFrame.dst,
    c.claimFrame.data, true⟩

/-- The node keeps its address, or its events announce the one that it has now. -/
structure Announces (c c' : AddressClaim) (events : List BusEvent) : Prop where
  name : c'.name = c.name
  address : c'.Active → c.Active ∧ c'.address = c.address ∨ claimEvent c' ∈ events

theorem AddressClaim.Announced.announces {c : AddressClaim} {out : AddressClaim × List RawFrame}
    (h : c.Announced out) : Announces c out.1 (emitFrames out.2) :=
  ⟨h.name, fun hactive => (h.address hactive).imp_right fun hmem =>
    List.mem_map.mpr ⟨out.1.claimFrame, hmem, rfl⟩⟩

theorem Announces.refl (c : AddressClaim) (events : List BusEvent) : Announces c c events :=
  ⟨rfl, fun h => Or.inl ⟨h, rfl⟩⟩

theorem Announces.mono {c c' : AddressClaim} {events more : List BusEvent}
    (h : Announces c c' events) (hsub : events ⊆ more) : Announces c c' more :=
  ⟨h.name, fun hactive => (h.address hactive).imp_right (hsub ·)⟩

namespace NmeaDevice

variable {env : DeviceEnv} {d : NmeaDevice}

theorem drive_announces (now : UInt64) (f : RawFrame) :
    Announces d.claim (d.drive env now f).1.claim (d.drive env now f).2 := by
  rw [drive]
  split_ifs
  · exact .refl _ _
  · rw [onClaim]
    split_ifs
    · exact .refl _ _
    · exact (AddressClaim.onAddressClaim_announced _ _).announces
  · rw [onRequest_claim]
    exact .refl _ _
  · exact .refl _ _

theorem tick_announces (now clock : UInt64) (counters : Counters) :
    Announces d.claim (d.tick env now clock counters).1.claim
      (d.tick env now clock counters).2 := by
  obtain ⟨later, hevents, hclaim, -⟩ := tick_spec env (d := d) now clock counters
  rw [hevents, hclaim]
  exact AddressClaim.tick_announced.announces.mono (List.subset_append_left _ _)

end NmeaDevice

namespace NmeaNode

variable (env : DeviceEnv) {n : NmeaNode}

theorem handleFrame_announces (now : UInt64) (canId : UInt32) (data : List UInt8)
    (whenMs : UInt64) :
    Announces n.device.claim (n.handleFrame env now canId data whenMs).1.device.claim
      (n.handleFrame env now canId data whenMs).2 := by
  obtain ⟨f, later, hevents, hclaim, -⟩ :=
    handleFrame_spec env (n := n) now canId data whenMs
  rw [hevents, hclaim]
  exact (NmeaDevice.drive_announces now f).mono (List.subset_append_left _ _)

theorem act_announces (action : NmeaAction) :
    Announces n.device.claim (n.act env action).1.device.claim (n.act env action).2 := by
  cases action with
  | start now => exact AddressClaim.start_announced.announces
  | handleFrame now canId data whenMs => exact handleFrame_announces env now canId data whenMs
  | dispatchCmd cmd => exact .refl _ _
  | tick now clock counters => exact NmeaDevice.tick_announces now clock counters
  | drain write => exact .refl _ _

/-- An echo of every send that asks for one. -/
theorem perform_echo (tx : TxBuffer) (stamp : String) {call : SendPgn} {events : List BusEvent}
    (hcall : .send call ∈ events) (hemit : call.emit = true) :
    ∃ f ∈ (perform env tx stamp events).2,
      f.pgn = call.pgn ∧ f.src = call.src ∧ f.data = call.data := by
  induction events generalizing tx with
  | nil => cases hcall
  | cons e events ih =>
      obtain rfl | hlater := List.mem_cons.mp hcall
      · have hecho : (tx.sendPgn env.packetType call stamp).2 =
            some { timestamp := some stamp, prio := call.prio, pgn := call.pgn, src := call.src,
                   dst := call.dst, data := call.data } := if_pos hemit
        exact ⟨_, List.mem_append_left _ (Option.mem_toList.mpr hecho), rfl, rfl, rfl⟩
      · cases e with
        | send other =>
            obtain ⟨f, hf, hsame⟩ := ih (tx.sendPgn env.packetType other stamp).1 hlater
            exact ⟨f, List.mem_append_right _ hf, hsame⟩
        | status g =>
            obtain ⟨f, hf, hsame⟩ := ih tx hlater
            exact ⟨f, List.mem_cons_of_mem g hf, hsame⟩
        | consume g =>
            obtain ⟨f, hf, hsame⟩ := ih tx hlater
            exact ⟨f, List.mem_cons_of_mem g hf, hsame⟩

/-- **The echo.** After a step the node is where it was, or the consumer gets its claim. -/
theorem step_echo (action : NmeaAction) :
    (n.step env action).1.device.claim.name = n.device.claim.name ∧
      ((n.step env action).1.device.claim.Active →
        n.device.claim.Active ∧
            (n.step env action).1.device.claim.address = n.device.claim.address ∨
          ∃ f ∈ (n.step env action).2, IsClaimOf (n.step env action).1.device.claim f) := by
  have hact := act_announces env (n := n) action
  refine ⟨hact.name, fun hactive => (hact.address hactive).imp_right fun hmem => ?_⟩
  obtain ⟨f, hf, hpgn, hsrc, hdata⟩ :=
    perform_echo env (n.act env action).1.tx action.stamp hmem rfl
  exact ⟨f, hf, hpgn, hsrc, hdata⟩

end NmeaNode

/-! ## What the quirk's node makes of it -/

namespace Motion

variable {env : DeviceEnv} {F : Type} [Float64 F] {m : Motion} {d : DecodedPgn F}

/-- The first call makes the node scan, no other one moves it. -/
theorem begin_claim (hm : m.claim.Started) (now : ℕ) :
    (m.begin now).1.claim.used = m.claim.used ∧ (m.begin now).1.claim.name = m.claim.name ∧
      (m.started = true ∧ (m.begin now).1.claim = m.claim ∨
        (m.begin now).1.claim.state = .Scanning) := by
  rw [begin, AddressClaim.start, if_neg hm.enabled]
  dsimp only
  split_ifs with hstarted
  · exact ⟨rfl, rfl, Or.inl ⟨hstarted, rfl⟩⟩
  · exact ⟨rfl, rfl, Or.inr rfl⟩

theorem process_claim (now : ℕ) (wall : UInt64) :
    (m.process env d now wall).1.claim =
      (((m.begin now).1.heed env d (m.nowMs now)).1.claim.tick (m.nowMs now)).1 := rfl

theorem process_started (hm : m.claim.Started) (now : ℕ) (wall : UInt64) :
    (m.process env d now wall).1.claim.Started := by
  have hheard := heed_started env (d := d) (begin_started hm now) (m.nowMs now)
  exact ((AddressClaim.tick_call hheard).keeps hheard).1

/-- No address is forgotten. -/
theorem process_used (hm : m.claim.Started) {a : UInt8} (h : m.claim.used a = true) (now : ℕ)
    (wall : UInt64) : (m.process env d now wall).1.claim.used a = true := by
  obtain ⟨hused, -, -⟩ := begin_claim hm now
  rw [process_claim, AddressClaim.tick_used, heed_claim]
  rw [← hused] at h
  cases d.isoName with
  | none => exact h
  | some theirName => exact AddressClaim.onAddressClaim_used h

theorem process_settled (hm : m.claim.Started) (h : m.claim.Settled) (now : ℕ) (wall : UInt64) :
    (m.process env d now wall).1.claim.Settled := by
  have hbegun : (m.begin now).1.claim.Settled := by
    obtain ⟨-, -, ⟨-, hsame⟩ | hscanning⟩ := begin_claim hm now
    · rw [hsame]
      exact h
    · rintro (hstate | hstate) <;> cases hscanning.symm.trans hstate
  rw [process_claim]
  apply AddressClaim.tick_settled
  rw [heed_claim]
  cases d.isoName with
  | none => exact hbegun
  | some theirName =>
      exact AddressClaim.onAddressClaim_settled (begin_started hm now) hbegun _ _

/-- **What it hears it notes**, unless it holds out against it. -/
theorem process_marks (hm : m.claim.Started) (hmax : d.src ≤ ADDR_MAX) {heard : UInt64}
    (hname : d.isoName = some heard) (hother : heard ≠ m.claim.name)
    (hyields : m.started = true → m.claim.Active → d.src = m.claim.address →
      heard < m.claim.name) (now : ℕ) (wall : UInt64) :
    (m.process env d now wall).1.claim.used d.src = true := by
  obtain ⟨-, hsameName, hbegun⟩ := begin_claim hm now
  have hstarted := begin_started hm now
  rw [process_claim, AddressClaim.tick_used, heed_claim, hname]
  apply AddressClaim.onAddressClaim_marks hstarted.enabled hmax
  · rw [hsameName]
    exact hother
  · intro hscanning hsrc
    obtain ⟨hon, hsame⟩ | hscans := hbegun
    · rw [hsame] at hscanning hsrc hstarted ⊢
      have hout : ¬d.src > ADDR_MAX ∧ m.claim.state ≠ .Disabled :=
        ⟨UInt8.not_lt.mpr hmax, hm.enabled⟩
      exact hyields hon (AddressClaim.active_of_contested hm hout hscanning hsrc) hsrc
    · exact absurd hscans hscanning

end Motion

/-! ## The server -/

namespace Server

variable {F : Type} [Float64 F] {env : ServerEnv F} {s : Server}

/-- All that is on its way in the process has been taken. -/
structure Quiet (s : Server) : Prop where
  frames : s.frames = []
  commands : s.commands = []
  pendingSynth : s.pendingSynth = []

/-- Both nodes hold, or hold out for, the one address. -/
structure Shared (s : Server) : Prop where
  gateway : s.node.device.claim.Active
  quirk : s.motion.claim.Active
  address : s.node.device.claim.address = s.motion.claim.address

variable (env) in
/-- When the quirk's node hears the gateway claim the address that it holds itself, or holds out
for, the NAME that it hears is the lower one. -/
def Prevails (s : Server) : ServerAction → Prop
  | .pipeline _ _ => ∀ f s' d heard, s.nextFrame = some (f, s') → env.db.decode? f = some d →
      s.node.device.claim.Active → IsClaimOf s.node.device.claim f → d.isoName = some heard →
        heard ≠ s.motion.claim.name ∧
          (s.motion.started = true → s.motion.claim.Active → d.src = s.motion.claim.address →
            heard < s.motion.claim.name)
  | _ => True

/-- What the quirk's node knows of the gateway, or is about to hear. -/
structure Informed (s : Server) : Prop where
  motion : s.motion.claim.Started
  settled : s.motion.claim.Settled
  gateway : s.node.device.claim.Active → s.node.device.claim.address ≤ ADDR_MAX →
    (∃ f ∈ s.frames, IsClaimOf s.node.device.claim f) ∨
      s.motion.claim.used s.node.device.claim.address = true

theorem not_shared_of_quiet (h : s.Informed) (hquiet : s.Quiet) : ¬s.Shared := by
  intro hshared
  have hmax := h.motion.active hshared.quirk
  rw [← hshared.address] at hmax
  obtain ⟨f, hf, -⟩ | hused := h.gateway hshared.gateway hmax
  · rw [hquiet.frames] at hf
    cases hf
  · have hfree := h.settled hshared.quirk
    rw [← hshared.address, hused] at hfree
    cases hfree

omit [Float64 F] in
/-- A step of the worker tells of what it changes. -/
theorem informed_worker (h : s.Informed) (action : NmeaAction) {out : NmeaNode × List RawFrame}
    (hstep : s.node.step env.device action = out) {commands : List RawFrame} :
    Informed { s with node := out.1, frames := s.frames ++ out.2, commands } := by
  obtain ⟨hname, hecho⟩ := NmeaNode.step_echo env.device (n := s.node) action
  rw [hstep] at hname hecho
  refine ⟨h.motion, h.settled, fun hactive hmax => ?_⟩
  obtain ⟨hbefore, haddr⟩ | ⟨f, hf, hclaim⟩ := hecho hactive
  · obtain ⟨f, hf, hclaim⟩ | hused := h.gateway hbefore (haddr ▸ hmax)
    · exact Or.inl ⟨f, List.mem_append_left _ hf, isClaimOf_congr haddr hname hclaim⟩
    · exact Or.inr (haddr.symm ▸ hused)
  · exact Or.inl ⟨f, List.mem_append_right _ hf, hclaim⟩

theorem decode?_source {db : PgnDatabase F} {f : RawFrame} {d : DecodedPgn F}
    (h : db.decode? f = some d) : d.pgn = f.pgn ∧ d.src = f.src := by
  rw [PgnDatabase.decode?, PgnDatabase.decode] at h
  split at h
  · cases h
  · cases h
    exact ⟨rfl, rfl⟩

theorem nextFrame_frames {f : RawFrame} {s' : Server} (h : s.nextFrame = some (f, s')) :
    ∀ e ∈ s.frames, e = f ∨ e ∈ s'.frames := by
  rw [nextFrame] at h
  split at h
  · cases h
    exact fun e he => Or.inr he
  next hframes =>
    cases h
    rw [hframes]
    exact fun e he => List.mem_cons.mp he
  · cases h

/-- A record with the gateway's claim leaves its address noted. -/
theorem marks_of_claim (hs : s.motion.claim.Started) {f : RawFrame} {s' : Server}
    {d : DecodedPgn F} (hnext : s.nextFrame = some (f, s')) (hd : env.db.decode? f = some d)
    (hactive : s.node.device.claim.Active) (hmax : s.node.device.claim.address ≤ ADDR_MAX)
    (hclaim : IsClaimOf s.node.device.claim f) {now : ℕ} {wall : UInt64}
    (hprevails : s.Prevails env (.pipeline now wall)) :
    (s.motion.process env.device d now wall).1.claim.used s.node.device.claim.address = true := by
  obtain ⟨hpgn, hsrc⟩ := decode?_source hd
  have hname : ∃ heard, d.isoName = some heard :=
    ⟨_, if_neg (not_not.mpr (hpgn.trans hclaim.pgn))⟩
  obtain ⟨heard, hname⟩ := hname
  obtain ⟨hother, hyields⟩ := hprevails f s' d heard hnext hd hactive hclaim hname
  have haddr : d.src = s.node.device.claim.address := hsrc.trans hclaim.src
  rw [← haddr] at hmax ⊢
  exact Motion.process_marks hs hmax hname hother hyields now wall

/-- The database has a definition of the address claim. -/
def DefinesClaim (db : PgnDatabase F) : Prop :=
  ∀ f : RawFrame, f.pgn = PGN_ISO_ADDRESS_CLAIM → (db.decode? f).isSome

theorem informed_pipeline (hdb : DefinesClaim env.db) (h : s.Informed) {now : ℕ} {wall : UInt64}
    (hprevails : s.Prevails env (.pipeline now wall)) :
    (s.step env (.pipeline now wall)).Informed := by
  cases hnext : s.nextFrame with
  | none =>
      rw [step, pipelineStep, hnext]
      exact h
  | some out =>
      obtain ⟨f, s'⟩ := out
      obtain ⟨hmotion, -, hnode⟩ := nextFrame_rest hnext
      have hframes := nextFrame_frames hnext
      cases hd : env.db.decode? f with
      | none =>
          -- a claim would have been decoded
          have hother : ¬IsClaimOf s.node.device.claim f := by
            intro hclaim
            have hsome := hdb f hclaim.pgn
            rw [hd] at hsome
            cases hsome
          rw [step, pipelineStep, hnext]
          dsimp only
          rw [hd]
          refine ⟨hmotion ▸ h.motion, hmotion ▸ h.settled, ?_⟩
          dsimp only
          rw [hnode, hmotion]
          intro hactive hmax
          refine (h.gateway hactive hmax).imp_left ?_
          rintro ⟨e, he, hclaim⟩
          obtain rfl | hlater := hframes e he
          · exact absurd hclaim hother
          · exact ⟨e, hlater, hclaim⟩
      | some d =>
          rw [step_pipeline hnext hd, hmotion]
          refine ⟨Motion.process_started h.motion now wall,
            Motion.process_settled h.motion h.settled now wall, ?_⟩
          dsimp only
          rw [hnode]
          intro hactive hmax
          obtain ⟨e, he, hclaim⟩ | hused := h.gateway hactive hmax
          · obtain rfl | hlater := hframes e he
            · exact Or.inr (marks_of_claim h.motion hnext hd hactive hmax hclaim hprevails)
            · exact Or.inl ⟨e, hlater, hclaim⟩
          · exact Or.inr (Motion.process_used h.motion hused now wall)

theorem informed_step (hdb : DefinesClaim env.db) (h : s.Informed) {action : ServerAction}
    (hprevails : s.Prevails env action) : (s.step env action).Informed := by
  cases action with
  | worker action => exact informed_worker h action rfl
  | publish => exact ⟨h.motion, h.settled, h.gateway⟩
  | dispatch =>
      rw [step]
      split
      · exact h
      next f _ _ => exact informed_worker h (.dispatchCmd (.frame f)) rfl
  | pipeline now wall => exact informed_pipeline hdb h hprevails

omit [Float64 F] in
theorem informed_new (env : ServerEnv F) (device : NmeaDevice) (machineId : UInt32)
    (now : UInt64) : (new env device machineId now).Informed := by
  refine ⟨(Motion.new_apart machineId).claim, fun _ => rfl, fun hactive _ => ?_⟩
  -- the worker begins with a scan, or without a claim at all
  have hstart : ¬(device.claim.start now).1.Active := by
    rw [AddressClaim.start]
    split_ifs with hdisabled
    · rintro (hstate | hstate) <;> cases hdisabled.symm.trans hstate
    · rintro (hstate | hstate) <;> cases hstate
  exact absurd hactive hstart

/-- **Two nodes, two addresses.** -/
theorem not_shared (env : ServerEnv F) (hdb : DefinesClaim env.db) (device : NmeaDevice)
    (machineId : UInt32) (now : UInt64) (actions : List ServerAction)
    (hprevails : Along (step env) (Prevails env) (new env device machineId now) actions)
    (hquiet : (actions.foldl (step env) (new env device machineId now)).Quiet) :
    ¬(actions.foldl (step env) (new env device machineId now)).Shared :=
  not_shared_of_quiet
    (Along.invariant (fun _ _ h hprevails => informed_step hdb h hprevails)
      (informed_new env device machineId now) hprevails) hquiet

end Server

/-! ## A gateway that gives way -/

theorem claimDatabase_definesClaim : Server.DefinesClaim claimDatabase := by
  rintro ⟨ts, prio, pgn, src, dst, data⟩ rfl
  rfl

/-- A gateway that wants address 24, with a system instance of its own. -/
def gatewayAt24 : NmeaDevice :=
  .new (.new { Name.new 999 1 with deviceFunction := 130, deviceClass := 25
                                   systemInstance := 1 }.toU64 24 true) 0 "" 0 250000

/-- The quirk's node claims 24 first, and holds out when the gateway claims it too. -/
def lateGateway : List ServerAction :=
  [.pipeline 0 0, busClaim 0 30 6, .pipeline 0 0, .pipeline 0 0, .dispatch,
    busClaim 1000 30 6, .pipeline 1000000000 0, .pipeline 1000000000 0, .dispatch,
    .worker (.tick 1000 1000 ⟨none, none, none⟩), .pipeline 1000000000 0,
    .pipeline 1000000000 0, .dispatch]

/-- Nobody tells the gateway. -/
theorem Server.not_not_shared : ¬∀ (env : ServerEnv Binary64) (_ : DefinesClaim env.db)
    (device : NmeaDevice) (machineId : UInt32) (now : UInt64) (actions : List ServerAction),
    device.claim.name ≠ Motion.buildName machineId →
      (actions.foldl (step env) (new env device machineId now)).Quiet →
      ¬(actions.foldl (step env) (new env device machineId now)).Shared := by
  intro h
  exact h loneClaims claimDatabase_definesClaim gatewayAt24 0 0 lateGateway (by decide +kernel)
    ⟨by decide +kernel, by decide +kernel, by decide +kernel⟩
    ⟨by decide +kernel, by decide +kernel, by decide +kernel⟩

/-- The NAME in the frame that comes next. -/
def Server.heardNext (s : Server) (db : PgnDatabase Binary64) : Option UInt64 :=
  (s.nextFrame.bind fun out => db.decode? out.1).bind (·.isoName)

theorem Server.prevails_of_lower {env : ServerEnv Binary64} {s : Server} (now : ℕ) (wall : UInt64)
    (hlower : (s.heardNext env.db).all (· < s.motion.claim.name) = true) :
    s.Prevails env (.pipeline now wall) := by
  intro f s' d heard hnext hd _ _ hname
  have hheard : s.heardNext env.db = some heard := by
    rw [heardNext, hnext]
    dsimp only [Option.bind]
    rw [hd]
    exact hname
  rw [hheard] at hlower
  have hlt : heard < s.motion.claim.name := of_decide_eq_true hlower
  exact ⟨UInt64.ne_of_lt hlt, fun _ _ _ => hlt⟩

/-- With the system instance of the quirk's node. -/
def lowerGateway : NmeaDevice :=
  .new (.new { Name.new 999 1 with deviceFunction := 130, deviceClass := 25 }.toU64 24 true)
    0 "" 0 250000

/-- The node hears of the gateway as soon as it starts. -/
def promptGateway : List ServerAction :=
  [.pipeline 0 0, .worker (.tick 1000 1000 ⟨none, none, none⟩), .pipeline 0 0, .pipeline 0 0,
    .dispatch]

theorem Server.not_shared_prompt :
    (promptGateway.foldl (step loneClaims) (new loneClaims lowerGateway 0 0)).Quiet ∧
      ¬(promptGateway.foldl (step loneClaims) (new loneClaims lowerGateway 0 0)).Shared := by
  have hquiet : (promptGateway.foldl (step loneClaims) (new loneClaims lowerGateway 0 0)).Quiet :=
    ⟨by decide +kernel, by decide +kernel, by decide +kernel⟩
  refine ⟨hquiet, not_shared loneClaims claimDatabase_definesClaim lowerGateway 0 0 promptGateway ?_
    hquiet⟩
  rw [promptGateway, Along.cons_iff, Along.cons_iff, Along.cons_iff, Along.cons_iff,
    Along.cons_iff]
  exact ⟨prevails_of_lower 0 0 (by decide +kernel), trivial,
    prevails_of_lower 0 0 (by decide +kernel), prevails_of_lower 0 0 (by decide +kernel), trivial,
    .nil⟩

end Canboat
