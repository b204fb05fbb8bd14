import Canboat.Bridge.Motion
import Canboat.Bridge.Scx20
import Canboat.Bridge.Wmm
import Canboat.Io.ClaimHistory
import Canboat.Io.Drivers
import Canboat.Lib.Drain

/-!
# The quirks of the server, and what they hear of each other

What the quirks say goes to the bus, and comes back to them through the server's own loop. The
frames that come back are counted: each quirk has a share in the weight of a frame, for what it
may answer to it, and a potential, for what it may say of its own accord.
-/

namespace Canboat

inductive QuirkKind
  | Scx20
  | Wmm
  | Motion
deriving DecidableEq, Repr

structure Quirks (F : Type) where
  scx20 : Option Scx20
  wmm : Option (WmmQuirk F)
  motion : Option Motion

/-- What stays the same in a run of the program. -/
structure QuirkEnv (F : Type) where
  wmm : WmmEnv F
  device : DeviceEnv
  machineId : UInt32

/-- What the loop finds when it comes to a frame: both clocks, and the address that the gateway
has published. -/
structure QuirkTick where
  now : ℕ
  wall : UInt64
  claimAddr : Option UInt8

namespace Quirks

variable {F : Type} [Float64 F]

omit [Float64 F] in
def new (machineId : UInt32) (kinds : List QuirkKind) : Quirks F where
  scx20 := if .Scx20 ∈ kinds then some .new else none
  wmm := if .Wmm ∈ kinds then some .new else none
  motion := if .Motion ∈ kinds then some (.new machineId) else none

/-- The output of a quirk that is enabled. -/
def output {S : Type} (res : Option (S × List RawFrame)) : List RawFrame := res.elim [] Prod.snd

def processDecoded (env : QuirkEnv F) (q : Quirks F) (d : DecodedPgn F) (tick : QuirkTick) :
    Quirks F × List RawFrame :=
  let scx20 := q.scx20.map fun s => s.process env.wmm.db d tick.now tick.wall
  let wmm := q.wmm.map fun w => w.process env.wmm d tick.now tick.wall
  let motion := q.motion.map fun m => m.process env.device d tick.now tick.wall
  (⟨scx20.map Prod.fst, wmm.map Prod.fst, motion.map Prod.fst⟩,
    output scx20 ++ output wmm ++ output motion)

/-- The states that some records lead to, at any times. -/
inductive Reached (env : QuirkEnv F) (kinds : List QuirkKind) : Quirks F → Prop
  | new : Reached env kinds (new env.machineId kinds)
  | process (q : Quirks F) (d : DecodedPgn F) (tick : QuirkTick) (h : Reached env kinds q) :
      Reached env kinds (q.processDecoded env d tick).1

end Quirks

/-! ## The loop -/

/-- An address that is one. -/
def QuirkTick.ownAddr (tick : QuirkTick) : Option UInt8 :=
  tick.claimAddr.filter fun a => a ≠ ADDR_GLOBAL ∧ a ≠ ADDR_NULL

/-- Sources 0 and 255 stand for canboat's own node. -/
def stampOwn (ownAddr : Option UInt8) (f : RawFrame) : RawFrame :=
  match ownAddr with
  | some addr => if f.src = 0 ∨ f.src = ADDR_GLOBAL then { f with src := addr } else f
  | none => f

/-- What the loop keeps from frame to frame. -/
structure Pipeline (F : Type) where
  driver : Driver
  quirks : Quirks F

namespace Pipeline

variable {F : Type} [Float64 F]

/-- A record goes to the quirks. Their frames go to the queue. -/
def process (env : QuirkEnv F) (tick : QuirkTick) (p : Pipeline F) (d : DecodedPgn F) :
    Pipeline F × List RawFrame :=
  let (quirks, synths) := p.quirks.processDecoded env d tick
  ({ p with quirks }, synths.map (stampOwn tick.ownAddr))

/-- A frame of the queue. -/
def feed (env : QuirkEnv F) (db : PgnDatabase F) (tick : QuirkTick) (p : Pipeline F)
    (frame : RawFrame) : Pipeline F × List RawFrame :=
  let (driver, record) := pipelineStep db p.driver frame
  match record with
  | none => ({ p with driver }, [])
  | some d => { p with driver }.process env tick d

end Pipeline

/-! ## What frames weigh -/

def scx20Share (pgn : UInt32) : ℕ := if pgn = PGN_ISO_REQUEST then 256 else 0

def wmmShare (pgn : UInt32) : ℕ := if pgn = PGN_MAGNETIC_VARIATION then 1 else 0

def motionShare (pgn : UInt32) : ℕ :=
  if pgn = PGN_ISO_REQUEST then 2 else if pgn = PGN_SCX_6DOF then 1 else 0

/-- The frames that each quirk may answer with, and the frame itself. -/
def feedbackWeight (f : RawFrame) : ℕ := 1 + scx20Share f.pgn + wmmShare f.pgn + motionShare f.pgn

/-- A claim under the name of the virtual node, or no claim; and no part of a transfer. -/
structure OwnFrame (name : UInt64) (f : RawFrame) : Prop where
  claim : f.pgn = PGN_ISO_ADDRESS_CLAIM → f.data = LittleEndian.encode 8 name.toNat
  whole : ¬f.IsTp

theorem feedbackWeight_of_pgn {f g : RawFrame} (h : f.pgn = g.pgn) :
    feedbackWeight f = feedbackWeight g := by
  rw [feedbackWeight, feedbackWeight, h]

/-- The PGNs that no quirk listens to. -/
def quietPgns : List UInt32 :=
  [PGN_PRODUCT_INFO, PGN_PGN_LIST, PGN_BG_RATES, PGN_REQUEST_GROUP_FUNCTION]

theorem ownFrame_of_not_claim {f : RawFrame} {pgn : UInt32} (hpgn : f.pgn = pgn)
    (h : pgn ∉ [PGN_ISO_ADDRESS_CLAIM, PGN_ISO_TP_CM, PGN_ISO_TP_DT]) (name : UInt64) :
    OwnFrame name f := by
  subst hpgn
  simp only [List.mem_cons, List.not_mem_nil, or_false, not_or] at h
  exact ⟨fun hclaim => absurd hclaim h.1, fun htp => htp.elim h.2.1 h.2.2⟩

theorem ownFrame_of_quiet {f : RawFrame} (h : f.pgn ∈ quietPgns) (name : UInt64) :
    OwnFrame name f := by
  have hquiet : ∀ pgn ∈ quietPgns,
      pgn ∉ [PGN_ISO_ADDRESS_CLAIM, PGN_ISO_TP_CM, PGN_ISO_TP_DT] := by
    intro pgn hpgn
    simp only [quietPgns, List.mem_cons, List.not_mem_nil, or_false] at hpgn
    rcases hpgn with rfl | rfl | rfl | rfl <;> decide
  exact ownFrame_of_not_claim rfl (hquiet f.pgn h) name

theorem feedbackWeight_of_quiet {f : RawFrame} (h : f.pgn ∈ quietPgns) : feedbackWeight f = 1 := by
  have hquiet : ∀ pgn ∈ quietPgns, 1 + scx20Share pgn + wmmShare pgn + motionShare pgn = 1 := by
    intro pgn hpgn
    simp only [quietPgns, List.mem_cons, List.not_mem_nil, or_false] at hpgn
    rcases hpgn with rfl | rfl | rfl | rfl <;> decide
  exact hquiet f.pgn h

theorem ownFrame_claimFrame {c : AddressClaim} {name : UInt64} (h : c.name = name) :
    OwnFrame name c.claimFrame := by
  subst h
  have hwhole : PGN_ISO_ADDRESS_CLAIM ≠ PGN_ISO_TP_CM ∧ PGN_ISO_ADDRESS_CLAIM ≠ PGN_ISO_TP_DT := by
    decide
  exact ⟨fun _ => rfl, fun htp => htp.elim hwhole.1 hwhole.2⟩

theorem feedbackWeight_claimFrame (c : AddressClaim) : feedbackWeight c.claimFrame = 1 := by
  have hclaim : 1 + scx20Share PGN_ISO_ADDRESS_CLAIM + wmmShare PGN_ISO_ADDRESS_CLAIM +
      motionShare PGN_ISO_ADDRESS_CLAIM = 1 := by
    decide
  exact hclaim

/-! ## The compass -/

section

variable {F : Type} [Float64 F] {name : UInt64}

/-- The frames of one source each, so no more than there are addresses. -/
theorem Scx20.process_spends {db : PgnDatabase F} (hdb : DefinesProductInfo db) (q : Scx20)
    (d : DecodedPgn F) (now : ℤ) (wall : UInt64) :
    Drain.Spends (OwnFrame name) (fun _ => 0) feedbackWeight q (scx20Share d.pgn)
      (q.process db d now wall) := by
  have hframes : ∀ f ∈ (q.process db d now wall).2, f.pgn = PGN_PRODUCT_INFO ∧
      requestsProductInfo d = true ∧ (d.dst = ADDR_GLOBAL ∨ d.dst = f.src) ∧ q.Due now f.src ∧
      (q.process db d now wall).1.learned f.src = some now := by
    intro f hf
    exact Scx20.process_frames hdb hf
  have hnodup : ((q.process db d now wall).2.map (·.src)).Nodup := Scx20.process_nodup hdb
  generalize q.process db d now wall = res at hframes hnodup ⊢
  have hquiet : ∀ f ∈ res.2, f.pgn ∈ quietPgns := by
    intro f hf
    rw [(hframes f hf).1]
    exact List.mem_cons_self
  refine ⟨fun f hf => ownFrame_of_quiet (hquiet f hf) name, ?_⟩
  rw [Drain.load_eq_length fun f hf => feedbackWeight_of_quiet (hquiet f hf), Nat.zero_add,
    Nat.zero_add, scx20Share]
  split_ifs with hrequest
  · have hsub : res.2.map (·.src) ⊆ allSources := by
      intro src _
      exact List.mem_map.mpr ⟨src.toNat, List.mem_range.mpr src.toNat_lt, UInt8.ofNat_toNat⟩
    have hle := (List.subperm_of_subset hnodup hsub).length_le
    rw [List.length_map, allSources, List.length_map, List.length_range] at hle
    exact hle
  · cases hres : res.2 with
    | nil => exact Nat.le_refl 0
    | cons f rest =>
        have hf := (hframes f (by rw [hres]; exact List.mem_cons_self)).2.1
        exact absurd (of_decide_eq_true hf).1 hrequest

/-! ## The variation -/

namespace WmmQuirk

/-- A variation may still be sent in the second that begins then. -/
def potential (start : ℕ) (q : WmmQuirk F) : ℕ := if q.lastEmit.any (start ≤ ·) then 0 else 2

omit [Float64 F] in
theorem potential_of_lastEmit {start : ℕ} {q q' : WmmQuirk F} (h : q'.lastEmit = q.lastEmit) :
    q'.potential start = q.potential start := by
  rw [potential, h, potential]

theorem process_spends {env : WmmEnv F} (hdb : DefinesVariation env.db) (q : WmmQuirk F)
    (d : DecodedPgn F) {start now : ℕ} (hstart : start ≤ now) (hend : now < start + EMIT_INTERVAL)
    (wall : UInt64) :
    Drain.Spends (OwnFrame name) (potential start) feedbackWeight q (wmmShare d.pgn)
      (q.process env d now wall) := by
  obtain ⟨hobserved, hstop⟩ := q.observe_spec d
  have hasked : Drain.Spends (OwnFrame name) (potential start) feedbackWeight q (wmmShare d.pgn)
      ((q.observe d).1, (q.observe d).2.toList) := by
    constructor
    · intro f hf
      have hpgn := (hstop f (Option.mem_toList.mp hf)).2
      exact ownFrame_of_quiet (by rw [hpgn]; decide) name
    · rw [potential_of_lastEmit hobserved]
      refine Nat.add_le_add_left ?_ _
      cases hframe : (q.observe d).2 with
      | none => exact Nat.zero_le _
      | some f =>
          obtain ⟨hpgn, hstop⟩ := hstop f hframe
          rw [Option.toList_some, Drain.load_cons, Drain.load_nil,
            feedbackWeight_of_quiet (by rw [hstop]; decide), hpgn]
          decide
  have hsent : Drain.Spends (OwnFrame name) (potential start) feedbackWeight (q.observe d).1 0
      (((q.observe d).1.maybeEmit env now wall).1,
        ((q.observe d).1.maybeEmit env now wall).2.toList) := by
    have hemits : Emits (q.observe d).1 now ((q.observe d).1.maybeEmit env now wall) :=
      maybeEmit_emits hdb
    generalize (q.observe d).1.maybeEmit env now wall = res at hemits ⊢
    cases hemits with
    | silent q' hlast => exact .idle (potential_of_lastEmit hlast).le 0
    | sent q' f hlast hpgn hdue =>
        constructor
        · intro g hg
          rw [List.mem_singleton.mp hg]
          exact ownFrame_of_not_claim hpgn (by decide) name
        · -- none was sent in this second
          have hnone : ((q.observe d).1.lastEmit.any (start ≤ ·)) = false := by
            cases hlast : (q.observe d).1.lastEmit with
            | none => rfl
            | some last =>
                have hearly := hdue last hlast
                refine decide_eq_false ?_
                omega
          have hnow : (some now).any (start ≤ ·) = true := decide_eq_true hstart
          have hweight : feedbackWeight f = 2 := by
            rw [feedbackWeight, hpgn]
            decide
          rw [Option.toList_some, Drain.load_cons, Drain.load_nil, hweight, potential, hlast,
            if_pos hnow, potential, if_neg (by rw [hnone]; exact Bool.false_ne_true)]
  exact hasked.trans hsent

end WmmQuirk

end

/-! ## The virtual node -/

namespace AddressClaim

variable {c : AddressClaim} {name : UInt64}

/-- The addresses that the node does not know to be in use. -/
def unused (c : AddressClaim) : ℕ :=
  ((List.range (ADDR_MAX.toNat + 1)).map UInt8.ofNat).countP fun a => !c.used a

/-- The steps to a claimed address that are still to come. -/
def phases : ClaimState → ℕ
  | .Scanning => 2
  | .Pending => 1
  | _ => 0

/-- Each address that the node loses is one less to move to. -/
def effort (c : AddressClaim) : ℕ := phases c.state + 2 * c.unused

theorem unused_le (c : AddressClaim) : c.unused ≤ 254 := by
  have hle : c.unused ≤ ((List.range (ADDR_MAX.toNat + 1)).map UInt8.ofNat).length :=
    List.countP_le_length
  rw [List.length_map, List.length_range] at hle
  exact hle

theorem not_used_of_markUsed {src a : UInt8} (h : (!(c.markUsed src).used a) = true) :
    (!c.used a) = true := by
  rw [Bool.not_eq_true'] at h ⊢
  have hne : a ≠ src := by
    rintro rfl
    rw [markUsed_used (Or.inr rfl)] at h
    cases h
  have hsame : Function.update c.used src true a = c.used a := Function.update_of_ne hne _ _
  exact hsame.symm.trans h

theorem unused_markUsed_le (src : UInt8) : (c.markUsed src).unused ≤ c.unused :=
  List.countP_mono_left fun _ _ h => not_used_of_markUsed h

theorem unused_markUsed_lt {src : UInt8} (hmax : src ≤ ADDR_MAX) (hfree : c.used src = false) :
    (c.markUsed src).unused + 1 ≤ c.unused := by
  have hmem : src ∈ (List.range (ADDR_MAX.toNat + 1)).map UInt8.ofNat :=
    List.mem_map.mpr ⟨src.toNat, List.mem_range.mpr (Nat.lt_succ_of_le hmax), UInt8.ofNat_toNat⟩
  obtain ⟨before, after, hsplit⟩ := List.append_of_mem hmem
  have hmarked : (!(c.markUsed src).used src) = false := by
    rw [markUsed_used (Or.inr rfl)]
    rfl
  have hbefore : before.countP (fun a => !(c.markUsed src).used a) ≤ before.countP fun a => !c.used a :=
    List.countP_mono_left fun _ _ h => not_used_of_markUsed h
  have hafter : after.countP (fun a => !(c.markUsed src).used a) ≤ after.countP fun a => !c.used a :=
    List.countP_mono_left fun _ _ h => not_used_of_markUsed h
  rw [unused, unused, hsplit, List.countP_append, List.countP_append, List.countP_cons,
    List.countP_cons, hmarked, hfree, if_neg Bool.false_ne_true, if_pos (by rfl)]
  omega

/-- The claim of a new address, or of none, is paid for by two. -/
theorem settle_spends {c₀ : AddressClaim} {share : ℕ} (hname : c.name = name)
    (hpays : 2 + 2 * c.unused ≤ c₀.effort + share) (now : UInt64) (next : Option UInt8) :
    Drain.Spends (OwnFrame name) effort feedbackWeight c₀ share (c.settle now next) := by
  subst hname
  cases next with
  | some a =>
      constructor
      · intro f hf
        rw [List.mem_singleton.mp hf]
        exact ownFrame_claimFrame rfl
      · rw [settle, Drain.load_cons, Drain.load_nil, feedbackWeight_claimFrame]
        change 1 + 2 * c.unused + 1 ≤ _
        omega
  | none =>
      constructor
      · intro f hf
        rw [List.mem_singleton.mp hf]
        exact ownFrame_claimFrame rfl
      · rw [settle, Drain.load_cons, Drain.load_nil, feedbackWeight_claimFrame]
        change 0 + 2 * c.unused + 1 ≤ _
        omega

/-- A claim under a higher name is to be paid for: the node defends its address. -/
theorem onAddressClaim_spends (hc : c.Clean) (now : UInt64) (src : UInt8) {theirName : UInt64}
    {share : ℕ} (hshare : c.name < theirName → 2 ≤ share) :
    Drain.Spends (OwnFrame c.name) effort feedbackWeight c share
      (c.onAddressClaim now src theirName) := by
  rw [onAddressClaim]
  split_ifs with hout hown hlearn hwon
  · exact .idle le_rfl share
  · exact .idle le_rfl share
  · refine .idle ?_ share
    exact Nat.add_le_add_left (Nat.mul_le_mul_left 2 (unused_markUsed_le src)) _
  · constructor
    · intro f hf
      rw [List.mem_singleton.mp hf]
      exact ownFrame_claimFrame rfl
    · have hpaid := hshare hwon
      rw [Drain.load_cons, Drain.load_nil, feedbackWeight_claimFrame]
      change 1 + 2 * c.unused + 1 ≤ phases c.state + 2 * c.unused + share
      omega
  · obtain ⟨hmax, hfree⟩ := hc.active (hc.active_of_contested hout hlearn)
    rw [not_or, not_not] at hlearn
    rw [← hlearn.2] at hmax hfree
    have hlost := unused_markUsed_lt hmax hfree
    dsimp only
    refine settle_spends (c := c.markUsed src) rfl ?_ now _
    rw [effort]
    omega

theorem claimed?_isSome : c.claimed?.isSome = true ↔ c.state = .Claimed := by
  rw [claimed?]
  split_ifs with h
  · exact iff_of_true rfl h
  · exact iff_of_false Bool.false_ne_true h

theorem settle_not_claimed (now : UInt64) (next : Option UInt8) :
    (c.settle now next).1.state ≠ .Claimed := by
  cases next with
  | some a => exact ClaimState.noConfusion
  | none => exact ClaimState.noConfusion

/-- No claim of another node brings the address. -/
theorem claimed_of_onAddressClaim {now : UInt64} {src : UInt8} {theirName : UInt64}
    (h : (c.onAddressClaim now src theirName).1.state = .Claimed) : c.state = .Claimed := by
  rw [onAddressClaim] at h
  split_ifs at h
  · exact h
  · exact h
  · exact h
  · exact absurd h (settle_not_claimed now _)

end AddressClaim

namespace Motion

variable {F : Type} [Float64 F] {m : Motion} {id : UInt32} {env : DeviceEnv} {d : DecodedPgn F}

/-- What holds of the node in every run. -/
structure Own (id : UInt32) (m : Motion) : Prop where
  clean : m.claim.Clean
  name : m.claim.name = buildName id

/-- Before the first call also the request for the claims of all is to come, and their answers. -/
def potential (m : Motion) : ℕ :=
  (if m.started then AddressClaim.phases m.claim.state else 261) + 2 * m.claim.unused

theorem new_own (id : UInt32) : (new id).Own id :=
  ⟨(AddressClaim.Created.new (buildName id) PREFERRED_ADDRESS true (by decide)).clean, rfl⟩

theorem Own.call (h : m.Own id) {m' : Motion} (k : TimedCall)
    (hclaim : m'.claim = (m.claim.call k).1) : m'.Own id := by
  have hkeeps := AddressClaim.call_keeps m.claim k
  refine ⟨?_, ?_⟩
  · rw [hclaim]
    exact h.clean.keeps (h.clean.call k) hkeeps
  · rw [hclaim, hkeeps.name, h.name]

theorem begin_own (h : m.Own id) (now : ℕ) : (m.begin now).1.Own id := by
  rw [begin]
  dsimp only
  split_ifs
  · exact ⟨h.clean, h.name⟩
  · exact h.call ⟨m.nowMs now, .start⟩ rfl

variable (env d) in
theorem heed_own (h : m.Own id) (nowMs : UInt64) : (m.heed env d nowMs).1.Own id := by
  rw [heed]
  split_ifs
  · split
    next theirName _ => exact h.call ⟨nowMs, .claim d.src theirName⟩ rfl
    next => exact h
  · exact h
  · have hclaim : (m.maybeEmitRates d).1.claim = m.claim := maybeEmitRates_claim
    exact ⟨by rw [hclaim]; exact h.clean, by rw [hclaim]; exact h.name⟩
  · exact h

variable (env) in
theorem settleDown_own (h : m.Own id) (wasClaimed : Bool) (nowMs : UInt64) :
    (m.settleDown env wasClaimed nowMs).1.Own id :=
  h.call ⟨nowMs, .tick⟩ rfl

variable (env d) in
theorem process_own (h : m.Own id) (now : ℕ) (wall : UInt64) : (m.process env d now wall).1.Own id :=
  settleDown_own env (heed_own env d (begin_own h now) (m.nowMs now))
    (m.begin now).1.claim.claimed?.isSome (m.nowMs now)

/-- What the claim spends, where the node has begun. -/
theorem spends_claim {Fine : RawFrame → Prop} {share : ℕ} (hstarted : m.started = true)
    {res : AddressClaim × List RawFrame}
    (h : Drain.Spends Fine AddressClaim.effort feedbackWeight m.claim share res) :
    Drain.Spends Fine potential feedbackWeight m share ({ m with claim := res.1 }, res.2) := by
  refine ⟨h.fine, ?_⟩
  rw [potential, potential, hstarted, if_pos rfl]
  exact h.pays

theorem begin_spends (now : ℕ) (name : UInt64) :
    Drain.Spends (OwnFrame name) potential feedbackWeight m 0 (m.begin now) := by
  rw [begin]
  dsimp only
  split_ifs with hstarted
  · refine .idle ?_ 0
    exact Nat.le_of_eq rfl
  · rw [AddressClaim.start]
    split_ifs with hdisabled
    · refine .idle ?_ 0
      rw [potential, potential, if_pos rfl, if_neg hstarted, hdisabled]
      exact Nat.add_le_add_right (Nat.zero_le 261) _
    · constructor
      · intro f hf
        rw [List.mem_singleton.mp hf]
        have hasks : (requestFrame ADDR_NULL ADDR_GLOBAL PGN_ISO_ADDRESS_CLAIM).pgn =
            PGN_ISO_REQUEST := rfl
        exact ownFrame_of_not_claim hasks (by decide) name
      · have hweight : feedbackWeight (requestFrame ADDR_NULL ADDR_GLOBAL PGN_ISO_ADDRESS_CLAIM) =
            259 := by
          decide
        rw [Drain.load_cons, Drain.load_nil, hweight, potential, potential, if_pos rfl,
          if_neg hstarted]
        change 2 + 2 * m.claim.unused + (259 + 0) ≤ 261 + 2 * m.claim.unused + 0
        omega

theorem productInfo_quiet : ∀ f ∈ (m.productInfo env).toList, f.pgn ∈ quietPgns := by
  intro f hf
  rw [Option.mem_toList, productInfo] at hf
  obtain ⟨addr, -, hframe⟩ := Option.bind_eq_some_iff.mp hf
  obtain ⟨b, -, rfl⟩ := Option.map_eq_some_iff.mp hframe
  exact List.mem_cons_self

theorem pgnLists_quiet : ∀ f ∈ m.pgnLists, f.pgn ∈ quietPgns := by
  intro f hf
  rw [pgnLists] at hf
  split at hf
  · obtain ⟨list, -, rfl⟩ := List.mem_map.mp hf
    exact List.mem_cons_of_mem _ List.mem_cons_self
  · cases hf

theorem length_pgnLists_le : m.pgnLists.length ≤ 2 := by
  rw [pgnLists]
  split
  · exact le_rfl
  · exact Nat.zero_le 2

/-- Frames that no quirk listens to, of a node that stays as it is. -/
theorem spends_quiet {frames : List RawFrame} (hquiet : ∀ f ∈ frames, f.pgn ∈ quietPgns)
    {share : ℕ} (hlen : frames.length ≤ share) (name : UInt64) :
    Drain.Spends (OwnFrame name) potential feedbackWeight m share (m, frames) := by
  refine ⟨fun f hf => ownFrame_of_quiet (hquiet f hf) name, ?_⟩
  rw [Drain.load_eq_length fun f hf => feedbackWeight_of_quiet (hquiet f hf)]
  exact Nat.add_le_add_left hlen _

/-- At most two frames answer a request. -/
theorem handleRequest_spends :
    Drain.Spends (OwnFrame m.claim.name) potential feedbackWeight m 2
      (m, m.handleRequest env d) := by
  rw [handleRequest]
  split
  · exact .idle le_rfl 2
  · split_ifs
    · rw [AddressClaim.respondToClaimRequest]
      split_ifs
      · constructor
        · intro f hf
          rw [List.mem_singleton.mp hf]
          exact ownFrame_claimFrame rfl
        · rw [Option.toList_some, Drain.load_cons, Drain.load_nil, feedbackWeight_claimFrame]
          exact Nat.add_le_add_left (by decide) _
      · exact .idle le_rfl 2
    · refine spends_quiet productInfo_quiet ?_ _
      exact (Option.length_toList_le).trans (by decide)
    · exact spends_quiet pgnLists_quiet length_pgnLists_le _
    · exact .idle le_rfl 2
    · exact .idle le_rfl 2

theorem maybeEmitRates_spends (name : UInt64) :
    Drain.Spends (OwnFrame name) potential feedbackWeight m 1 (m.maybeEmitRates d) := by
  rw [maybeEmitRates]
  split
  · dsimp only
    split_ifs
    · exact .idle le_rfl 1
    · refine .idle ?_ 1
      exact Nat.le_of_eq rfl
    · have hquiet : PGN_BG_RATES ∈ quietPgns := by decide
      constructor
      · intro f hf
        rw [List.mem_singleton.mp hf]
        exact ownFrame_of_quiet hquiet name
      · rw [Drain.load_cons, Drain.load_nil, feedbackWeight_of_quiet hquiet]
        exact le_rfl
  · exact .idle le_rfl 1

/-- What the record asks of the node, and a defence of its address. -/
theorem heed_spends (hstarted : m.started = true) (hm : m.Own id) {share : ℕ}
    (hshare : ∀ n, d.isoName = some n → buildName id < n → 2 ≤ share) (nowMs : UInt64) :
    Drain.Spends (OwnFrame (buildName id)) potential feedbackWeight m (motionShare d.pgn + share)
      (m.heed env d nowMs) := by
  rw [← hm.name] at hshare ⊢
  rw [heed]
  split_ifs with hclaim hrequest hrates
  · have hzero : motionShare PGN_ISO_ADDRESS_CLAIM = 0 := by decide
    rw [hclaim, hzero, Nat.zero_add]
    split
    next theirName htheirs =>
      exact spends_claim hstarted
        (AddressClaim.onAddressClaim_spends hm.clean nowMs d.src (hshare theirName htheirs))
    next => exact .idle le_rfl share
  · have htwo : motionShare PGN_ISO_REQUEST = 2 := by decide
    rw [hrequest, htwo]
    exact handleRequest_spends.mono (Nat.le_add_right 2 share)
  · have hone : motionShare PGN_SCX_6DOF = 1 := by decide
    rw [hrates, hone]
    exact (maybeEmitRates_spends _).mono (Nat.le_add_right 1 share)
  · exact .idle le_rfl _

variable (env d) in
theorem heed_claimed {nowMs : UInt64} (h : (m.heed env d nowMs).1.claim.state = .Claimed) :
    m.claim.state = .Claimed := by
  rw [heed] at h
  split_ifs at h
  · split at h
    · exact AddressClaim.claimed_of_onAddressClaim h
    · exact h
  · exact h
  · rwa [maybeEmitRates_claim] at h
  · exact h

/-- A node that does not come to an address has nothing to introduce. -/
theorem settleDown_quiet {wasClaimed : Bool} {nowMs : UInt64} {res : AddressClaim × List RawFrame}
    (htick : m.claim.tick nowMs = res)
    (hnone : res.1.state = .Claimed → wasClaimed = true) :
    m.settleDown env wasClaimed nowMs = ({ m with claim := res.1 }, res.2) := by
  rw [settleDown, htick]
  dsimp only
  rw [if_neg, List.append_nil]
  rw [Bool.and_eq_true, Bool.not_eq_true']
  rintro ⟨hwas, hclaimed⟩
  rw [hnone (AddressClaim.claimed?_isSome.mp hclaimed)] at hwas
  cases hwas

/-- A step to a claimed address pays for the claim, or for the introduction. -/
theorem settleDown_spends (hstarted : m.started = true) (hm : m.Own id) {wasClaimed : Bool}
    (hwas : m.claim.state = .Claimed → wasClaimed = true) (nowMs : UInt64) :
    Drain.Spends (OwnFrame (buildName id)) potential feedbackWeight m 0
      (m.settleDown env wasClaimed nowMs) := by
  rw [← hm.name]
  have hstay (htick : m.claim.tick nowMs = (m.claim, [])) :
      Drain.Spends (OwnFrame m.claim.name) potential feedbackWeight m 0
        (m.settleDown env wasClaimed nowMs) := by
    rw [settleDown_quiet htick hwas]
    exact .idle le_rfl 0
  cases hstate : m.claim.state with
  | Scanning =>
      by_cases hdue : m.claim.deadline ≤ nowMs
      · have htick : m.claim.tick nowMs = m.claim.beginClaim nowMs := by
          rw [AddressClaim.tick, hstate]
          exact if_pos hdue
        rw [settleDown_quiet htick fun h => absurd h (AddressClaim.settle_not_claimed _ _)]
        apply spends_claim hstarted
        apply AddressClaim.settle_spends rfl
        rw [AddressClaim.effort, hstate]
        exact le_rfl
      · apply hstay
        rw [AddressClaim.tick, hstate]
        exact if_neg hdue
  | Pending =>
      by_cases hdue : m.claim.deadline ≤ nowMs
      · have htick : m.claim.tick nowMs = ({ m.claim with state := .Claimed }, []) := by
          rw [AddressClaim.tick, hstate]
          exact if_pos hdue
        rw [settleDown, htick]
        dsimp only
        rw [List.nil_append]
        split
        · constructor
          · intro f hf
            exact ownFrame_of_quiet (productInfo_quiet f hf) _
          · rw [Drain.load_eq_length fun f hf => feedbackWeight_of_quiet (productInfo_quiet f hf),
              potential, potential, hstarted, if_pos rfl, if_pos rfl, hstate]
            refine (Nat.add_le_add_left Option.length_toList_le _).trans ?_
            change 0 + 2 * m.claim.unused + 1 ≤ 1 + 2 * m.claim.unused + 0
            omega
        · refine .idle ?_ 0
          rw [potential, potential, hstarted, if_pos rfl, if_pos rfl]
          exact Nat.add_le_add_right (Nat.zero_le _) _
      · apply hstay
        rw [AddressClaim.tick, hstate]
        exact if_neg hdue
  | Disabled =>
      apply hstay
      rw [AddressClaim.tick, hstate]
  | Claimed =>
      apply hstay
      rw [AddressClaim.tick, hstate]
  | Failed =>
      apply hstay
      rw [AddressClaim.tick, hstate]

theorem process_spends (hm : m.Own id) {share : ℕ}
    (hshare : ∀ n, d.isoName = some n → buildName id < n → 2 ≤ share) (now : ℕ) (wall : UInt64) :
    Drain.Spends (OwnFrame (buildName id)) potential feedbackWeight m (motionShare d.pgn + share)
      (m.process env d now wall) := by
  have hbegun := begin_own hm now
  have hon := begin_on m now
  have hheard := heed_own env d hbegun (m.nowMs now)
  have hstill : ((m.begin now).1.heed env d (m.nowMs now)).1.started = true :=
    (heed_rest env (m.nowMs now)).1.trans hon
  have hheeds : Drain.Spends (OwnFrame (buildName id)) potential feedbackWeight (m.begin now).1
      (motionShare d.pgn + share) ((m.begin now).1.heed env d (m.nowMs now)) :=
    heed_spends hon hbegun hshare (m.nowMs now)
  have hsettles : Drain.Spends (OwnFrame (buildName id)) potential feedbackWeight
      ((m.begin now).1.heed env d (m.nowMs now)).1 0
      (((m.begin now).1.heed env d (m.nowMs now)).1.settleDown env
        (m.begin now).1.claim.claimed?.isSome (m.nowMs now)) :=
    settleDown_spends hstill hheard
      (fun h => AddressClaim.claimed?_isSome.mpr (heed_claimed env d h)) (m.nowMs now)
  have hspent := ((begin_spends now (buildName id)).trans hheeds).trans hsettles
  rw [Nat.zero_add, Nat.add_zero] at hspent
  refine hspent.map ?_ ?_
  · intro f hf
    split_ifs
    · exact ⟨hf.claim, hf.whole⟩
    · exact hf
  · intro f
    split_ifs
    · exact feedbackWeight_of_pgn rfl
    · rfl

end Motion

/-! ## The quirks together -/

namespace Quirks

variable {F : Type} [Float64 F]

/-- What holds of the virtual node in every run. -/
def Own (id : UInt32) (q : Quirks F) : Prop := ∀ m ∈ q.motion, m.Own id

def potential (start : ℕ) (q : Quirks F) : ℕ :=
  q.wmm.elim 0 (WmmQuirk.potential start) + q.motion.elim 0 Motion.potential

omit [Float64 F] in
theorem new_own (id : UInt32) (kinds : List QuirkKind) : (new id kinds : Quirks F).Own id := by
  intro m hm
  rw [new] at hm
  dsimp only at hm
  split_ifs at hm
  · rw [← Option.some.inj hm]
    exact Motion.new_own id
  · cases hm

variable {env : QuirkEnv F} {q : Quirks F} {d : DecodedPgn F} {tick : QuirkTick} {kinds : List QuirkKind}

theorem processDecoded_own {id : UInt32} (h : q.Own id) : (q.processDecoded env d tick).1.Own id := by
  intro m' hm'
  obtain ⟨res, hres, rfl⟩ := Option.map_eq_some_iff.mp hm'
  obtain ⟨m, hm, rfl⟩ := Option.map_eq_some_iff.mp hres
  exact Motion.process_own env.device d (h m hm) tick.now tick.wall

theorem Reached.own (h : Reached env kinds q) : q.Own env.machineId := by
  induction h with
  | new => exact new_own env.machineId kinds
  | process q d tick h ih => exact processDecoded_own ih

/-- A quirk that may be left out. -/
theorem spends_output {S : Type} {Fine : RawFrame → Prop} {potential : S → ℕ} {share : ℕ}
    (s : Option S) (step : S → S × List RawFrame)
    (h : ∀ x ∈ s, Drain.Spends Fine potential feedbackWeight x share (step x)) :
    Drain.Spends Fine (fun o => o.elim 0 potential) feedbackWeight s share
      ((s.map step).map Prod.fst, output (s.map step)) := by
  cases s with
  | none => exact .idle le_rfl share
  | some x => exact ⟨(h x rfl).fine, (h x rfl).pays⟩

/-- What the databases define: product information and the variation in the one of SI units. -/
structure Defined (env : QuirkEnv F) : Prop where
  productInfo : Scx20.DefinesProductInfo env.wmm.db
  variation : WmmQuirk.DefinesVariation env.wmm.db

theorem processDecoded_spends (henv : Defined env) (hq : q.Own env.machineId) {share : ℕ}
    (hshare : ∀ n, d.isoName = some n → Motion.buildName env.machineId < n → 2 ≤ share)
    {start : ℕ} (hstart : start ≤ tick.now) (hend : tick.now < start + WmmQuirk.EMIT_INTERVAL) :
    Drain.Spends (OwnFrame (Motion.buildName env.machineId)) (potential start) feedbackWeight q
      (scx20Share d.pgn + wmmShare d.pgn + motionShare d.pgn + share)
      (q.processDecoded env d tick) := by
  have hscx20 := spends_output q.scx20 (fun s => s.process env.wmm.db d tick.now tick.wall)
    fun s _ => @Scx20.process_spends F _ (Motion.buildName env.machineId) _ henv.productInfo s d
      tick.now tick.wall
  have hwmm := spends_output q.wmm (fun w => w.process env.wmm d tick.now tick.wall)
    fun w _ => @WmmQuirk.process_spends F _ (Motion.buildName env.machineId) _ henv.variation w d
      _ _ hstart hend tick.wall
  have hmotion := spends_output q.motion (fun m => m.process env.device d tick.now tick.wall)
    fun m hm => Motion.process_spends (hq m hm) hshare tick.now tick.wall
  constructor
  · intro f hf
    rcases List.mem_append.mp hf with hf | hf
    · rcases List.mem_append.mp hf with hf | hf
      · exact hscx20.fine f hf
      · exact hwmm.fine f hf
    · exact hmotion.fine f hf
  · have hscx20Pays := hscx20.pays
    have hwmmPays := hwmm.pays
    have hmotionPays := hmotion.pays
    have hnone : ∀ s : Option Scx20, s.elim 0 (fun _ => 0) = 0 := by
      intro s
      cases s <;> rfl
    rw [hnone, hnone] at hscx20Pays
    rw [processDecoded, potential, potential, Drain.load_append, Drain.load_append]
    dsimp only at hscx20Pays hwmmPays hmotionPays ⊢
    omega

omit [Float64 F] in
/-- No quirk has more in store than for the names of all. -/
theorem potential_le (start : ℕ) (q : Quirks F) : q.potential start ≤ 771 := by
  have hwmm : q.wmm.elim 0 (WmmQuirk.potential start) ≤ 2 := by
    cases q.wmm with
    | none => exact Nat.zero_le 2
    | some w =>
        rw [Option.elim_some, WmmQuirk.potential]
        split_ifs
        · exact Nat.zero_le 2
        · exact le_rfl
  have hmotion : q.motion.elim 0 Motion.potential ≤ 769 := by
    cases q.motion with
    | none => exact Nat.zero_le 769
    | some m =>
        have hunused := m.claim.unused_le
        have hphases : ∀ state, AddressClaim.phases state ≤ 2 := by
          intro state
          cases state <;> decide
        have := hphases m.claim.state
        rw [Option.elim_some, Motion.potential]
        split_ifs
        · omega
        · omega
  exact Nat.add_le_add hwmm hmotion

end Quirks

/-! ## What comes back -/

theorem push_message {r : Reassembler} {f g : RawFrame} (hf : ¬f.IsTp) {packetType : FramePacketType}
    (h : (r.push f packetType).2.message = some g) :
    g.pgn = f.pgn ∧ (packetType ≠ .Fast → g = f) := by
  rw [Reassembler.push, if_neg fun h => hf (Or.inl h), if_neg fun h => hf (Or.inr h)] at h
  by_cases hpass : f.data.length > 8 ∨ packetType ≠ .Fast
  · rw [if_pos hpass] at h
    cases h
    exact ⟨rfl, fun _ => rfl⟩
  · rw [if_neg hpass] at h
    refine ⟨?_, fun hfast => absurd (Or.inr hfast) hpass⟩
    split at h
    · cases h
    · dsimp only at h
      split at h
      · cases h
      · rw [Slot.accept] at h
        dsimp only at h
        split_ifs at h
        · cases h
          rfl
        · cases h

/-- A record of a frame that comes back is of its PGN, and of the frame itself where its PGN fits
in one. -/
theorem pipelineStep_record {F : Type} [Float64 F] {db : PgnDatabase F} {driver : Driver}
    {f : RawFrame} {d : DecodedPgn F} (hf : ¬f.IsTp) (h : (pipelineStep db driver f).2 = some d) :
    ∃ g, db.decode? g = some d ∧ g.pgn = f.pgn ∧ (db.framePacketType f.pgn ≠ .Fast → g = f) := by
  rw [pipelineStep] at h
  dsimp only at h
  split_ifs at h
  · exact ⟨f, h, rfl, fun _ => rfl⟩
  · obtain ⟨g, hg, hd⟩ := Option.bind_eq_some_iff.mp h
    obtain ⟨hpgn, hsame⟩ := push_message hf hg
    exact ⟨g, hd, hpgn, hsame⟩

/-- The database has the one definition of the address claim. -/
structure DecodesClaims (db : PgnDatabase Binary64) : Prop where
  built : (Build.generate (db.pgns.map PgnInfo.raw)).isSome
  variants : db.pgnVariants 60928 = [isoAddressClaim]

theorem DecodesClaims.pickVariant {db : PgnDatabase Binary64} (hdb : DecodesClaims db)
    {f : RawFrame} (hpgn : f.pgn = 60928) : db.pickVariant f = some isoAddressClaim := by
  refine db.pickVariant_of_single hdb.built ?_ (by decide +kernel)
  rw [hpgn]
  exact hdb.variants

theorem DecodesClaims.not_fast {db : PgnDatabase Binary64} (hdb : DecodesClaims db) :
    db.framePacketType 60928 ≠ .Fast := by
  have hfirst : db.firstPgn 60928 = some isoAddressClaim := by
    have h := congrArg List.head? hdb.variants
    rwa [PgnDatabase.pgnVariants, List.head?_filter] at h
  rw [PgnDatabase.framePacketType, hfirst]
  exact FramePacketType.noConfusion

/-- The reserved bit of the NAME. -/
theorem buildName_spare (machineId : UInt32) :
    (Motion.buildName machineId).toNat / 281474976710656 % 2 = 0 := by
  have hname : Motion.buildName machineId =
      (machineId &&& 0x1fffff).toUInt64 ||| Motion.buildName 0 := by
    rw [Motion.buildName, Motion.buildName, Name.toU64, Name.toU64]
    simp only [Name.new, UInt64.or_assoc]
    rfl
  have hlow : (machineId &&& 0x1fffff).toUInt64.toNat < 2 ^ 21 := by
    rw [UInt32.toNat_toUInt64, UInt32.toNat_and]
    exact Nat.lt_of_le_of_lt Nat.and_le_right (by decide)
  have hbit : (Motion.buildName machineId).toNat.testBit 48 = false := by
    rw [hname, UInt64.toNat_or, Nat.testBit_or,
      Nat.testBit_lt_two_pow (hlow.trans (Nat.pow_lt_pow_right (by decide) (by decide))),
      Bool.false_or]
    decide
  rw [Nat.testBit_eq_decide_div_mod_eq, decide_eq_false_iff_not] at hbit
  have := Nat.mod_two_eq_zero_or_one ((Motion.buildName machineId).toNat / 2 ^ 48)
  omega

/-- A claim of the virtual node comes back under its own NAME or a lower one, where a part of it
stands for no value. -/
theorem isoName_of_own {db : PgnDatabase Binary64} (hdb : DecodesClaims db) {machineId : UInt32}
    {f : RawFrame} (hf : OwnFrame (Motion.buildName machineId) f) {driver : Driver}
    {d : DecodedPgn Binary64} (hrecord : (pipelineStep db driver f).2 = some d) {name : UInt64}
    (hname : d.isoName = some name) : name ≤ Motion.buildName machineId := by
  obtain ⟨g, hd, hpgn, hsame⟩ := pipelineStep_record hf.whole hrecord
  have hclaim : d.pgn = 60928 := by
    rw [DecodedPgn.isoName] at hname
    split_ifs at hname with h
    exact not_not.mp h
  have hgpgn : g.pgn = d.pgn := by
    unfold PgnDatabase.decode? PgnDatabase.decode at hd
    split at hd
    · cases hd
    · cases hd
      rfl
  rw [hclaim] at hgpgn
  have hfpgn : f.pgn = 60928 := hpgn.symm.trans hgpgn
  obtain rfl := hsame (by rw [hfpgn]; exact hdb.not_fast)
  have hdata := hf.claim hfpgn
  rw [PgnDatabase.decode?, decode_claim (hdb.pickVariant hfpgn)] at hd
  cases hd
  have hlt : (Motion.buildName machineId).toNat < 256 ^ 8 := (Motion.buildName machineId).toNat_lt
  have hspare : bitsAt g.data 48 1 = 0 := by
    rw [hdata, bitsAt, LittleEndian.decode_encode_of_lt hlt]
    exact buildName_spare machineId
  have hle := isoName_le db (by rw [hdata, LittleEndian.length_encode]) hspare hname
  rwa [payloadName, hdata, LittleEndian.decode_encode_of_lt hlt, UInt64.ofNat_toNat] at hle

/-! ## The loop ends -/

namespace Pipeline

/-- More frames than this never come of one record. -/
def FEEDBACK_BOUND : ℕ := 1032

def Own (id : UInt32) (p : Pipeline Binary64) : Prop := p.quirks.Own id

def potential (start : ℕ) (p : Pipeline Binary64) : ℕ := p.quirks.potential start

variable {env : QuirkEnv Binary64} {db : PgnDatabase Binary64}

theorem ownFrame_stampOwn {name : UInt64} (ownAddr : Option UInt8) (f : RawFrame)
    (hf : OwnFrame name f) : OwnFrame name (stampOwn ownAddr f) := by
  unfold stampOwn
  split
  · split_ifs
    · exact ⟨hf.claim, hf.whole⟩
    · exact hf
  · exact hf

theorem feedbackWeight_stampOwn (ownAddr : Option UInt8) (f : RawFrame) :
    feedbackWeight (stampOwn ownAddr f) = feedbackWeight f := by
  unfold stampOwn
  split
  · split_ifs
    · exact feedbackWeight_of_pgn rfl
    · rfl
  · rfl

theorem process_spends (henv : Quirks.Defined env) {p : Pipeline Binary64} (hp : p.Own env.machineId)
    {d : DecodedPgn Binary64} {share : ℕ}
    (hshare : ∀ n, d.isoName = some n → Motion.buildName env.machineId < n → 2 ≤ share)
    {start : ℕ} {tick : QuirkTick} (hstart : start ≤ tick.now)
    (hend : tick.now < start + WmmQuirk.EMIT_INTERVAL) :
    Drain.Spends (OwnFrame (Motion.buildName env.machineId)) (potential start) feedbackWeight p
      (scx20Share d.pgn + wmmShare d.pgn + motionShare d.pgn + share) (p.process env tick d) := by
  have hspent := (Quirks.processDecoded_spends henv hp hshare hstart hend).map
    (f := stampOwn tick.ownAddr) (ownFrame_stampOwn _) (feedbackWeight_stampOwn _)
  exact ⟨hspent.fine, hspent.pays⟩

/-- A frame that comes back pays for what the quirks answer to it, and for itself. -/
theorem feed_pays (henv : Quirks.Defined env) (hdb : DecodesClaims db) {start : ℕ}
    {tick : QuirkTick} (hstart : start ≤ tick.now)
    (hend : tick.now < start + WmmQuirk.EMIT_INTERVAL) :
    Drain.Pays (feed env db) tick (Own env.machineId) (OwnFrame (Motion.buildName env.machineId))
      (potential start) feedbackWeight := by
  have hstep : ∀ (p : Pipeline Binary64) (f : RawFrame), p.Own env.machineId →
      OwnFrame (Motion.buildName env.machineId) f → ∀ {d}, (pipelineStep db p.driver f).2 = some d →
      d.pgn = f.pgn ∧ ∀ n, d.isoName = some n → Motion.buildName env.machineId < n → 2 ≤ 0 := by
    intro p f hp hf d hrecord
    obtain ⟨g, hd, hpgn, -⟩ := pipelineStep_record hf.whole hrecord
    refine ⟨?_, fun n hn hlt => ?_⟩
    · rw [← hpgn]
      unfold PgnDatabase.decode? PgnDatabase.decode at hd
      split at hd
      · cases hd
      · cases hd
        rfl
    · exact absurd (isoName_of_own hdb hf hrecord hn) (UInt64.not_le.mpr hlt)
  constructor
  · intro p f hp hf
    rw [feed]
    dsimp only
    split
    · exact hp
    · exact Quirks.processDecoded_own hp
  · intro p f hp hf
    rw [feed]
    dsimp only
    split
    · exact nofun
    next d hrecord =>
      obtain ⟨-, hshare⟩ := hstep p f hp hf hrecord
      exact (process_spends henv (p := { p with driver := (pipelineStep db p.driver f).1 }) hp hshare
        hstart hend).fine
  · intro p f hp hf
    rw [feed]
    dsimp only
    split
    · rw [Drain.load_nil, feedbackWeight, Nat.add_zero, Nat.add_assoc, Nat.add_assoc]
      exact Nat.add_le_add_left (Nat.le_add_right 1 _) _
    next d hrecord =>
      obtain ⟨hpgn, hshare⟩ := hstep p f hp hf hrecord
      have hpays := (process_spends henv (p := { p with driver := (pipelineStep db p.driver f).1 })
        hp hshare hstart hend).pays
      rw [hpgn, Nat.add_zero] at hpays
      rw [feedbackWeight]
      change _ ≤ potential start p + _ at hpays
      omega

/-- What is left of the queue when a record has been processed, and a frame for each tick. -/
def feedback (env : QuirkEnv Binary64) (db : PgnDatabase Binary64) (p : Pipeline Binary64)
    (d : DecodedPgn Binary64) (start : QuirkTick) (ticks : List QuirkTick) : List RawFrame :=
  (Drain.drain (feed env db) ticks (p.process env start d).1 (p.process env start d).2).2

/-- **The queue runs empty** after each record, whatever came before it. -/
theorem feedback_drains (env : QuirkEnv Binary64) (henv : Quirks.Defined env)
    (db : PgnDatabase Binary64) (hdb : DecodesClaims db) (kinds : List QuirkKind)
    (q : Quirks Binary64) (hq : Quirks.Reached env kinds q) (driver : Driver)
    (d : DecodedPgn Binary64) (start : QuirkTick) (ticks : List QuirkTick)
    (hticks : ∀ tick ∈ ticks, start.now ≤ tick.now ∧ tick.now < start.now + seconds 1)
    (hmany : FEEDBACK_BOUND ≤ ticks.length) : feedback env db ⟨driver, q⟩ d start ticks = [] := by
  have hshare : ∀ n, d.isoName = some n → Motion.buildName env.machineId < n → 2 ≤ 2 :=
    fun _ _ _ => le_rfl
  have hbegun := process_spends henv (p := ⟨driver, q⟩) hq.own hshare (le_refl start.now)
    (Nat.lt_add_of_pos_right (by decide))
  have hgood : Own env.machineId (process env start ⟨driver, q⟩ d).1 :=
    Quirks.processDecoded_own hq.own
  have hpays : ∀ tick ∈ ticks, Drain.Pays (feed env db) tick (Own env.machineId)
      (OwnFrame (Motion.buildName env.machineId)) (potential start.now) feedbackWeight :=
    fun tick htick => feed_pays henv hdb (hticks tick htick).1 (hticks tick htick).2
  refine Drain.drain_eq_nil ?_ hpays hgood hbegun.fine ?_
  · intro f
    rw [feedbackWeight, Nat.add_assoc, Nat.add_assoc]
    exact Nat.le_add_right 1 _
  · refine hbegun.pays.trans (le_trans ?_ hmany)
    have hpotential := q.potential_le start.now
    have hshares : scx20Share d.pgn ≤ 256 ∧ wmmShare d.pgn ≤ 1 ∧ motionShare d.pgn ≤ 2 := by
      rw [scx20Share, wmmShare, motionShare]
      refine ⟨?_, ?_, ?_⟩ <;> split_ifs <;> decide
    rw [FEEDBACK_BOUND]
    change q.potential start.now + _ ≤ 1032
    omega

/-! ## All quirks at once -/

def variationNumber (order : UInt8) (id : Identifier) (name : String) (bitOffset bitLength : UInt32)
    (fieldType : FieldType) : FieldInfo Binary64 :=
  { claimNumber order id name bitOffset bitLength with fieldType := some fieldType }

def variationInfo : PgnInfo Binary64 where
  pgn := PGN_MAGNETIC_VARIATION
  id := WmmQuirk.magneticVariation
  description := "Magnetic Variation"
  packetType := .single
  fallback := none
  priority := some 7
  length := some 8
  fields :=
    [ claimNumber 1 ⟨"sid", Eq.refl true⟩ "SID" 0 8,
      { variationNumber 2 ⟨"source", Eq.refl true⟩ "Source" 8 4 .lookup with
        lookupEnumeration := some "MAGNETIC_VARIATION" },
      variationNumber 3 ⟨"reserved", by decide⟩ "Reserved" 12 4 .reserved,
      variationNumber 4 ⟨"ageOfService", Eq.refl true⟩ "Age of service" 16 16 .date,
      { claimNumber 5 ⟨"variation", Eq.refl true⟩ "Variation" 32 16 with
        resolution := some (Float64.ofRat 0.0001), signed := some true, unit := some "rad" },
      variationNumber 6 ⟨"reserved6", by decide⟩ "Reserved" 48 16 .reserved ]
  repeatingFieldSet1 := .none
  repeatingFieldSet2 := .none
  idIsPinned := false

/-- A database of what the quirks send and hear. -/
def feedbackDatabase : PgnDatabase Binary64 where
  units := .si
  pgns := [Scx20.isoRequest, isoAddressClaim, Scx20.productInfo, variationInfo]
  lookups := []
  bitLookups := []
  indirectLookups := []
  fieldTypeLookups := []
  claimFlat := by decide +kernel

theorem feedbackDatabase_decodesClaims : DecodesClaims feedbackDatabase where
  built := by decide +kernel
  variants := rfl

def feedbackEnv : QuirkEnv Binary64 where
  wmm := { db := feedbackDatabase, variationRad := fun _ _ _ => none }
  device := { packetType := fun _ => .Single, buildProductInfo := fun _ => none, pkgVersion := "1" }
  machineId := 7

theorem feedbackEnv_defined : Quirks.Defined feedbackEnv where
  productInfo := by
    intro info h
    have hall : (feedbackDatabase.pgnById Scx20.productInformation).all fun info =>
        info.pgn = PGN_PRODUCT_INFO := by
      decide +kernel
    rw [show feedbackDatabase.pgnById Scx20.productInformation = some info from h] at hall
    exact of_decide_eq_true hall
  variation := by
    intro info h
    have hall : (feedbackDatabase.pgnById WmmQuirk.magneticVariation).all fun info =>
        info.pgn = PGN_MAGNETIC_VARIATION := by
      decide +kernel
    rw [show feedbackDatabase.pgnById WmmQuirk.magneticVariation = some info from h] at hall
    exact of_decide_eq_true hall

/-- A compass claims address 52. -/
def compassClaim : DecodedPgn Binary64 :=
  decodedClaim feedbackDatabase
    ⟨none, 6, 60928, 52, 255, [0x64, 0x43, 0xe0, 0xe7, 0x00, 0x8c, 0x78, 0xc0]⟩

/-- The virtual node begins, and asks all for their claims. -/
theorem feedback_drains_compassClaim :
    (process feedbackEnv ⟨0, 0, some 10⟩ ⟨.start false, .new 7 [.Scx20, .Wmm, .Motion]⟩
      compassClaim).2 ≠ [] ∧
    feedback feedbackEnv feedbackDatabase ⟨.start false, .new 7 [.Scx20, .Wmm, .Motion]⟩
      compassClaim ⟨0, 0, some 10⟩ (List.replicate 1032 ⟨5000000, 0, some 10⟩) = [] := by
  constructor
  · decide +kernel
  · refine feedback_drains feedbackEnv feedbackEnv_defined feedbackDatabase
      feedbackDatabase_decodesClaims [.Scx20, .Wmm, .Motion] _ .new (.start false) compassClaim
      ⟨0, 0, some 10⟩ _ ?_ ?_
    · intro tick htick
      rw [List.eq_of_mem_replicate htick]
      exact ⟨by decide, by decide⟩
    · rw [List.length_replicate]
      exact le_rfl

end Pipeline

end Canboat
