import Canboat.Io.AddressClaim
import Canboat.Lib.Exclusive
import Mathlib.Data.Fintype.Basic
import Mathlib.Data.Multiset.Bind

/-!
# Address-claim agreement

Any finite number of nodes on one bus. A node joins by `start`; from then on it
is ticked, asked for its claim and handed the claims of others, in any order and
at any non-decreasing times. Every claim frame a node emits is put in flight to
every node that has joined; frames in flight may be delayed and reordered, and
are not lost.

The bus refines the announcement discipline of `Exclusive` (`Step.refines`), so
two active nodes with one address always have a claim for it in flight between
them.
-/

namespace Canboat

/-- What a node is built from. -/
structure NodeConfig where
  name : UInt64
  preferred : UInt8
  arbitrary : Bool

/-- The nodes that have joined, the claim frames in flight by recipient, and the time. -/
structure AddressBus (ι : Type*) where
  nodes : ι → Option AddressClaim
  flight : Multiset (ι × RawFrame)
  clock : UInt64

namespace AddressBus

open AddressClaim

variable {ι : Type*} [Fintype ι] [DecidableEq ι] {cfg : ι → NodeConfig} {b b' : AddressBus ι}

def empty : AddressBus ι where
  nodes _ := none
  flight := 0
  clock := 0

/-- The claim frames among `out`, one copy for each node that has joined. -/
def broadcast (nodes : ι → Option AddressClaim) (out : List RawFrame) : Multiset (ι × RawFrame) :=
  (Finset.univ.filter fun j => (nodes j).isSome).val.bind fun j =>
    Multiset.ofList ((out.filter fun f => f.pgn = PGN_ISO_ADDRESS_CLAIM).map fun f => (j, f))

/-- Node `i` after a call that left it in `res.1` and emitted `res.2`, with the frames
`flight` still on their way. -/
def after (b : AddressBus ι) (i : ι) (flight : Multiset (ι × RawFrame)) (now : UInt64)
    (res : AddressClaim × List RawFrame) : AddressBus ι :=
  let nodes := Function.update b.nodes i (some res.1)
  { nodes, flight := flight + broadcast nodes res.2, clock := now }

inductive Step (cfg : ι → NodeConfig) : AddressBus ι → AddressBus ι → Prop where
  | join (b : AddressBus ι) (i : ι) (now : UInt64) (ht : b.clock ≤ now) (hi : b.nodes i = none) :
      Step cfg b (b.after i b.flight now
        ((new (cfg i).name (cfg i).preferred (cfg i).arbitrary).start now))
  | tick (b : AddressBus ι) (i : ι) (now : UInt64) (ht : b.clock ≤ now) (c : AddressClaim)
      (hi : b.nodes i = some c) : Step cfg b (b.after i b.flight now (c.tick now))
  | respond (b : AddressBus ι) (i : ι) (now : UInt64) (ht : b.clock ≤ now) (c : AddressClaim)
      (hi : b.nodes i = some c) :
      Step cfg b (b.after i b.flight now (c, c.respondToClaimRequest.toList))
  | deliver (b : AddressBus ι) (i : ι) (now : UInt64) (ht : b.clock ≤ now) (c : AddressClaim)
      (hi : b.nodes i = some c) (frame : RawFrame) (hf : (i, frame) ∈ b.flight) :
      Step cfg b (b.after i (b.flight.erase (i, frame)) now
        (c.onAddressClaim now frame.src (nameOf frame)))

/-- A state some run of the bus leads to. -/
def Reachable (cfg : ι → NodeConfig) (b : AddressBus ι) : Prop :=
  Relation.ReflTransGen (Step cfg) empty b

/-- A claim for address `a` by node `i` is in flight to node `j`. -/
def ClaimInFlight (cfg : ι → NodeConfig) (b : AddressBus ι) (i j : ι) (a : UInt8) : Prop :=
  ∃ f, (j, f) ∈ b.flight ∧ f.pgn = PGN_ISO_ADDRESS_CLAIM ∧ f.src = a ∧ nameOf f = (cfg i).name

/-! ## The invariant of single nodes -/

/-- Every node has started, under the NAME of its configuration. -/
def NodesOk (cfg : ι → NodeConfig) (b : AddressBus ι) : Prop :=
  ∀ i c, b.nodes i = some c → c.Started ∧ c.name = (cfg i).name

/-- The shape all steps share: a call on one node, with at most one frame taken from those
in flight to it. -/
theorem Step.cases (hpref : ∀ i, (cfg i).preferred ≤ ADDR_MAX) (hok : NodesOk cfg b)
    (h : Step cfg b b') :
    ∃ i flight now res, b' = b.after i flight now res ∧
      (∀ j f, j ≠ i → (j, f) ∈ b.flight → (j, f) ∈ flight) ∧
      res.1.Started ∧ res.1.name = (cfg i).name ∧
      -- the node is silent on the bus, or has just broadcast where it is, or it keeps its
      -- address and the frames in flight about it
      (¬ res.1.Active ∨ res.1.claimFrame ∈ res.2 ∨
        ∃ c, b.nodes i = some c ∧ c.Active ∧ res.1.address = c.address ∧
          ∀ f, f.src = c.address → nameOf f ≠ c.name → (i, f) ∈ b.flight → (i, f) ∈ flight) := by
  cases h with
  | join i now ht hi =>
      obtain ⟨hstarted, hidle, hname⟩ := start_new (hpref i)
      exact ⟨i, b.flight, now, _, rfl, fun _ _ _ h => h, hstarted, hname, Or.inl hidle⟩
  | tick i now ht c hi =>
      obtain ⟨hc, hname⟩ := hok i c hi
      have hcall : Call c (c.tick now) := tick_call hc
      obtain ⟨hstarted, hkeep⟩ := hcall.keeps hc
      refine ⟨i, b.flight, now, _, rfl, fun _ _ _ h => h, hstarted, hkeep.trans hname, ?_⟩
      generalize c.tick now = res at hcall
      cases hcall with
      | quiet c' _ _ hstate haddr =>
          by_cases hact : c'.Active
          · refine Or.inr (Or.inr ⟨c, hi, ?_, haddr, fun _ _ _ h => h⟩)
            rcases hstate with h | ⟨h, -⟩
            · unfold Active at hact ⊢
              rwa [h] at hact
            · exact Or.inl h
          · exact Or.inl hact
      | moved c' _ _ _ => exact Or.inr (Or.inl (List.mem_singleton_self _))
  | respond i now ht c hi =>
      obtain ⟨hc, hname⟩ := hok i c hi
      refine ⟨i, b.flight, now, _, rfl, fun _ _ _ h => h, hc, hname, ?_⟩
      by_cases hact : c.Active
      · refine Or.inr (Or.inl ?_)
        unfold respondToClaimRequest
        rw [if_pos hact.symm]
        exact List.mem_singleton_self _
      · exact Or.inl hact
  | deliver i now ht c hi frame hf =>
      obtain ⟨hc, hname⟩ := hok i c hi
      have hcall : Call c (c.onAddressClaim now frame.src (nameOf frame)) :=
        onAddressClaim_call frame.src (nameOf frame)
      obtain ⟨hstarted, hkeep⟩ := hcall.keeps hc
      refine ⟨i, b.flight.erase (i, frame), now, _, rfl, ?_, hstarted, hkeep.trans hname, ?_⟩
      · intro j f hj hmem
        exact (Multiset.mem_erase_of_ne fun heq => hj (congrArg Prod.fst heq)).mpr hmem
      · have hansw : c.Active → frame.src = c.address → nameOf frame ≠ c.name →
            (c.onAddressClaim now frame.src (nameOf frame)).2 ≠ [] := by
          intro hact hsrc hne
          rw [hsrc]
          exact onAddressClaim_answers hact (hc.active hact) hne
        generalize c.onAddressClaim now frame.src (nameOf frame) = res at hcall hansw
        cases hcall with
        | quiet c' _ _ hstate haddr =>
            by_cases hact : c'.Active
            · have hact' : c.Active := by
                rcases hstate with h | ⟨h, -⟩
                · unfold Active at hact ⊢
                  rwa [h] at hact
                · exact Or.inl h
              -- a frame the node did not answer is not about its address
              refine Or.inr (Or.inr ⟨c, hi, hact', haddr, fun f hsrc hne hmem => ?_⟩)
              refine (Multiset.mem_erase_of_ne fun heq => ?_).mpr hmem
              have hff : f = frame := congrArg Prod.snd heq
              subst hff
              exact hansw hact' hsrc hne rfl
            · exact Or.inl hact
        | moved c' _ _ _ => exact Or.inr (Or.inl (List.mem_singleton_self _))

theorem Step.nodesOk (hpref : ∀ i, (cfg i).preferred ≤ ADDR_MAX) (hok : NodesOk cfg b)
    (h : Step cfg b b') : NodesOk cfg b' := by
  obtain ⟨i, flight, now, res, rfl, -, hstarted, hname, -⟩ := h.cases hpref hok
  intro j c hj
  by_cases hji : j = i
  · subst hji
    have hc : res.1 = c := by
      have : Function.update b.nodes j (some res.1) j = some c := hj
      rwa [Function.update_self, Option.some.injEq] at this
    rw [← hc]
    exact ⟨hstarted, hname⟩
  · have hc : Function.update b.nodes i (some res.1) j = some c := hj
    rw [Function.update_of_ne hji] at hc
    exact hok j c hc

/-! ## The bus refines the announcement discipline -/

/-- The address an active node holds. -/
def holding (c : AddressClaim) : Option UInt8 := if c.Active then some c.address else none

/-- The abstract state: what each node holds, and who is about to hear whose claim. -/
def abstract (cfg : ι → NodeConfig) (b : AddressBus ι) : Exclusive.State ι UInt8 where
  holds i := (b.nodes i).bind holding
  inFlight := { m | ClaimInFlight cfg b m.1 m.2.1 m.2.2 }

omit [Fintype ι] [DecidableEq ι] in
theorem holds_eq_some {i : ι} {a : UInt8} :
    (abstract cfg b).holds i = some a ↔ ∃ c, b.nodes i = some c ∧ c.Active ∧ c.address = a := by
  show (b.nodes i).bind holding = some a ↔ _
  rw [Option.bind_eq_some_iff]
  refine exists_congr fun c => and_congr_right fun _ => ?_
  unfold holding
  split_ifs with h
  · rw [Option.some.injEq]
    exact ⟨fun ha => ⟨h, ha⟩, fun ha => ha.2⟩
  · constructor
    · intro ha
      cases ha
    · exact fun ha => absurd ha.1 h

omit [DecidableEq ι] in
theorem mem_broadcast {nodes : ι → Option AddressClaim} {out : List RawFrame} {j : ι}
    {f : RawFrame} (hj : (nodes j).isSome) (hf : f ∈ out) (hp : f.pgn = PGN_ISO_ADDRESS_CLAIM) :
    (j, f) ∈ broadcast nodes out := by
  unfold broadcast
  rw [Multiset.mem_bind]
  refine ⟨j, Finset.mem_filter.mpr ⟨Finset.mem_univ j, hj⟩, ?_⟩
  rw [Multiset.mem_coe, List.mem_map]
  exact ⟨f, List.mem_filter.mpr ⟨hf, decide_eq_true hp⟩, rfl⟩

/-- **Refinement.** Each step of the bus is a step of the announcement discipline. -/
theorem Step.refines (hpref : ∀ i, (cfg i).preferred ≤ ADDR_MAX)
    (hinj : Function.Injective fun i => (cfg i).name) (hok : NodesOk cfg b)
    (h : Step cfg b b') :
    ∃ i, Exclusive.Step i (abstract cfg b) (abstract cfg b') := by
  obtain ⟨i, flight, now, res, rfl, hkept, -, hname, hown⟩ := h.cases hpref hok
  have hself : (b.after i flight now res).nodes i = some res.1 := Function.update_self ..
  refine ⟨i, ?_, ?_, ?_⟩
  · intro j hj
    show (Function.update b.nodes i (some res.1) j).bind holding = (b.nodes j).bind holding
    rw [Function.update_of_ne hj]
  · rintro k j a hj ⟨f, hmem, hf⟩
    exact ⟨f, Multiset.mem_add.mpr (Or.inl (hkept j f hj hmem)), hf⟩
  · rcases hown with hidle | hann | ⟨c, hi, hact, haddr, hmsgs⟩
    · left
      show ((b.after i flight now res).nodes i).bind holding = none
      rw [hself]
      exact if_neg hidle
    · right; left
      intro a j ha _ hj
      obtain ⟨c, hc, -, haddr⟩ := holds_eq_some.mp ha
      rw [hself, Option.some.injEq] at hc
      obtain ⟨cj, hcj, -⟩ := holds_eq_some.mp hj
      refine ⟨res.1.claimFrame, Multiset.mem_add.mpr (Or.inr (mem_broadcast ?_ hann rfl)), rfl, ?_,
        (nameOf_claimFrame _).trans hname⟩
      · exact Option.isSome_iff_exists.mpr ⟨cj, hcj⟩
      · rw [← haddr, ← hc]
        rfl
    · by_cases hact' : res.1.Active
      · right; right
        have hholds : (abstract cfg b).holds i = some c.address :=
          holds_eq_some.mpr ⟨c, hi, hact, rfl⟩
        constructor
        · rw [hholds]
          exact holds_eq_some.mpr ⟨res.1, hself, hact', haddr⟩
        · rintro k a hk ha ⟨f, hmem, hp, hsrc, hfname⟩
          rw [hholds, Option.some.injEq] at ha
          refine ⟨f, Multiset.mem_add.mpr (Or.inl (hmsgs f (hsrc.trans ha.symm) ?_ hmem)), hp, hsrc,
            hfname⟩
          rw [hfname, (hok i c hi).2]
          exact fun heq => hk (hinj heq)
      · left
        show ((b.after i flight now res).nodes i).bind holding = none
        rw [hself]
        exact if_neg hact'

/-- A run of the bus keeps the nodes well formed and is a run of the discipline. -/
theorem Reachable.refines (hpref : ∀ i, (cfg i).preferred ≤ ADDR_MAX)
    (hinj : Function.Injective fun i => (cfg i).name) (h : Reachable cfg b) :
    NodesOk cfg b ∧ Relation.ReflTransGen (fun s s' => ∃ i, Exclusive.Step i s s')
      (abstract cfg empty) (abstract cfg b) := by
  induction h with
  | refl =>
      refine ⟨?_, Relation.ReflTransGen.refl⟩
      intro i c hi
      cases hi
  | tail _ hstep ih =>
      obtain ⟨hok, hrun⟩ := ih
      exact ⟨hstep.nodesOk hpref hok, hrun.tail (hstep.refines hpref hinj hok)⟩

omit [Fintype ι] [DecidableEq ι] in
theorem empty_noticed : Exclusive.Noticed (abstract cfg (empty : AddressBus ι)) := by
  intro i j a _ hi _
  cases hi

/-- **Address-claim agreement.** In every reachable state, two different nodes that are
both `Pending` or `Claimed` with one address have a claim of one of them for it in flight to
the other. When no claim is in flight, the addresses are pairwise distinct. -/
theorem address_claim_agreement (hpref : ∀ i, (cfg i).preferred ≤ ADDR_MAX)
    (hinj : Function.Injective fun i => (cfg i).name) (h : Reachable cfg b) :
    (∀ i j ci cj, i ≠ j → b.nodes i = some ci → b.nodes j = some cj → ci.Active → cj.Active →
      ci.address = cj.address →
        ClaimInFlight cfg b i j ci.address ∨ ClaimInFlight cfg b j i ci.address) ∧
    ((∀ m ∈ b.flight, m.2.pgn ≠ PGN_ISO_ADDRESS_CLAIM) →
      ∀ i j ci cj, i ≠ j → b.nodes i = some ci → b.nodes j = some cj → ci.Active → cj.Active →
        ci.address ≠ cj.address) := by
  have hnoticed : Exclusive.Noticed (abstract cfg b) :=
    empty_noticed.run (h.refines hpref hinj).2
  constructor
  · intro i j ci cj hij hi hj hacti hactj haddr
    exact hnoticed i j ci.address hij (holds_eq_some.mpr ⟨ci, hi, hacti, rfl⟩)
      (holds_eq_some.mpr ⟨cj, hj, hactj, haddr.symm⟩)
  · intro hquiet i j ci cj hij hi hj hacti hactj haddr
    have hempty : (abstract cfg b).inFlight = ∅ := by
      rw [Set.eq_empty_iff_forall_notMem]
      rintro m ⟨f, hm, hp, -⟩
      exact hquiet _ hm hp
    exact hij (hnoticed.distinct hempty (holds_eq_some.mpr ⟨ci, hi, hacti, rfl⟩)
      (holds_eq_some.mpr ⟨cj, hj, hactj, haddr.symm⟩))

/-- Two nodes that prefer one address. -/
def rivals (i : Fin 2) : NodeConfig where
  name := .ofNat (i + 1)
  preferred := 42
  arbitrary := true

/-- Both have scanned at the same time and claimed 42. -/
def rivalBus : AddressBus (Fin 2) :=
  let join (b : AddressBus (Fin 2)) (i : Fin 2) :=
    b.after i b.flight 0 ((new (rivals i).name 42 true).start 0)
  let tick (b : AddressBus (Fin 2)) (i : Fin 2) :=
    b.after i b.flight 1000 (((b.nodes i).getD (disabled 0)).tick 1000)
  tick (tick (join (join empty 0) 1) 0) 1

theorem rivalBus_reachable : Reachable rivals rivalBus :=
  Relation.ReflTransGen.refl
    |>.tail (Step.join empty 0 0 (UInt64.le_refl _) rfl)
    |>.tail (Step.join _ 1 0 (UInt64.le_refl _) rfl)
    |>.tail (Step.tick _ 0 1000 (by decide) _ rfl)
    |>.tail (Step.tick _ 1 1000 (UInt64.le_refl _) _ rfl)

theorem address_claim_agreement_rivals :
    (∀ i j ci cj, i ≠ j → rivalBus.nodes i = some ci → rivalBus.nodes j = some cj →
      ci.Active → cj.Active → ci.address = cj.address →
        ClaimInFlight rivals rivalBus i j ci.address ∨
          ClaimInFlight rivals rivalBus j i ci.address) ∧
    ((∀ m ∈ rivalBus.flight, m.2.pgn ≠ PGN_ISO_ADDRESS_CLAIM) →
      ∀ i j ci cj, i ≠ j → rivalBus.nodes i = some ci → rivalBus.nodes j = some cj →
        ci.Active → cj.Active → ci.address ≠ cj.address) := by
  have hinj : Function.Injective fun i => (rivals i).name := by
    intro i j h
    revert i j
    decide
  exact address_claim_agreement (by decide) hinj rivalBus_reachable

end AddressBus

end Canboat
