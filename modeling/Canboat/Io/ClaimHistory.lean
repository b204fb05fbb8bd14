import Canboat.Io.AddressClaim
import Canboat.Lib.Checked
import Mathlib.Data.List.Induction

/-!
# Histories of one claiming node

Any calls on one node, in any order: what it emits, and where it is.
-/

namespace Canboat

inductive ClaimCall
  | start
  | tick
  | claim (src : UInt8) (theirName : UInt64)
  | request
deriving DecidableEq, Repr

structure TimedCall where
  now : UInt64
  call : ClaimCall
deriving DecidableEq, Repr

namespace AddressClaim

/-- `address()`. -/
def claimedAddress (c : AddressClaim) : Option UInt8 :=
  if c.state = .Claimed then some c.address else none

def call (c : AddressClaim) (k : TimedCall) : AddressClaim × List RawFrame :=
  match k.call with
  | .start => c.start k.now
  | .tick => c.tick k.now
  | .claim src theirName => c.onAddressClaim k.now src theirName
  | .request => (c, c.respondToClaimRequest.toList)

/-- The node after the calls, and what each of them emitted. -/
def calls (c : AddressClaim) : List TimedCall → AddressClaim × List (TimedCall × List RawFrame)
  | [] => (c, [])
  | k :: ks =>
      let (c', history) := (c.call k).1.calls ks
      (c', (k, (c.call k).2) :: history)

theorem calls_append (c : AddressClaim) (ks ks' : List TimedCall) :
    c.calls (ks ++ ks') =
      (((c.calls ks).1.calls ks').1, (c.calls ks).2 ++ ((c.calls ks).1.calls ks').2) := by
  induction ks generalizing c with
  | nil => rfl
  | cons k ks ih =>
      rw [List.cons_append, calls, ih]
      rfl

theorem calls_snoc (c : AddressClaim) (ks : List TimedCall) (k : TimedCall) :
    c.calls (ks ++ [k]) =
      (((c.calls ks).1.call k).1, (c.calls ks).2 ++ [(k, ((c.calls ks).1.call k).2)]) :=
  calls_append c ks [k]

/-- What a call leaves as it was, and the addresses it goes on avoiding. -/
structure Keeps (c c' : AddressClaim) : Prop where
  name : c'.name = c.name
  preferred : c'.preferred = c.preferred
  used : ∀ {a}, c.used a = true → c'.used a = true

theorem Keeps.markUsed {c c' : AddressClaim} (h : Keeps c c') (src : UInt8) :
    Keeps c (c'.markUsed src) := by
  refine ⟨h.name, h.preferred, ?_⟩
  intro a ha
  show Function.update c'.used src true a = true
  rw [Function.update_apply]
  split_ifs
  · rfl
  · exact h.used ha

theorem Keeps.settle {c c' : AddressClaim} (h : Keeps c c') (now : UInt64)
    (next : Option UInt8) : Keeps c (c'.settle now next).1 := by
  cases next with
  | some a => exact ⟨h.name, h.preferred, h.used⟩
  | none => exact ⟨h.name, h.preferred, h.used⟩

theorem call_keeps (c : AddressClaim) (k : TimedCall) : Keeps c (c.call k).1 := by
  have hself : Keeps c c := ⟨rfl, rfl, id⟩
  rw [call]
  cases k.call with
  | start =>
      dsimp only
      rw [start]
      split_ifs
      · exact hself
      · exact ⟨rfl, rfl, id⟩
  | tick =>
      dsimp only
      rw [tick]
      split
      · split_ifs
        · exact hself.settle k.now _
        · exact hself
      · split_ifs
        · exact ⟨rfl, rfl, id⟩
        · exact hself
      · exact hself
  | claim src theirName =>
      dsimp only
      rw [onAddressClaim]
      split_ifs
      · exact hself
      · exact hself
      · exact hself.markUsed src
      · exact ⟨rfl, rfl, id⟩
      · exact (hself.markUsed src).settle k.now _
  | request => exact hself

theorem calls_keeps (c : AddressClaim) (ks : List TimedCall) : Keeps c (c.calls ks).1 := by
  induction ks generalizing c with
  | nil => exact ⟨rfl, rfl, id⟩
  | cons k ks ih =>
      have hcall := call_keeps c k
      have hrest := ih (c.call k).1
      exact ⟨hrest.name.trans hcall.name, hrest.preferred.trans hcall.preferred,
        fun ha => hrest.used (hcall.used ha)⟩

/-! ## Nodes that may not move -/

/-- The end of a scan finds the preferred address in use, and another one free. -/
def Displaced (c : AddressClaim) (k : TimedCall) : Prop :=
  k.call = .tick ∧ c.state = .Scanning ∧ c.deadline ≤ k.now ∧ c.used c.preferred = true ∧
    c.pickFree.isSome = true

instance (c : AddressClaim) (k : TimedCall) : Decidable (c.Displaced k) :=
  inferInstanceAs (Decidable (_ ∧ _))

/-- Where a node that may not move is bound to be. -/
structure Bound (p : UInt8) (c : AddressClaim) : Prop where
  arbitrary : c.arbitrary = false
  preferred : c.preferred = p
  active : c.Active → c.address = p
  failed : c.state = .Failed → c.address = ADDR_NULL

/-- A claim for the preferred address, or for none. -/
def BoundFrame (p : UInt8) (f : RawFrame) : Prop :=
  f.pgn = PGN_ISO_ADDRESS_CLAIM → f.src = p ∨ f.src = ADDR_NULL

variable {p : UInt8} {c : AddressClaim} {k : TimedCall}

theorem Bound.start (h : Bound p c) (now : UInt64) :
    Bound p (c.start now).1 ∧ ∀ f ∈ (c.start now).2, BoundFrame p f := by
  rw [AddressClaim.start]
  split_ifs with hdisabled
  · exact ⟨h, nofun⟩
  · refine ⟨⟨h.arbitrary, h.preferred, ?_, nofun⟩, ?_⟩
    · rintro (hact | hact) <;> cases hact
    · intro f hf hpgn
      rw [List.mem_singleton.mp hf] at hpgn
      exact absurd hpgn (by decide)

theorem Bound.settle (h : Bound p c) (now : UInt64) {next : Option UInt8}
    (hnext : ∀ a ∈ next, a = p) :
    Bound p (c.settle now next).1 ∧ ∀ f ∈ (c.settle now next).2, BoundFrame p f := by
  cases next with
  | some a =>
      obtain rfl := hnext a rfl
      refine ⟨⟨h.arbitrary, h.preferred, fun _ => rfl, nofun⟩, ?_⟩
      intro f hf _
      rw [List.mem_singleton.mp hf]
      exact Or.inl rfl
  | none =>
      refine ⟨⟨h.arbitrary, h.preferred, ?_, fun _ => rfl⟩, ?_⟩
      · rintro (hact | hact) <;> cases hact
      · intro f hf _
        rw [List.mem_singleton.mp hf]
        exact Or.inr rfl

theorem Bound.tick (h : Bound p c) (hk : k.call = .tick) (hstays : ¬c.Displaced k) :
    Bound p (c.tick k.now).1 ∧ ∀ f ∈ (c.tick k.now).2, BoundFrame p f := by
  rw [AddressClaim.tick]
  split
  · rename_i hscan
    split_ifs with hdue
    · apply h.settle
      intro a ha
      split_ifs at ha with hused
      · exact absurd ⟨hk, hscan, hdue, hused, Option.isSome_iff_exists.mpr ⟨a, ha⟩⟩ hstays
      · rw [← Option.some.inj ha]
        exact h.preferred
    · exact ⟨h, nofun⟩
  · rename_i hpending
    split_ifs with hdue
    · refine ⟨⟨h.arbitrary, h.preferred, fun _ => h.active (Or.inl hpending), nofun⟩, nofun⟩
    · exact ⟨h, nofun⟩
  · exact ⟨h, nofun⟩

theorem Bound.markUsed (h : Bound p c) (src : UInt8) : Bound p (c.markUsed src) :=
  ⟨h.arbitrary, h.preferred, h.active, h.failed⟩

theorem Bound.onAddressClaim (h : Bound p c) (now : UInt64) (src : UInt8) (theirName : UInt64) :
    Bound p (c.onAddressClaim now src theirName).1 ∧
      ∀ f ∈ (c.onAddressClaim now src theirName).2, BoundFrame p f := by
  rw [AddressClaim.onAddressClaim]
  split_ifs with hout hown hlearn hwon
  · exact ⟨h, nofun⟩
  · exact ⟨h, nofun⟩
  · exact ⟨h.markUsed src, nofun⟩
  · -- the address is contested, so the node is active
    rw [not_or] at hout
    rw [not_or, not_not] at hlearn
    have haddr : c.address = p := by
      cases hstate : c.state with
      | Disabled => exact absurd hstate hout.2
      | Scanning => exact absurd hstate hlearn.1
      | Pending => exact h.active (Or.inl hstate)
      | Claimed => exact h.active (Or.inr hstate)
      | Failed =>
          rw [hlearn.2, h.failed hstate] at hout
          exact absurd (by decide) hout.1
    refine ⟨⟨h.arbitrary, h.preferred, fun _ => haddr, nofun⟩, ?_⟩
    intro f hf _
    rw [List.mem_singleton.mp hf]
    exact Or.inl haddr
  · dsimp only
    rw [if_neg (by rw [(h.markUsed src).arbitrary]; exact Bool.false_ne_true)]
    exact (h.markUsed src).settle now nofun

theorem Bound.call (h : Bound p c) (hstays : ¬c.Displaced k) :
    Bound p (c.call k).1 ∧ ∀ f ∈ (c.call k).2, BoundFrame p f := by
  rw [AddressClaim.call]
  cases hk : k.call with
  | start => exact h.start k.now
  | tick => exact h.tick hk hstays
  | claim src theirName => exact h.onAddressClaim k.now src theirName
  | request =>
      refine ⟨h, ?_⟩
      intro f hf _
      dsimp only at hf
      rw [respondToClaimRequest] at hf
      split_ifs at hf with hact
      · rw [Option.toList_some, List.mem_singleton] at hf
        rw [hf]
        exact Or.inl (h.active hact.symm)
      · cases hf

theorem new_bound (name : UInt64) (p : UInt8) : Bound p (new name p false) :=
  ⟨rfl, rfl, fun _ => rfl, nofun⟩

/-- A scan that ends away from the preferred address is broadcast. -/
theorem Displaced.frame (h : c.Displaced k) :
    ∃ f ∈ (c.call k).2, f.pgn = PGN_ISO_ADDRESS_CLAIM ∧ f.src ≠ c.preferred ∧ f.src ≠ ADDR_NULL := by
  obtain ⟨hk, hscan, hdue, hused, hfree⟩ := h
  obtain ⟨a, ha⟩ := Option.isSome_iff_exists.mp hfree
  obtain ⟨hmax, hunused⟩ := pickFree_spec ha
  have hcall : c.call k = c.settle k.now (some a) := by
    rw [AddressClaim.call, hk]
    dsimp only
    rw [AddressClaim.tick, hscan]
    dsimp only
    rw [if_pos hdue, beginClaim, if_pos hused, ha]
  rw [hcall]
  refine ⟨_, List.mem_singleton_self _, rfl, ?_, ?_⟩
  · rintro rfl
    rw [hused] at hunused
    cases hunused
  · rintro rfl
    exact absurd hmax (by decide)

/-- The calls keep the node on the preferred address, or on none. -/
def OnPreferred (p : UInt8) (c : AddressClaim) (ks : List TimedCall) : Prop :=
  ∀ pre, pre <+: ks →
    (∀ e ∈ (c.calls pre).2, ∀ f ∈ e.2, f.pgn = PGN_ISO_ADDRESS_CLAIM →
      f.src = p ∨ f.src = ADDR_NULL) ∧
    ((c.calls pre).1.claimedAddress = none ∨ (c.calls pre).1.claimedAddress = some p)

/-- No call moves it away at the end of a scan. -/
def Undisplaced (c : AddressClaim) (ks : List TimedCall) : Prop :=
  ∀ pre k, pre ++ [k] <+: ks → ¬(c.calls pre).1.Displaced k

/-- A run of calls that do not displace the node. -/
theorem Bound.calls (h : Bound p c) {ks : List TimedCall} (hstays : c.Undisplaced ks) :
    Bound p (c.calls ks).1 ∧ ∀ e ∈ (c.calls ks).2, ∀ f ∈ e.2, BoundFrame p f := by
  induction ks using List.reverseRecOn with
  | nil => exact ⟨h, nofun⟩
  | append_singleton ks k ih =>
      obtain ⟨hbound, hframes⟩ := ih fun pre k' hpre => hstays pre k'
        (hpre.trans (List.prefix_append ks [k]))
      obtain ⟨hnext, hout⟩ := hbound.call (hstays ks k List.prefix_rfl)
      rw [calls_snoc]
      refine ⟨hnext, ?_⟩
      intro e he
      rcases List.mem_append.mp he with he | he
      · exact hframes e he
      · rw [List.mem_singleton.mp he]
        exact hout

/-- A node that may not move stays on its preferred address, or on none, where no call
displaces it. -/
theorem onPreferred_iff (name : UInt64) (p : UInt8) (ks : List TimedCall) :
    OnPreferred p (new name p false) ks ↔ (new name p false).Undisplaced ks := by
  constructor
  · intro h pre k hpre hdisplaced
    obtain ⟨f, hf, hpgn, hsrc, hnull⟩ := hdisplaced.frame
    have hkept := (h _ hpre).1
    rw [calls_snoc] at hkept
    rw [(calls_keeps _ _).preferred] at hsrc
    rcases hkept _ (List.mem_append_right _ (List.mem_singleton_self _)) f hf hpgn with hp | hp
    · exact hsrc hp
    · exact hnull hp
  · intro h pre hpre
    obtain ⟨hbound, hframes⟩ := (new_bound name p).calls fun pre' k hpre' =>
      h pre' k (hpre'.trans hpre)
    refine ⟨fun e he f hf => hframes e he f hf, ?_⟩
    rw [claimedAddress]
    split_ifs with hclaimed
    · exact Or.inr (congrArg some (hbound.active (Or.inr hclaimed)))
    · exact Or.inl rfl

/-- A node that hears of its preferred address while it scans takes another one. -/
theorem not_onPreferred :
    ¬OnPreferred 10 (new 5 10 false) [⟨0, .start⟩, ⟨1, .claim 10 7⟩, ⟨1000, .tick⟩] := by
  intro h
  have hkept := (h _ List.prefix_rfl).1
  revert hkept
  decide

/-! ## What a call does to the claim -/

/-- A claim of the address under another NAME. -/
def Foreign (name : UInt64) (a : UInt8) (k : TimedCall) : Prop :=
  ∃ theirName, k.call = .claim a theirName ∧ theirName ≠ name

/-- The address that the node is at is not one that it has heard of. -/
structure Clean (c : AddressClaim) : Prop where
  active : c.Active → c.address ≤ ADDR_MAX ∧ c.used c.address = false
  failed : c.state = .Failed → c.address = ADDR_NULL
  preferred : c.preferred ≤ ADDR_MAX

/-- Only a node that holds an address, or holds out for one, has it contested. -/
theorem Clean.active_of_contested (h : c.Clean) {src : UInt8}
    (hout : ¬(src > ADDR_MAX ∨ c.state = .Disabled))
    (hlearn : ¬(c.state = .Scanning ∨ src ≠ c.address)) : c.Active := by
  rw [not_or] at hout
  rw [not_or, not_not] at hlearn
  cases hstate : c.state with
  | Disabled => exact absurd hstate hout.2
  | Scanning => exact absurd hstate hlearn.1
  | Pending => exact Or.inl hstate
  | Claimed => exact Or.inr hstate
  | Failed =>
      rw [hlearn.2, h.failed hstate] at hout
      exact absurd (by decide) hout.1

/-- What is left of the node by a call, and what it emits. -/
inductive Outcome (c : AddressClaim) (k : TimedCall) : AddressClaim × List RawFrame → Prop
  | silent (c' : AddressClaim) (hstate : c'.state = c.state) (haddr : c'.address = c.address)
      (hdeadline : c'.deadline = c.deadline)
      (hused : c'.Active → c'.used c'.address = c.used c.address)
      (huncontested : c.Active → ¬Foreign c.name c.address k) : Outcome c k (c', [])
  | answered (hrequest : k.call = .request) (hactive : c.Active) : Outcome c k (c, [c.claimFrame])
  | scanning (c' : AddressClaim) (hstart : k.call = .start) (hstate : c'.state = .Scanning) :
      Outcome c k (c', [requestFrame ADDR_NULL ADDR_GLOBAL PGN_ISO_ADDRESS_CLAIM])
  | settled (c' : AddressClaim) (htick : k.call = .tick) (hpending : c.state = .Pending)
      (hdue : c.deadline ≤ k.now) (hstate : c'.state = .Claimed) (haddr : c'.address = c.address)
      (hused : c'.used = c.used) : Outcome c k (c', [])
  | claiming (c' : AddressClaim) (hcall : k.call ≠ .request) (hstate : c'.state = .Pending)
      (hdeadline : c'.deadline = k.now + CLAIM_TIMEOUT_MS) (haddr : c'.address ≤ ADDR_MAX)
      (hunused : c'.used c'.address = false) : Outcome c k (c', [c'.claimFrame])
  | failing (c' : AddressClaim) (hstate : c'.state = .Failed) (haddr : c'.address = ADDR_NULL) :
      Outcome c k (c', [c'.claimFrame])

theorem settle_outcome (hk : k.call ≠ .request) {c₀ : AddressClaim} {next : Option UInt8}
    (hnext : ∀ a ∈ next, a ≤ ADDR_MAX ∧ c₀.used a = false) :
    Outcome c k (c₀.settle k.now next) := by
  cases next with
  | some a =>
      obtain ⟨hmax, hunused⟩ := hnext a rfl
      exact .claiming _ hk rfl rfl hmax hunused
  | none => exact .failing _ rfl rfl

theorem not_foreign (h : ∀ src theirName, k.call ≠ .claim src theirName) (name : UInt64)
    (a : UInt8) : ¬Foreign name a k := by
  rintro ⟨theirName, hk, -⟩
  exact h a theirName hk

theorem start_outcome (hk : k.call = .start) : Outcome c k (c.start k.now) := by
  rw [AddressClaim.start]
  split_ifs with hdisabled
  · refine .silent c rfl rfl rfl (fun _ => rfl) fun _ => not_foreign ?_ _ _
    rw [hk]
    exact nofun
  · exact .scanning _ hk rfl

theorem Clean.tick (h : c.Clean) (hk : k.call = .tick) : Outcome c k (c.tick k.now) := by
  have hcalm : ∀ src theirName, k.call ≠ .claim src theirName := by
    rw [hk]
    exact nofun
  rw [AddressClaim.tick]
  split
  · split_ifs
    · apply settle_outcome (by rw [hk]; exact nofun)
      intro a ha
      split_ifs at ha with hused
      · exact pickFree_spec ha
      · obtain rfl := Option.some.inj ha
        exact ⟨h.preferred, Bool.eq_false_iff.mpr hused⟩
    · exact .silent c rfl rfl rfl (fun _ => rfl) fun _ => not_foreign hcalm _ _
  · rename_i hpending
    split_ifs with hdue
    · exact .settled _ hk hpending hdue rfl rfl rfl
    · exact .silent c rfl rfl rfl (fun _ => rfl) fun _ => not_foreign hcalm _ _
  · exact .silent c rfl rfl rfl (fun _ => rfl) fun _ => not_foreign hcalm _ _

theorem Clean.onAddressClaim (h : c.Clean) {src : UInt8} {theirName : UInt64}
    (hk : k.call = .claim src theirName) :
    Outcome c k (c.onAddressClaim k.now src theirName) := by
  have hforeign : Foreign c.name c.address k → src = c.address ∧ theirName ≠ c.name := by
    rintro ⟨theirName', hk', hne⟩
    rw [hk] at hk'
    cases hk'
    exact ⟨rfl, hne⟩
  rw [AddressClaim.onAddressClaim]
  split_ifs with hout hown hlearn hwon
  · refine .silent c rfl rfl rfl (fun _ => rfl) fun hact hclaim => ?_
    rcases hout with hmax | hdisabled
    · rw [(hforeign hclaim).1] at hmax
      exact UInt8.not_lt.mpr (h.active hact).1 hmax
    · rcases hact with hact | hact
      · rw [hdisabled] at hact
        cases hact
      · rw [hdisabled] at hact
        cases hact
  · exact .silent c rfl rfl rfl (fun _ => rfl) fun _ hclaim => (hforeign hclaim).2 hown
  · have hother : c.Active → src ≠ c.address := by
      intro hact
      rcases hlearn with hscan | hne
      · rcases hact with hact | hact
        · rw [hscan] at hact
          cases hact
        · rw [hscan] at hact
          cases hact
      · exact hne
    refine .silent _ rfl rfl rfl (fun hact => ?_) fun hact hclaim =>
      hother hact (hforeign hclaim).1
    exact Function.update_of_ne (hother hact).symm _ _
  · obtain ⟨hmax, hunused⟩ := h.active (h.active_of_contested hout hlearn)
    exact .claiming _ (by rw [hk]; exact nofun) rfl rfl hmax hunused
  · apply settle_outcome (by rw [hk]; exact nofun)
    intro a ha
    split_ifs at ha
    · exact pickFree_spec ha
    · cases ha

theorem Clean.call (h : c.Clean) (k : TimedCall) : Outcome c k (c.call k) := by
  rw [AddressClaim.call]
  cases hk : k.call with
  | start => exact start_outcome hk
  | tick => exact h.tick hk
  | claim src theirName => exact h.onAddressClaim hk
  | request =>
      dsimp only
      rw [respondToClaimRequest]
      split_ifs with hact
      · exact .answered hk hact.symm
      · refine .silent c rfl rfl rfl (fun _ => rfl) fun _ => not_foreign ?_ _ _
        rw [hk]
        exact nofun

/-! ## Calls that compute their deadlines -/

/-- What a call adds to the clock: the timeout of the phase that it begins. -/
def timeout (c : AddressClaim) (k : TimedCall) : UInt64 :=
  if k.call = .request ∨ (c.call k).2 = [] then 0
  else
    match (c.call k).1.state with
    | .Scanning => SCAN_TIMEOUT_MS
    | .Pending => CLAIM_TIMEOUT_MS
    | _ => 0

def callChecked (c : AddressClaim) (k : TimedCall) :
    Except Fault (AddressClaim × List RawFrame) :=
  (checkedNat 18446744073709551615 (k.now.toNat + (c.timeout k).toNat)).map fun _ => c.call k

def callsChecked (c : AddressClaim) :
    List TimedCall → Except Fault (AddressClaim × List (TimedCall × List RawFrame))
  | [] => .ok (c, [])
  | k :: ks => do
      let (c', out) ← c.callChecked k
      let (c'', history) ← c'.callsChecked ks
      return (c'', (k, out) :: history)

/-- No call of the run computes a deadline past the end of the clock. -/
def Timely (c : AddressClaim) (ks : List TimedCall) : Prop :=
  ∀ pre k, pre ++ [k] <+: ks →
    k.now.toNat + ((c.calls pre).1.timeout k).toNat ≤ 18446744073709551615

theorem callChecked_ok {res : AddressClaim × List RawFrame} (h : c.callChecked k = .ok res) :
    res = c.call k ∧ k.now.toNat + (c.timeout k).toNat ≤ 18446744073709551615 := by
  rw [callChecked, checkedNat] at h
  split_ifs at h with hfits
  · exact ⟨(Except.ok.inj h).symm, hfits⟩
  · cases h

theorem timely_of_checked {ks : List TimedCall} {c : AddressClaim}
    {res : AddressClaim × List (TimedCall × List RawFrame)} (h : c.callsChecked ks = .ok res) :
    c.calls ks = res ∧ c.Timely ks := by
  induction ks generalizing c res with
  | nil =>
      cases h
      refine ⟨rfl, ?_⟩
      intro pre k hpre
      have hlen := hpre.length_le
      rw [List.length_append] at hlen
      cases hlen
  | cons k ks ih =>
      rw [callsChecked] at h
      obtain ⟨⟨c', out⟩, hcall, hrest⟩ := Fault.bind_ok_iff.mp h
      obtain ⟨⟨c'', history⟩, hrun, hres⟩ := Fault.bind_ok_iff.mp hrest
      obtain ⟨heq, hfits⟩ := callChecked_ok hcall
      obtain ⟨hcalls, htimely⟩ := ih hrun
      rw [Prod.ext_iff] at heq
      obtain ⟨rfl, rfl⟩ := heq
      constructor
      · rw [calls, hcalls]
        exact Except.ok.inj hres
      · intro pre k' hpre
        cases pre with
        | nil =>
            obtain rfl := (List.cons_prefix_cons.mp hpre).1
            exact hfits
        | cons k₀ pre =>
            obtain ⟨rfl, htail⟩ := List.cons_prefix_cons.mp hpre
            exact htimely pre k' htail

/-! ## Where an address comes from -/

/-- The node claims the address, or defends it. -/
def Claims (a : UInt8) (f : RawFrame) : Prop := f.pgn = PGN_ISO_ADDRESS_CLAIM ∧ f.src = a

/-- A claim for `a` that has stood for the claim timeout at the time `due`, with no claim of
the address by another NAME since. -/
def Stood (name : UInt64) (a : UInt8) (due : UInt64)
    (history : List (TimedCall × List RawFrame)) : Prop :=
  ∃ before e after, history = before ++ e :: after ∧ (∃ f ∈ e.2, Claims a f) ∧
    e.1.now.toNat + CLAIM_TIMEOUT_MS.toNat ≤ due.toNat ∧ ∀ e' ∈ after, ¬Foreign name a e'.1

theorem Stood.later {name : UInt64} {a : UInt8} {due t : UInt64}
    {history : List (TimedCall × List RawFrame)} (h : Stood name a due history) (ht : due ≤ t) :
    Stood name a t history := by
  obtain ⟨before, e, after, heq, hclaim, hdue, hquiet⟩ := h
  exact ⟨before, e, after, heq, hclaim, hdue.trans ht, hquiet⟩

theorem Stood.snoc {name : UInt64} {a : UInt8} {due : UInt64}
    {history : List (TimedCall × List RawFrame)} (h : Stood name a due history)
    (hquiet : ¬Foreign name a k) (out : List RawFrame) :
    Stood name a due (history ++ [(k, out)]) := by
  obtain ⟨before, e, after, rfl, hclaim, hdue, hafter⟩ := h
  refine ⟨before, e, after ++ [(k, out)], by rw [List.append_assoc, List.cons_append], hclaim,
    hdue, ?_⟩
  intro e' he'
  rcases List.mem_append.mp he' with he' | he'
  · exact hafter e' he'
  · rw [List.mem_singleton.mp he']
    exact hquiet

/-- A node on its way to an address, or at one, has claimed it and was not contradicted. -/
structure Grounded (c : AddressClaim) (ks : List TimedCall)
    (history : List (TimedCall × List RawFrame)) : Prop where
  clean : c.Clean
  pending : c.state = .Pending → Stood c.name c.address c.deadline history
  claimed : c.state = .Claimed → ∃ k ∈ ks, Stood c.name c.address k.now history

theorem Clean.keeps {res : AddressClaim × List RawFrame} (h : c.Clean) (hout : Outcome c k res)
    (hkeeps : Keeps c res.1) : res.1.Clean := by
  have hpreferred : res.1.preferred ≤ ADDR_MAX := by
    rw [hkeeps.preferred]
    exact h.preferred
  cases hout with
  | silent c' hstate haddr hdeadline hused =>
      refine ⟨fun hact => ?_, fun hfailed => ?_, hpreferred⟩
      · have hact₀ : c.Active := by rwa [Active, hstate] at hact
        rw [hused hact, haddr]
        exact h.active hact₀
      · rw [haddr]
        exact h.failed (hstate.symm.trans hfailed)
  | answered => exact h
  | scanning c' hstart hstate =>
      refine ⟨?_, fun hfailed => ?_, hpreferred⟩
      · rintro (hact | hact) <;> cases hstate.symm.trans hact
      · cases hstate.symm.trans hfailed
  | settled c' htick hpending hdue hstate haddr hused =>
      refine ⟨fun _ => ?_, fun hfailed => ?_, hpreferred⟩
      · rw [haddr, hused]
        exact h.active (Or.inl hpending)
      · cases hstate.symm.trans hfailed
  | claiming c' hcall hstate hdeadline haddr hunused =>
      refine ⟨fun _ => ⟨haddr, hunused⟩, fun hfailed => ?_, hpreferred⟩
      cases hstate.symm.trans hfailed
  | failing c' hstate haddr =>
      refine ⟨?_, fun _ => haddr, hpreferred⟩
      rintro (hact | hact) <;> cases hstate.symm.trans hact

theorem Grounded.call {ks : List TimedCall} {history : List (TimedCall × List RawFrame)}
    (h : Grounded c ks history)
    (hfits : k.now.toNat + (c.timeout k).toNat ≤ 18446744073709551615) :
    Grounded (c.call k).1 (ks ++ [k]) (history ++ [(k, (c.call k).2)]) := by
  have hkeeps := call_keeps c k
  have hout := h.clean.call k
  have hname := hkeeps.name
  refine ⟨h.clean.keeps hout hkeeps, ?_, ?_⟩
  · intro hpending
    rw [hname]
    generalize hres : c.call k = res at hout hpending
    cases hout with
    | silent c' hstate haddr hdeadline hused hquiet =>
        have hpending₀ : c.state = .Pending := hstate.symm.trans hpending
        rw [haddr, hdeadline]
        exact (h.pending hpending₀).snoc (hquiet (Or.inl hpending₀)) _
    | answered hrequest =>
        refine (h.pending hpending).snoc (not_foreign ?_ _ _) _
        rw [hrequest]
        exact nofun
    | scanning c' hstart hstate => cases hstate.symm.trans hpending
    | settled c' htick hpending' hdue hstate => cases hstate.symm.trans hpending
    | claiming c' hcall hstate hdeadline haddr hunused =>
        have htimeout : c.timeout k = CLAIM_TIMEOUT_MS := by
          rw [timeout, hres, if_neg (by rintro (hk | hk); exacts [hcall hk, nomatch hk])]
          dsimp only
          rw [hstate]
        rw [htimeout] at hfits
        refine ⟨history, _, [], rfl, ⟨_, List.mem_singleton_self _, rfl, rfl⟩, ?_, nofun⟩
        rw [hdeadline, UInt64.toNat_add, Nat.mod_eq_of_lt (Nat.lt_succ_of_le hfits)]
    | failing c' hstate => cases hstate.symm.trans hpending
  · intro hclaimed
    rw [hname]
    generalize c.call k = res at hout hclaimed
    cases hout with
    | silent c' hstate haddr hdeadline hused hquiet =>
        have hclaimed₀ : c.state = .Claimed := hstate.symm.trans hclaimed
        obtain ⟨k', hk', hstood⟩ := h.claimed hclaimed₀
        rw [haddr]
        exact ⟨k', List.mem_append_left _ hk', hstood.snoc (hquiet (Or.inr hclaimed₀)) _⟩
    | answered hrequest =>
        obtain ⟨k', hk', hstood⟩ := h.claimed hclaimed
        refine ⟨k', List.mem_append_left _ hk', hstood.snoc (not_foreign ?_ _ _) _⟩
        rw [hrequest]
        exact nofun
    | scanning c' hstart hstate => cases hstate.symm.trans hclaimed
    | settled c' htick hpending hdue hstate haddr =>
        rw [haddr]
        refine ⟨k, List.mem_append_right _ (List.mem_singleton_self k), ?_⟩
        refine ((h.pending hpending).later hdue).snoc (not_foreign ?_ _ _) _
        rw [htick]
        exact nofun
    | claiming c' hcall hstate => cases hstate.symm.trans hclaimed
    | failing c' hstate => cases hstate.symm.trans hclaimed

theorem Grounded.calls {ks₀ : List TimedCall} {history : List (TimedCall × List RawFrame)}
    (h : Grounded c ks₀ history) {ks : List TimedCall} (htimely : c.Timely ks) :
    Grounded (c.calls ks).1 (ks₀ ++ ks) (history ++ (c.calls ks).2) := by
  induction ks using List.reverseRecOn with
  | nil =>
      show Grounded c (ks₀ ++ []) (history ++ [])
      rw [List.append_nil, List.append_nil]
      exact h
  | append_singleton ks k ih =>
      have hprev := ih fun pre k' hpre => htimely pre k' (hpre.trans (List.prefix_append ks [k]))
      rw [calls_snoc, ← List.append_assoc, ← List.append_assoc]
      exact hprev.call (htimely ks k List.prefix_rfl)

theorem Clean.calls (h : c.Clean) (ks : List TimedCall) : (c.calls ks).1.Clean := by
  induction ks generalizing c with
  | nil => exact h
  | cons k ks ih => exact ih (h.keeps (h.call k) (call_keeps c k))

/-! ## Addresses given up -/

/-- The call takes the address from the node, or tells it that another NAME uses an address
that it is not at. -/
def Forfeits (c : AddressClaim) (k : TimedCall) (a : UInt8) : Prop :=
  ∃ theirName, k.call = .claim a theirName ∧ theirName ≠ c.name ∧
    (¬c.Active ∨ c.address ≠ a ∨ theirName < c.name)

/-- The node will not claim the address. -/
def Barred (c : AddressClaim) (a : UInt8) : Prop :=
  c.state = .Disabled ∨ ADDR_MAX < a ∨ c.used a = true

theorem call_disabled (h : c.state = .Disabled) (k : TimedCall) : c.call k = (c, []) := by
  rw [AddressClaim.call]
  cases k.call with
  | start =>
      dsimp only
      rw [AddressClaim.start, if_pos h]
  | tick =>
      dsimp only
      rw [AddressClaim.tick, h]
  | claim src theirName =>
      dsimp only
      rw [AddressClaim.onAddressClaim, if_pos (Or.inr h)]
  | request =>
      dsimp only
      rw [respondToClaimRequest, h]
      rfl

theorem Barred.call {a : UInt8} (h : c.Barred a) (k : TimedCall) : (c.call k).1.Barred a := by
  rcases h with h | h | h
  · rw [call_disabled h]
    exact Or.inl h
  · exact Or.inr (Or.inl h)
  · exact Or.inr (Or.inr ((call_keeps c k).used h))

theorem Clean.forfeits (h : c.Clean) {a : UInt8} (hk : c.Forfeits k a) :
    (c.call k).1.Barred a := by
  obtain ⟨theirName, hclaim, hother, hnot⟩ := hk
  have hmarked : (c.markUsed a).used a = true := by
    show Function.update c.used a true a = true
    exact Function.update_self a true c.used
  rw [AddressClaim.call, hclaim]
  dsimp only
  rw [AddressClaim.onAddressClaim]
  split_ifs with hout hlearn hwon
  · rcases hout with hmax | hdisabled
    · exact Or.inr (Or.inl hmax)
    · exact Or.inl hdisabled
  · exact Or.inr (Or.inr hmarked)
  · have hactive := h.active_of_contested hout hlearn
    rw [not_or, not_not] at hlearn
    rcases hnot with hidle | hne | hlt
    · exact absurd hactive hidle
    · exact absurd hlearn.2.symm hne
    · exact absurd hlt (UInt64.lt_asymm hwon)
  · have hself : Keeps (c.markUsed a) (c.markUsed a) := ⟨rfl, rfl, id⟩
    exact Or.inr (Or.inr ((hself.settle k.now _).used hmarked))

theorem Clean.not_claims (h : c.Clean) {a : UInt8} (ha : a ≠ ADDR_NULL)
    (hbarred : (c.call k).1.Barred a) : ∀ f ∈ (c.call k).2, ¬Claims a f := by
  have hat : ∀ {c' : AddressClaim}, c'.Active → c'.address ≤ ADDR_MAX →
      c'.used c'.address = false → c'.Barred a → ¬Claims a c'.claimFrame := by
    rintro c' hact hmax hunused hbarred ⟨-, rfl⟩
    rcases hbarred with hdisabled | hlt | hused
    · rcases hact with hact | hact
      · cases hdisabled.symm.trans hact
      · cases hdisabled.symm.trans hact
    · exact UInt8.not_lt.mpr hmax hlt
    · cases hunused.symm.trans hused
  have hout := h.call k
  generalize c.call k = res at hout hbarred
  cases hout with
  | silent => exact nofun
  | answered hrequest hactive =>
      intro f hf
      rw [List.mem_singleton.mp hf]
      obtain ⟨hmax, hunused⟩ := h.active hactive
      exact hat hactive hmax hunused hbarred
  | scanning =>
      intro f hf hclaims
      rw [List.mem_singleton.mp hf] at hclaims
      exact absurd hclaims.1 (by decide)
  | settled => exact nofun
  | claiming c' hcall hstate hdeadline haddr hunused =>
      intro f hf
      rw [List.mem_singleton.mp hf]
      exact hat (Or.inl hstate) haddr hunused hbarred
  | failing c' hstate haddr =>
      intro f hf hclaims
      rw [List.mem_singleton.mp hf] at hclaims
      exact ha (hclaims.2.symm.trans haddr)

theorem Barred.calls {a : UInt8} (h : c.Barred a) (hclean : c.Clean) (ha : a ≠ ADDR_NULL)
    (ks : List TimedCall) : ∀ e ∈ (c.calls ks).2, ∀ f ∈ e.2, ¬Claims a f := by
  induction ks generalizing c with
  | nil => exact nofun
  | cons k ks ih =>
      intro e he
      rcases List.mem_cons.mp he with rfl | he
      · exact hclean.not_claims ha (h.call k)
      · exact ih (h.call k) (hclean.keeps (hclean.call k) (call_keeps c k)) e he

theorem calls_length (c : AddressClaim) (ks : List TimedCall) :
    (c.calls ks).2.length = ks.length := by
  induction ks generalizing c with
  | nil => rfl
  | cons k ks ih => exact congrArg (· + 1) (ih (c.call k).1)

/-! ## Runs from the start -/

/-- The nodes that are made with an assignable preferred address. -/
inductive Created : AddressClaim → Prop
  | new (name : UInt64) (preferred : UInt8) (arbitrary : Bool) (h : preferred ≤ ADDR_MAX) :
      Created (new name preferred arbitrary)
  | disabled (name : UInt64) : Created (disabled name)

theorem Created.clean (h : c.Created) : c.Clean := by
  cases h with
  | new name preferred arbitrary hpreferred =>
      exact ⟨fun _ => ⟨hpreferred, rfl⟩, nofun, hpreferred⟩
  | disabled name =>
      have hzero : (0 : UInt8) ≤ ADDR_MAX := by decide
      refine ⟨?_, nofun, hzero⟩
      rintro (hact | hact) <;> cases hact

theorem Created.started (h : c.Created) (now : UInt64) :
    Grounded (c.call ⟨now, .start⟩).1 [⟨now, .start⟩] (c.calls [⟨now, .start⟩]).2 := by
  have hidle : (c.call ⟨now, .start⟩).1.state = .Disabled ∨
      (c.call ⟨now, .start⟩).1.state = .Scanning := by
    show (c.start now).1.state = .Disabled ∨ (c.start now).1.state = .Scanning
    rw [AddressClaim.start]
    split_ifs with hdisabled
    · exact Or.inl hdisabled
    · exact Or.inr rfl
  refine ⟨h.clean.calls [⟨now, .start⟩], fun hpending => ?_, fun hclaimed => ?_⟩
  · rcases hidle with hidle | hidle <;> cases hidle.symm.trans hpending
  · rcases hidle with hidle | hidle <;> cases hidle.symm.trans hclaimed

/-- A node that is at an address has claimed it for the whole claim timeout with no other
NAME's claim since, and never again claims an address that it gave up. The null address is
not one to be claimed. -/
theorem claimedAddress_uncontested {c₀ c : AddressClaim} (hcreated : c₀.Created) {t₀ : UInt64}
    {ks : List TimedCall} {history : List (TimedCall × List RawFrame)}
    (hrun : c₀.callsChecked (⟨t₀, .start⟩ :: ks) = .ok (c, history)) :
    (∀ t a, (∀ k ∈ (⟨t₀, .start⟩ : TimedCall) :: ks, k.now ≤ t) → c.claimedAddress = some a →
      a ≤ ADDR_MAX ∧ Stood c₀.name a t history) ∧
    ∀ pre k post a, (⟨t₀, .start⟩ : TimedCall) :: ks = pre ++ k :: post → a ≠ ADDR_NULL →
      (c₀.calls pre).1.Forfeits k a →
      ∀ e ∈ history.drop pre.length, ∀ f ∈ e.2, ¬Claims a f := by
  obtain ⟨hcalls, htimely⟩ := timely_of_checked hrun
  have hc : (c₀.calls (⟨t₀, .start⟩ :: ks)).1 = c := congrArg Prod.fst hcalls
  have hhistory : (c₀.calls (⟨t₀, .start⟩ :: ks)).2 = history := congrArg Prod.snd hcalls
  constructor
  · intro t a ht hclaimed
    have hrest : (c₀.call ⟨t₀, .start⟩).1.Timely ks := fun pre k hpre =>
      htimely (⟨t₀, .start⟩ :: pre) k (List.cons_prefix_cons.mpr ⟨rfl, hpre⟩)
    have hgrounded : Grounded c (⟨t₀, .start⟩ :: ks) history := by
      rw [← hc, ← hhistory]
      exact (hcreated.started t₀).calls hrest
    have hname : c.name = c₀.name := by
      rw [← hc]
      exact (calls_keeps c₀ _).name
    rw [claimedAddress] at hclaimed
    split_ifs at hclaimed with hstate
    obtain rfl := Option.some.inj hclaimed
    obtain ⟨k, hk, hstood⟩ := hgrounded.claimed hstate
    rw [hname] at hstood
    exact ⟨(hgrounded.clean.active (Or.inr hstate)).1, hstood.later (ht k hk)⟩
  · intro pre k post a hsplit ha hforfeits
    have hclean := hcreated.clean.calls pre
    have hdrop : history.drop pre.length = ((c₀.calls pre).1.calls (k :: post)).2 := by
      rw [← hhistory, hsplit, calls_append]
      exact List.drop_left' (calls_length c₀ pre)
    have hbarred := hclean.forfeits hforfeits
    rw [hdrop]
    intro e he
    rcases List.mem_cons.mp he with rfl | he
    · exact hclean.not_claims ha hbarred
    · exact hbarred.calls (hclean.keeps (hclean.call k) (call_keeps _ k)) ha post e he

/-- A node that hears of an address while it scans, and claims its own. -/
theorem claimedAddress_uncontested_scan :
    Stood 5 10 1300 (((new 5 10 true).calls
      [⟨0, .start⟩, ⟨1, .claim 7 3⟩, ⟨1000, .tick⟩, ⟨1250, .tick⟩]).2) ∧
    ∀ e ∈ ((new 5 10 true).calls
      [⟨0, .start⟩, ⟨1, .claim 7 3⟩, ⟨1000, .tick⟩, ⟨1250, .tick⟩]).2.drop 1,
      ∀ f ∈ e.2, ¬Claims 7 f := by
  have h := @claimedAddress_uncontested (new 5 10 true) _ (.new 5 10 true (by decide)) 0
    [⟨1, .claim 7 3⟩, ⟨1000, .tick⟩, ⟨1250, .tick⟩] _ rfl
  refine ⟨(h.1 1300 10 (by decide) (by decide)).2, ?_⟩
  exact h.2 [⟨0, .start⟩] ⟨1, .claim 7 3⟩ [⟨1000, .tick⟩, ⟨1250, .tick⟩] 7 rfl (by decide)
    ⟨3, rfl, by decide, Or.inl (by decide)⟩

end AddressClaim

end Canboat
