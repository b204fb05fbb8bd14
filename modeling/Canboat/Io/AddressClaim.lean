import Canboat.Frame
import Canboat.Lib.LittleEndian
import Mathlib.Logic.Function.Basic
import Mathlib.Order.Basic

/-!
# The ISO 11783-5 address-claim state machine

One node's side of the claim handshake: scan the bus, claim an address, defend
it by NAME, move or fall silent on losing. Times are epoch milliseconds in
`u64`; the deadlines are computed with wrapping addition.

`Call` sums up what any call of the state machine can do to a node that has
started: it stays where it is and says nothing about a new address, or it
broadcasts a claim for where it now is.
-/

namespace Canboat

/-- Highest assignable source address. -/
def ADDR_MAX : UInt8 := 253

def CLAIM_TIMEOUT_MS : UInt64 := 250
def SCAN_TIMEOUT_MS : UInt64 := 1000
def PGN_ISO_REQUEST : UInt32 := 59904
def PGN_ISO_ADDRESS_CLAIM : UInt32 := 60928

inductive ClaimState where
  /-- Passive sniff: no address is ever taken. -/
  | Disabled
  | Scanning
  | Pending
  | Claimed
  /-- No address could be claimed; the node is silent. -/
  | Failed
deriving DecidableEq, Repr

structure AddressClaim where
  name : UInt64
  address : UInt8
  preferred : UInt8
  state : ClaimState
  deadline : UInt64
  /-- The NAME's arbitrary-address-capable bit. -/
  arbitrary : Bool
  /-- Addresses observed in use. -/
  used : UInt8 → Bool

/-- A PGN 59904 ISO Request for `pgn`. -/
def requestFrame (src dst : UInt8) (pgn : UInt32) : RawFrame where
  timestamp := none
  prio := 6
  pgn := PGN_ISO_REQUEST
  src := src
  dst := dst
  data := [pgn.toUInt8, (pgn >>> 8).toUInt8, (pgn >>> 16).toUInt8]

/-- The NAME an address claim carries, as its receiver reads it. -/
def nameOf (frame : RawFrame) : UInt64 := UInt64.ofNat (LittleEndian.decode (frame.data.take 8))

namespace AddressClaim

def new (name : UInt64) (preferred : UInt8) (arbitrary : Bool) : AddressClaim where
  name := name
  address := preferred
  preferred := preferred
  state := .Pending
  deadline := 0
  arbitrary := arbitrary
  used := fun _ => false

/-- A passive-sniff claimer that never takes an address. -/
def disabled (name : UInt64) : AddressClaim := { new name 0 true with state := .Disabled }

def claimFrame (c : AddressClaim) : RawFrame where
  timestamp := none
  prio := 6
  pgn := PGN_ISO_ADDRESS_CLAIM
  src := c.address
  dst := ADDR_GLOBAL
  data := LittleEndian.encode 8 c.name.toNat

/-- Begin the handshake: ask every node to announce its claim. -/
def start (c : AddressClaim) (now : UInt64) : AddressClaim × List RawFrame :=
  if c.state = .Disabled then (c, [])
  else
    ({ c with state := .Scanning, deadline := now + SCAN_TIMEOUT_MS },
      [requestFrame ADDR_NULL ADDR_GLOBAL PGN_ISO_ADDRESS_CLAIM])

def pickFree (c : AddressClaim) : Option UInt8 :=
  ((List.range (ADDR_MAX.toNat + 1)).map UInt8.ofNat).find? fun a => !c.used a

def markUsed (c : AddressClaim) (src : UInt8) : AddressClaim :=
  { c with used := Function.update c.used src true }

/-- Claim the address found, or give up: "cannot claim", broadcast from the null address. -/
def settle (c : AddressClaim) (now : UInt64) : Option UInt8 → AddressClaim × List RawFrame
  | some next =>
      let c := { c with address := next, state := .Pending, deadline := now + CLAIM_TIMEOUT_MS }
      (c, [c.claimFrame])
  | none =>
      let c := { c with address := ADDR_NULL, state := .Failed }
      (c, [c.claimFrame])

/-- An inbound claim of `src` for `theirName`: learn the address, and arbitrate by NAME if
it is ours. -/
def onAddressClaim (c : AddressClaim) (now : UInt64) (src : UInt8) (theirName : UInt64) :
    AddressClaim × List RawFrame :=
  if src > ADDR_MAX ∨ c.state = .Disabled then (c, [])
  else if theirName = c.name then (c, [])
  else if c.state = .Scanning ∨ src ≠ c.address then (c.markUsed src, [])
  else if c.name < theirName then
    let c := { c with state := .Pending, deadline := now + CLAIM_TIMEOUT_MS }
    (c, [c.claimFrame])
  else
    let c := c.markUsed src
    c.settle now (if c.arbitrary then c.pickFree else none)

/-- The response to an ISO Request for PGN 60928. -/
def respondToClaimRequest (c : AddressClaim) : Option RawFrame :=
  if c.state = .Claimed ∨ c.state = .Pending then some c.claimFrame else none

/-- Claim the preferred address if it is free, else the lowest free one. -/
def beginClaim (c : AddressClaim) (now : UInt64) : AddressClaim × List RawFrame :=
  c.settle now (if c.used c.preferred then c.pickFree else some c.preferred)

def tick (c : AddressClaim) (now : UInt64) : AddressClaim × List RawFrame :=
  match c.state with
  | .Scanning => if c.deadline ≤ now then c.beginClaim now else (c, [])
  | .Pending => if c.deadline ≤ now then ({ c with state := .Claimed }, []) else (c, [])
  | _ => (c, [])

/-! ## What a call can do -/

/-- The node holds, or is establishing, its address. -/
def Active (c : AddressClaim) : Prop := c.state = .Pending ∨ c.state = .Claimed

instance (c : AddressClaim) : Decidable c.Active := by
  unfold Active
  infer_instance

/-- What holds of every node that has started. -/
structure Started (c : AddressClaim) : Prop where
  enabled : c.state ≠ .Disabled
  active : c.Active → c.address ≤ ADDR_MAX
  failed : c.state = .Failed → c.address = ADDR_NULL
  preferred : c.preferred ≤ ADDR_MAX

variable {c c' : AddressClaim} {now : UInt64} {out : List RawFrame}

theorem nameOf_claimFrame (c : AddressClaim) : nameOf c.claimFrame = c.name := by
  have hlt : c.name.toNat < 256 ^ 8 := c.name.toNat_lt
  have htake : c.claimFrame.data.take 8 = LittleEndian.encode 8 c.name.toNat :=
    List.take_of_length_le (Nat.le_of_eq (LittleEndian.length_encode _ _))
  unfold nameOf
  rw [htake, LittleEndian.decode_encode_of_lt hlt, UInt64.ofNat_toNat]

theorem pickFree_spec {next : UInt8} (h : c.pickFree = some next) :
    next ≤ ADDR_MAX ∧ c.used next = false := by
  unfold pickFree at h
  have hfree := List.find?_some h
  obtain ⟨a, ha, rfl⟩ := List.mem_map.mp (List.mem_of_find?_eq_some h)
  constructor
  · have hlt : a < 254 := List.mem_range.mp ha
    rw [UInt8.le_iff_toNat_le, UInt8.toNat_ofNat', Nat.mod_eq_of_lt (by omega)]
    exact Nat.le_of_lt_succ hlt
  · simpa using hfree

/-- The two kinds of outcome of a call, with the part of the claim it was about: an active
node keeps its address silently, or the node broadcasts the claim of its new state. -/
inductive Call (c : AddressClaim) : AddressClaim × List RawFrame → Prop where
  | quiet (c' : AddressClaim) (hname : c'.name = c.name) (hpref : c'.preferred = c.preferred)
      (hstate : c'.state = c.state ∨ c.state = .Pending ∧ c'.state = .Claimed)
      (haddr : c'.address = c.address) : Call c (c', [])
  | moved (c' : AddressClaim) (hname : c'.name = c.name) (hpref : c'.preferred = c.preferred)
      (hstate : c'.state = .Pending ∧ c'.address ≤ ADDR_MAX ∨
        c'.state = .Failed ∧ c'.address = ADDR_NULL) : Call c (c', [c'.claimFrame])

theorem Call.keeps {res : AddressClaim × List RawFrame} (h : Call c res) (hc : c.Started) :
    res.1.Started ∧ res.1.name = c.name := by
  cases h with
  | quiet c' hname hpref hstate haddr =>
      refine ⟨⟨?_, ?_, ?_, ?_⟩, hname⟩
      · rcases hstate with h | ⟨-, h⟩ <;> rw [h]
        · exact hc.enabled
        · exact ClaimState.noConfusion
      · intro hact
        rw [haddr]
        refine hc.active ?_
        rcases hstate with h | ⟨h, -⟩
        · unfold Active at hact ⊢
          rwa [h] at hact
        · exact Or.inl h
      · intro hf
        rw [haddr]
        rcases hstate with h | ⟨-, h⟩
        · exact hc.failed (h.symm.trans hf)
        · rw [h] at hf
          cases hf
      · rw [hpref]
        exact hc.preferred
  | moved c' hname hpref hstate =>
      refine ⟨⟨?_, ?_, ?_, ?_⟩, hname⟩
      · rcases hstate with ⟨h, -⟩ | ⟨h, -⟩ <;> rw [h] <;> exact ClaimState.noConfusion
      · intro hact
        rcases hstate with ⟨-, h⟩ | ⟨h, -⟩
        · exact h
        · unfold Active at hact
          rw [h] at hact
          rcases hact with h | h <;> cases h
      · intro hf
        rcases hstate with ⟨h, -⟩ | ⟨-, h⟩
        · rw [h] at hf
          cases hf
        · exact h
      · rw [hpref]
        exact hc.preferred

theorem settle_call {next : Option UInt8} (hnext : ∀ a, next = some a → a ≤ ADDR_MAX) :
    Call c (c.settle now next) := by
  cases next with
  | some a => exact Call.moved _ rfl rfl (Or.inl ⟨rfl, hnext a rfl⟩)
  | none => exact Call.moved _ rfl rfl (Or.inr ⟨rfl, rfl⟩)

theorem beginClaim_call (hc : c.Started) : Call c (c.beginClaim now) := by
  apply settle_call
  intro a ha
  split at ha
  · exact (pickFree_spec ha).1
  · rw [← Option.some.inj ha]
    exact hc.preferred

theorem tick_call (hc : c.Started) : Call c (c.tick now) := by
  unfold tick
  split
  · split_ifs with h
    · exact beginClaim_call hc
    · exact Call.quiet c rfl rfl (Or.inl rfl) rfl
  · rename_i hp
    split_ifs with h
    · exact Call.quiet _ rfl rfl (Or.inr ⟨hp, rfl⟩) rfl
    · exact Call.quiet c rfl rfl (Or.inl rfl) rfl
  · exact Call.quiet c rfl rfl (Or.inl rfl) rfl

/-- An inbound claim of another NAME for the address an active node holds makes the node
broadcast; any other one leaves it where it is. -/
theorem onAddressClaim_call (src : UInt8) (theirName : UInt64) :
    Call c (c.onAddressClaim now src theirName) := by
  unfold onAddressClaim
  split_ifs with h1 h2 h3 h4
  · exact Call.quiet c rfl rfl (Or.inl rfl) rfl
  · exact Call.quiet c rfl rfl (Or.inl rfl) rfl
  · exact Call.quiet _ rfl rfl (Or.inl rfl) rfl
  · rw [not_or, not_not] at h3
    rw [not_or] at h1
    refine Call.moved _ rfl rfl (Or.inl ⟨rfl, ?_⟩)
    show c.address ≤ ADDR_MAX
    rw [← h3.2]
    exact UInt8.not_lt.mp h1.1
  · -- the address is marked before the node looks for another one
    have hcall : Call (c.markUsed src) ((c.markUsed src).settle now
        (if (c.markUsed src).arbitrary then (c.markUsed src).pickFree else none)) := by
      apply settle_call
      intro a ha
      split at ha
      · exact (pickFree_spec ha).1
      · cases ha
    generalize (c.markUsed src).settle now _ = res at hcall
    cases hcall with
    | quiet c' hname hpref hstate haddr => exact Call.quiet c' hname hpref hstate haddr
    | moved c' hname hpref hstate => exact Call.moved c' hname hpref hstate

/-- An active node never takes its own address for a foreign one: it is neither disabled
nor scanning. -/
theorem contested (hact : c.Active) (haddr : c.address ≤ ADDR_MAX) :
    ¬ (c.address > ADDR_MAX ∨ c.state = .Disabled) ∧
      ¬ (c.state = .Scanning ∨ c.address ≠ c.address) := by
  constructor
  · rintro (h | h)
    · exact UInt8.not_lt.mpr haddr h
    · rcases hact with ha | ha <;> rw [ha] at h <;> cases h
  · rintro (h | h)
    · rcases hact with ha | ha <;> rw [ha] at h <;> cases h
    · exact h rfl

theorem settle_answers (next : Option UInt8) : (c.settle now next).2 ≠ [] := by
  cases next with
  | some a => exact List.cons_ne_nil _ _
  | none => exact List.cons_ne_nil _ _

/-- An active node answers a foreign claim for its address. -/
theorem onAddressClaim_answers (hact : c.Active) (haddr : c.address ≤ ADDR_MAX)
    {theirName : UInt64} (hname : theirName ≠ c.name) :
    (c.onAddressClaim now c.address theirName).2 ≠ [] := by
  obtain ⟨h1, h3⟩ := contested hact haddr
  unfold onAddressClaim
  rw [if_neg h1, if_neg hname, if_neg h3]
  split_ifs
  · exact List.cons_ne_nil _ _
  · exact settle_answers _

/-- A node that loses its address moves to another one or falls silent. -/
theorem onAddressClaim_yields (hact : c.Active) (haddr : c.address ≤ ADDR_MAX)
    {theirName : UInt64} (hlost : theirName < c.name) :
    ¬ ((c.onAddressClaim now c.address theirName).1.Active ∧
      (c.onAddressClaim now c.address theirName).1.address = c.address) := by
  obtain ⟨h1, h3⟩ := contested hact haddr
  have hmarked : (c.markUsed c.address).used c.address = true := by
    simp [markUsed]
  unfold onAddressClaim
  rw [if_neg h1, if_neg (UInt64.ne_of_lt hlost), if_neg h3, if_neg (UInt64.lt_asymm hlost)]
  generalize hnext : (if (c.markUsed c.address).arbitrary then (c.markUsed c.address).pickFree
    else none) = next
  simp only [hnext]
  cases next with
  | none => rintro ⟨h | h, -⟩ <;> cases h
  | some a =>
      rintro ⟨-, hsame⟩
      split at hnext
      · have hfree := (pickFree_spec hnext).2
        rw [show a = c.address from hsame, hmarked] at hfree
        cases hfree
      · cases hnext

theorem start_new {name : UInt64} {preferred : UInt8} {arbitrary : Bool}
    (hpref : preferred ≤ ADDR_MAX) :
    ((new name preferred arbitrary).start now).1.Started ∧
      ¬ ((new name preferred arbitrary).start now).1.Active ∧
      ((new name preferred arbitrary).start now).1.name = name := by
  refine ⟨⟨?_, ?_, ?_, hpref⟩, ?_, rfl⟩
  · exact ClaimState.noConfusion
  · rintro (h | h) <;> cases h
  · intro h
    cases h
  · rintro (h | h) <;> cases h

end AddressClaim

end Canboat
