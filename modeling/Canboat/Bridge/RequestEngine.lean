import Canboat.Lib.RoundRobin
import Canboat.Snapshot.Store
import Mathlib.Data.UInt
import Mathlib.Data.List.Induction
import Mathlib.Data.List.Rotate
import Mathlib.Logic.Function.Basic

/-!
# Requests for claims and product information

The engine remembers of each source when it last answered and when it was last asked, and finds
the next one that is due behind a cursor of the caller's.
-/

namespace Canboat

namespace RequestEngine

def PGN_CLAIM : UInt32 := 60928

def PGN_PROD_INFO : UInt32 := 126996

def DEVICE_REQUEST_INTERVAL : ℕ := seconds 300

inductive RequestKind
  | Claim
  | ProductInfo
deriving DecidableEq, Repr

structure DeviceState where
  seen : Bool := false
  lastClaimReceived : Option ℕ := none
  lastClaimRequested : Option ℕ := none
  lastProdInfoReceived : Option ℕ := none
  lastProdInfoRequested : Option ℕ := none
deriving DecidableEq, Repr

end RequestEngine

structure RequestEngine where
  devices : UInt8 → Option RequestEngine.DeviceState

namespace RequestEngine

def new : RequestEngine := ⟨fun _ => none⟩

def DeviceState.note (state : DeviceState) (now : ℕ) (pgn : UInt32) : DeviceState :=
  let entry := { state with seen := true }
  if pgn = PGN_CLAIM then { entry with lastClaimReceived := some now }
  else if pgn = PGN_PROD_INFO then { entry with lastProdInfoReceived := some now }
  else entry

def noteDeviceSeen (e : RequestEngine) (now : ℕ) (pgn : UInt32) (src : UInt8) : RequestEngine :=
  ⟨Function.update e.devices src (some (((e.devices src).getD {}).note now pgn))⟩

def DeviceState.lastReceived (state : DeviceState) : RequestKind → Option ℕ
  | .Claim => state.lastClaimReceived
  | .ProductInfo => state.lastProdInfoReceived

def DeviceState.lastRequested (state : DeviceState) : RequestKind → Option ℕ
  | .Claim => state.lastClaimRequested
  | .ProductInfo => state.lastProdInfoRequested

def DeviceState.stamp (state : DeviceState) (now : ℕ) : RequestKind → DeviceState
  | .Claim => { state with lastClaimRequested := some now }
  | .ProductInfo => { state with lastProdInfoRequested := some now }

/-- Less than the interval has gone since. -/
def recent (now : ℕ) (last : Option ℕ) : Bool :=
  last.any fun t => now - t < DEVICE_REQUEST_INTERVAL

/-- The slot that the scan does not pass by. -/
def isDue (e : RequestEngine) (now : ℕ) (kind : RequestKind) (idx : UInt8) : Bool :=
  match e.devices idx with
  | none => false
  | some state =>
      state.seen && !recent now (state.lastReceived kind) && !recent now (state.lastRequested kind)

/-- The slots as the scan comes to them. -/
def slotsFrom (cursor : UInt8) : List UInt8 :=
  (List.range 256).map fun offset => cursor + UInt8.ofNat offset

def stamped (e : RequestEngine) (now : ℕ) (kind : RequestKind) (idx : UInt8) : RequestEngine :=
  ⟨Function.update e.devices idx ((e.devices idx).map (·.stamp now kind))⟩

/-- The source to ask, with the engine and the cursor behind it. -/
def nextDue (e : RequestEngine) (now : ℕ) (cursor : UInt8) (kind : RequestKind) :
    Option (UInt8 × RequestEngine × UInt8) :=
  ((slotsFrom cursor).find? (e.isDue now kind)).map fun idx =>
    (idx, e.stamped now kind idx, idx + 1)

/-! ## Runs -/

inductive RequestCall
  | noteDeviceSeen (pgn : UInt32) (src : UInt8)
  | nextDue (kind : RequestKind)
deriving DecidableEq, Repr

/-- The engine, and the callers' cursors. -/
structure Requester where
  engine : RequestEngine
  cursors : RequestKind → UInt8

def Requester.answer (r : Requester) (now : ℕ) (kind : RequestKind) : Option UInt8 :=
  (r.engine.nextDue now (r.cursors kind) kind).map (·.1)

def Requester.call (r : Requester) (now : ℕ) : RequestCall → Requester
  | .noteDeviceSeen pgn src => { r with engine := r.engine.noteDeviceSeen now pgn src }
  | .nextDue kind =>
      match r.engine.nextDue now (r.cursors kind) kind with
      | some (_, engine, cursor) => ⟨engine, Function.update r.cursors kind cursor⟩
      | none => r

/-- What the calls leave, each with its time. -/
def requester (cursors : RequestKind → UInt8) (calls : List (ℕ × RequestCall)) : Requester :=
  calls.foldl (fun r c => r.call c.1 c.2) ⟨new, cursors⟩

/-- The PGN that answers a request. -/
def RequestKind.pgn : RequestKind → UInt32
  | .Claim => PGN_CLAIM
  | .ProductInfo => PGN_PROD_INFO

/-- A message of the source was noted. -/
def Noted (calls : List (ℕ × RequestCall)) (src : UInt8) : Prop :=
  ∃ t pgn, (t, .noteDeviceSeen pgn src) ∈ calls

/-- The source has answered within the interval. -/
def Answered (calls : List (ℕ × RequestCall)) (now : ℕ) (kind : RequestKind) (src : UInt8) : Prop :=
  ∃ t, (t, .noteDeviceSeen kind.pgn src) ∈ calls ∧ now - t < DEVICE_REQUEST_INTERVAL

/-- One of the calls, which come after those before, returned the source at this time. -/
def Returned (cursors : RequestKind → UInt8) (before calls : List (ℕ × RequestCall)) (t : ℕ)
    (kind : RequestKind) (src : UInt8) : Prop :=
  ∃ first rest, calls = first ++ (t, .nextDue kind) :: rest ∧
    (requester cursors (before ++ first)).answer t kind = some src

/-- The source was returned within the interval. -/
def Requested (cursors : RequestKind → UInt8) (calls : List (ℕ × RequestCall)) (now : ℕ)
    (kind : RequestKind) (src : UInt8) : Prop :=
  ∃ t, Returned cursors [] calls t kind src ∧ now - t < DEVICE_REQUEST_INTERVAL

/-- Noted, and neither requested nor answered within the interval. -/
def Due (cursors : RequestKind → UInt8) (calls : List (ℕ × RequestCall)) (now : ℕ)
    (kind : RequestKind) (src : UInt8) : Prop :=
  Noted calls src ∧ ¬Answered calls now kind src ∧ ¬Requested cursors calls now kind src

/-- Due whenever a source is asked for, until it is returned. -/
def DueThroughout (cursors : RequestKind → UInt8) (before calls : List (ℕ × RequestCall))
    (kind : RequestKind) (src : UInt8) : Prop :=
  ∀ first t rest, calls = first ++ (t, .nextDue kind) :: rest →
    (¬∃ t', Returned cursors before first t' kind src) → Due cursors (before ++ first) t kind src

/-- The clock does not go back. -/
def Clocked (calls : List (ℕ × RequestCall)) : Prop :=
  calls.Pairwise fun a b => a.1 ≤ b.1

/-! ## What the engine remembers -/

def isSeen (e : RequestEngine) (src : UInt8) : Bool := (e.devices src).any (·.seen)

def received (e : RequestEngine) (kind : RequestKind) (src : UInt8) : Option ℕ :=
  (e.devices src).bind (·.lastReceived kind)

def asked (e : RequestEngine) (kind : RequestKind) (src : UInt8) : Option ℕ :=
  (e.devices src).bind (·.lastRequested kind)

theorem isDue_eq (e : RequestEngine) (now : ℕ) (kind : RequestKind) (src : UInt8) :
    e.isDue now kind src =
      (e.isSeen src && !recent now (e.received kind src) && !recent now (e.asked kind src)) := by
  rw [isDue, isSeen, received, asked]
  cases e.devices src with
  | none => rfl
  | some state => rfl

@[simp] theorem recent_some (now t : ℕ) :
    recent now (some t) = true ↔ now - t < DEVICE_REQUEST_INTERVAL := decide_eq_true_iff

variable {e : RequestEngine} {now t : ℕ} {pgn : UInt32} {src src' idx cursor : UInt8}
  {kind kind' : RequestKind}

@[simp] theorem note_seen (state : DeviceState) : (state.note t pgn).seen = true := by
  simp only [DeviceState.note]
  split_ifs <;> rfl

@[simp] theorem note_lastReceived (state : DeviceState) :
    (state.note t pgn).lastReceived kind =
      if pgn = kind.pgn then some t else state.lastReceived kind := by
  by_cases hclaim : pgn = PGN_CLAIM
  · subst hclaim
    cases kind <;> rfl
  · simp only [DeviceState.note, if_neg hclaim]
    by_cases hinfo : pgn = PGN_PROD_INFO
    · subst hinfo
      cases kind <;> rfl
    · rw [if_neg hinfo]
      cases kind with
      | Claim => exact (if_neg hclaim).symm
      | ProductInfo => exact (if_neg hinfo).symm

@[simp] theorem note_lastRequested (state : DeviceState) :
    (state.note t pgn).lastRequested kind = state.lastRequested kind := by
  simp only [DeviceState.note]
  cases kind <;> split_ifs <;> rfl

theorem noteDeviceSeen_isSeen :
    (e.noteDeviceSeen t pgn src).isSeen src' = true ↔ src' = src ∨ e.isSeen src' = true := by
  rw [isSeen, noteDeviceSeen]
  by_cases h : src' = src
  · subst h
    simp
  · simp only [Function.update_of_ne h, h, false_or]
    rfl

theorem noteDeviceSeen_received :
    (e.noteDeviceSeen t pgn src).received kind src' =
      if pgn = kind.pgn ∧ src' = src then some t else e.received kind src' := by
  rw [received, noteDeviceSeen, received]
  by_cases h : src' = src
  · subst h
    simp only [Function.update_self, Option.bind_some, and_true, note_lastReceived]
    cases e.devices src' with
    | none => cases kind <;> rfl
    | some state => rfl
  · simp only [Function.update_of_ne h, h, and_false, if_false]

theorem noteDeviceSeen_asked :
    (e.noteDeviceSeen t pgn src).asked kind src' = e.asked kind src' := by
  rw [asked, noteDeviceSeen, asked]
  by_cases h : src' = src
  · subst h
    simp only [Function.update_self, Option.bind_some, note_lastRequested]
    cases e.devices src' with
    | none => cases kind <;> rfl
    | some state => rfl
  · simp only [Function.update_of_ne h]

@[simp] theorem stamped_isSeen : (e.stamped now kind idx).isSeen src = e.isSeen src := by
  rw [isSeen, stamped, isSeen]
  by_cases h : src = idx
  · subst h
    simp only [Function.update_self, Option.any_map]
    cases e.devices src with
    | none => rfl
    | some state => cases kind <;> rfl
  · simp only [Function.update_of_ne h]

@[simp] theorem stamped_received :
    (e.stamped now kind idx).received kind' src = e.received kind' src := by
  rw [received, stamped, received]
  by_cases h : src = idx
  · subst h
    simp only [Function.update_self]
    cases e.devices src with
    | none => rfl
    | some state => cases kind <;> cases kind' <;> rfl
  · simp only [Function.update_of_ne h]

theorem stamped_asked (hseen : e.isSeen idx = true) :
    (e.stamped now kind idx).asked kind' src =
      if kind' = kind ∧ src = idx then some now else e.asked kind' src := by
  rw [asked, stamped, asked]
  by_cases h : src = idx
  · subst h
    rw [isSeen] at hseen
    simp only [Function.update_self, and_true]
    cases hstate : e.devices src with
    | none =>
        rw [hstate] at hseen
        cases hseen
    | some state => cases kind <;> cases kind' <;> rfl
  · simp only [Function.update_of_ne h, h, and_false, if_false]

/-! ## The ring of slots -/

theorem slotsFrom_rotate_one (c : UInt8) : (slotsFrom c).rotate 1 = slotsFrom (c + 1) := by
  have hhead : slotsFrom c = c :: (List.range 255).map fun k => c + 1 + UInt8.ofNat k := by
    rw [slotsFrom, List.range_succ_eq_map, List.map_cons, List.map_map]
    congr 1
    · exact UInt8.add_zero c
    · refine List.map_congr_left fun k _ => ?_
      rw [Function.comp_apply, Nat.succ_eq_add_one, UInt8.ofNat_add, UInt8.add_comm (UInt8.ofNat k),
        ← UInt8.add_assoc]
      rfl
  have hlast : slotsFrom (c + 1) = ((List.range 255).map fun k => c + 1 + UInt8.ofNat k) ++ [c] := by
    rw [slotsFrom, List.range_succ, List.map_append, List.map_singleton]
    congr 2
    rw [UInt8.add_assoc]
    exact UInt8.add_zero c
  rw [hhead, hlast, List.rotate_cons_succ, List.rotate_zero]

theorem slotsFrom_rotate (c : UInt8) (n : ℕ) :
    (slotsFrom c).rotate n = slotsFrom (c + UInt8.ofNat n) := by
  induction n with
  | zero =>
      rw [List.rotate_zero]
      exact congrArg slotsFrom (UInt8.add_zero c).symm
  | succ n ih =>
      rw [← List.rotate_rotate, ih, slotsFrom_rotate_one, UInt8.ofNat_add, UInt8.add_assoc]
      rfl

theorem mem_slotsFrom (c x : UInt8) : x ∈ slotsFrom c := by
  rw [slotsFrom, List.mem_map]
  refine ⟨(x - c).toNat, List.mem_range.mpr (x - c).toNat_lt, ?_⟩
  rw [UInt8.ofNat_toNat, UInt8.add_comm, UInt8.sub_add_cancel]

theorem slotsFrom_nodup (c : UInt8) : (slotsFrom c).Nodup := by
  refine List.Nodup.map_on ?_ List.nodup_range
  intro a ha b hb h
  have heq : UInt8.ofNat a = UInt8.ofNat b := (UInt8.add_right_inj c).mp h
  have hnat := congrArg UInt8.toNat heq
  rwa [UInt8.toNat_ofNat_of_lt' (List.mem_range.mp ha),
    UInt8.toNat_ofNat_of_lt' (List.mem_range.mp hb)] at hnat

open RoundRobin in
/-- Behind the slot that is returned the scan begins again. -/
theorem serves_slotsFrom {due : UInt8 → Bool} (h : (slotsFrom cursor).find? due = some idx) :
    Serves due (slotsFrom cursor) idx (slotsFrom (idx + 1)) := by
  obtain ⟨turned, skipped, rest, hring, hskipped, hdue, rfl⟩ := serves_of_find? h
  have hlen : skipped.length < (slotsFrom cursor).length := by
    rw [hring, List.length_append, List.length_cons]
    omega
  have hidx : idx = cursor + UInt8.ofNat skipped.length := by
    have hget : (slotsFrom cursor)[skipped.length] = idx := by
      simp only [hring, List.getElem_append_right le_rfl, Nat.sub_self, List.getElem_cons_zero]
    rw [← hget]
    simp only [slotsFrom, List.getElem_map, List.getElem_range]
  refine ⟨skipped, rest, hring, hskipped, hdue, ?_⟩
  have hturn : slotsFrom (idx + 1) = (slotsFrom cursor).rotate (skipped.length + 1) := by
    rw [slotsFrom_rotate, hidx, UInt8.ofNat_add, UInt8.add_assoc]
    rfl
  have hsplit : slotsFrom cursor = (skipped ++ [idx]) ++ rest := by
    rw [hring, List.append_assoc, List.singleton_append]
  have hcount : skipped.length + 1 = (skipped ++ [idx]).length := by
    rw [List.length_append, List.length_singleton]
  rw [hturn, hsplit, hcount, List.rotate_append_length_eq]

/-! ## What a run leaves -/

variable {cursors : RequestKind → UInt8} {calls before : List (ℕ × RequestCall)} {c : RequestCall}

theorem requester_append :
    requester cursors (calls ++ [(t, c)]) = (requester cursors calls).call t c := by
  rw [requester, List.foldl_append]
  rfl

theorem isSeen_of_isDue (h : e.isDue now kind src = true) : e.isSeen src = true := by
  rw [isDue_eq, Bool.and_eq_true, Bool.and_eq_true] at h
  exact h.1.1

theorem Requester.answer_eq (r : Requester) :
    r.answer t kind = (slotsFrom (r.cursors kind)).find? (r.engine.isDue t kind) := by
  rw [Requester.answer, nextDue, Option.map_map]
  exact congrFun Option.map_id _

theorem Requester.isDue_of_answer {r : Requester} (h : r.answer t kind = some idx) :
    r.engine.isDue t kind idx = true := by
  rw [Requester.answer_eq] at h
  exact List.find?_some h

theorem Requester.answer_eq_none {r : Requester} :
    r.answer t kind = none ↔ ∀ src, r.engine.isDue t kind src = false := by
  rw [Requester.answer_eq, List.find?_eq_none]
  constructor
  · intro h src
    exact Bool.eq_false_iff.mpr (h src (mem_slotsFrom _ src))
  · intro h src _
    rw [h src]
    exact Bool.false_ne_true

theorem Requester.call_of_answer {r : Requester} (h : r.answer t kind = some idx) :
    r.call t (.nextDue kind) =
      ⟨r.engine.stamped t kind idx, Function.update r.cursors kind (idx + 1)⟩ := by
  rw [Requester.answer_eq] at h
  rw [Requester.call, nextDue, h]
  rfl

theorem Requester.call_of_none {r : Requester} (h : r.answer t kind = none) :
    r.call t (.nextDue kind) = r := by
  rw [Requester.answer_eq] at h
  rw [Requester.call, nextDue, h]
  rfl

theorem noted_append :
    Noted (calls ++ [(t, c)]) src ↔ Noted calls src ∨ ∃ pgn, c = .noteDeviceSeen pgn src := by
  constructor
  · rintro ⟨t', pgn, h⟩
    rcases List.mem_append.mp h with h | h
    · exact Or.inl ⟨t', pgn, h⟩
    · exact Or.inr ⟨pgn, (congrArg Prod.snd (List.mem_singleton.mp h)).symm⟩
  · rintro (⟨t', pgn, h⟩ | ⟨pgn, rfl⟩)
    · exact ⟨t', pgn, List.mem_append_left _ h⟩
    · exact ⟨t, pgn, List.mem_append_right _ List.mem_cons_self⟩

theorem answered_append :
    Answered (calls ++ [(t, c)]) now kind src ↔
      Answered calls now kind src ∨
        c = .noteDeviceSeen kind.pgn src ∧ now - t < DEVICE_REQUEST_INTERVAL := by
  constructor
  · rintro ⟨t', h, hnow⟩
    rcases List.mem_append.mp h with h | h
    · exact Or.inl ⟨t', h, hnow⟩
    · have heq := List.mem_singleton.mp h
      cases heq
      exact Or.inr ⟨rfl, hnow⟩
  · rintro (⟨t', h, hnow⟩ | ⟨rfl, hnow⟩)
    · exact ⟨t', List.mem_append_left _ h, hnow⟩
    · exact ⟨t, List.mem_append_right _ List.mem_cons_self, hnow⟩

theorem returned_append :
    Returned cursors before (calls ++ [(t, c)]) now kind src ↔
      Returned cursors before calls now kind src ∨ now = t ∧ c = .nextDue kind ∧
        (requester cursors (before ++ calls)).answer t kind = some src := by
  constructor
  · rintro ⟨first, rest, heq, hanswer⟩
    rcases List.eq_nil_or_concat rest with rfl | ⟨rest, last, rfl⟩
    · obtain ⟨rfl, hlast⟩ := List.append_inj' heq rfl
      cases hlast
      exact Or.inr ⟨rfl, rfl, hanswer⟩
    · rw [List.concat_eq_append, ← List.cons_append, ← List.append_assoc] at heq
      obtain ⟨rfl, -⟩ := List.append_inj' heq rfl
      exact Or.inl ⟨first, rest, rfl, hanswer⟩
  · rintro (⟨first, rest, rfl, hanswer⟩ | ⟨rfl, rfl, hanswer⟩)
    · exact ⟨first, rest ++ [(t, c)], by rw [List.append_assoc, List.cons_append], hanswer⟩
    · exact ⟨calls, [], rfl, hanswer⟩

theorem requested_append :
    Requested cursors (calls ++ [(t, c)]) now kind src ↔
      Requested cursors calls now kind src ∨ c = .nextDue kind ∧
        (requester cursors calls).answer t kind = some src ∧ now - t < DEVICE_REQUEST_INTERVAL := by
  constructor
  · rintro ⟨t', h, hnow⟩
    rcases returned_append.mp h with h | ⟨rfl, hc, hanswer⟩
    · exact Or.inl ⟨t', h, hnow⟩
    · exact Or.inr ⟨hc, hanswer, hnow⟩
  · rintro (⟨t', h, hnow⟩ | ⟨hc, hanswer, hnow⟩)
    · exact ⟨t', returned_append.mpr (Or.inl h), hnow⟩
    · exact ⟨t, returned_append.mpr (Or.inr ⟨rfl, hc, hanswer⟩), hnow⟩

/-- The sources that are seen are those that were noted. -/
theorem isSeen_iff : (requester cursors calls).engine.isSeen src = true ↔ Noted calls src := by
  induction calls using List.reverseRecOn with
  | nil =>
      constructor
      · intro h
        cases h
      · rintro ⟨t, pgn, h⟩
        cases h
  | append_singleton calls last ih =>
      rcases last with ⟨t, c⟩
      rw [requester_append, noted_append]
      cases c with
      | noteDeviceSeen pgn src' =>
          rw [Requester.call, noteDeviceSeen_isSeen, ih]
          constructor
          · rintro (rfl | h)
            · exact Or.inr ⟨pgn, rfl⟩
            · exact Or.inl h
          · rintro (h | ⟨pgn', h⟩)
            · exact Or.inr h
            · cases h
              exact Or.inl rfl
      | nextDue kind =>
          have hnot : ¬∃ pgn, RequestCall.nextDue kind = .noteDeviceSeen pgn src := by
            rintro ⟨pgn, h⟩
            cases h
          rw [or_iff_left hnot, ← ih]
          cases hanswer : (requester cursors calls).answer t kind with
          | none => rw [Requester.call_of_none hanswer]
          | some idx =>
              rw [Requester.call_of_answer hanswer]
              simp only [stamped_isSeen]

/-- The calls are in order, and none is after now. -/
def ClockedUpTo (calls : List (ℕ × RequestCall)) (now : ℕ) : Prop :=
  Clocked calls ∧ ∀ c ∈ calls, c.1 ≤ now

theorem clockedUpTo_append :
    ClockedUpTo (calls ++ [(t, c)]) now ↔ ClockedUpTo calls t ∧ t ≤ now := by
  rw [ClockedUpTo, Clocked, ClockedUpTo, Clocked, List.pairwise_append]
  constructor
  · rintro ⟨⟨horder, -, hlast⟩, hnow⟩
    refine ⟨⟨horder, ?_⟩, hnow (t, c) (List.mem_append_right _ List.mem_cons_self)⟩
    exact fun c' hc' => hlast c' hc' (t, c) List.mem_cons_self
  · rintro ⟨⟨horder, hlast⟩, hnow⟩
    refine ⟨⟨horder, List.pairwise_singleton _ _, ?_⟩, ?_⟩
    · intro c' hc' d hd
      rw [List.mem_singleton.mp hd]
      exact hlast c' hc'
    · intro c' hc'
      rcases List.mem_append.mp hc' with hc' | hc'
      · exact (hlast c' hc').trans hnow
      · rw [List.mem_singleton.mp hc']
        exact hnow

theorem Clocked.upTo (h : Clocked (calls ++ [(now, c)])) : ClockedUpTo calls now := by
  rw [Clocked, List.pairwise_append] at h
  exact ⟨h.1, fun c' hc' => h.2.2 c' hc' _ List.mem_cons_self⟩

theorem ClockedUpTo.mono (h : ClockedUpTo calls t) (hnow : t ≤ now) : ClockedUpTo calls now :=
  ⟨h.1, fun c hc => (h.2 c hc).trans hnow⟩

/-- An answer within the interval makes a later one fall within it. -/
theorem Answered.lt (h : Answered calls now kind src) (hclock : ClockedUpTo calls t) :
    now - t < DEVICE_REQUEST_INTERVAL := by
  obtain ⟨t', hmem, hlt⟩ := h
  have hle := hclock.2 _ hmem
  dsimp only at hle
  omega

theorem Requested.lt (h : Requested cursors calls now kind src) (hclock : ClockedUpTo calls t) :
    now - t < DEVICE_REQUEST_INTERVAL := by
  obtain ⟨t', ⟨first, rest, rfl, -⟩, hlt⟩ := h
  have hle := hclock.2 (t', .nextDue kind) (List.mem_append_right _ List.mem_cons_self)
  dsimp only at hle
  omega

/-- The stamp of the last answer is recent just where there was one within the interval. -/
theorem received_iff (hclock : ClockedUpTo calls now) :
    recent now ((requester cursors calls).engine.received kind src) = true ↔
      Answered calls now kind src := by
  induction calls using List.reverseRecOn with
  | nil =>
      constructor
      · intro h
        cases h
      · rintro ⟨t, h, -⟩
        cases h
  | append_singleton calls last ih =>
      rcases last with ⟨t, c⟩
      obtain ⟨hcalls, ht⟩ := clockedUpTo_append.mp hclock
      have ih := ih (hcalls.mono ht)
      rw [requester_append, answered_append]
      cases c with
      | noteDeviceSeen pgn src' =>
          rw [Requester.call, noteDeviceSeen_received]
          by_cases hc : pgn = kind.pgn ∧ src = src'
          · rw [if_pos hc, recent_some, hc.1, hc.2]
            constructor
            · exact fun h => Or.inr ⟨rfl, h⟩
            · rintro (h | ⟨-, h⟩)
              · exact h.lt hcalls
              · exact h
          · rw [if_neg hc, ih]
            constructor
            · exact Or.inl
            · rintro (h | ⟨h, -⟩)
              · exact h
              · cases h
                exact absurd ⟨rfl, rfl⟩ hc
      | nextDue kind' =>
          have hnot : ¬(RequestCall.nextDue kind' = .noteDeviceSeen kind.pgn src ∧
              now - t < DEVICE_REQUEST_INTERVAL) := by
            rintro ⟨h, -⟩
            cases h
          rw [or_iff_left hnot, ← ih]
          cases hanswer : (requester cursors calls).answer t kind' with
          | none => rw [Requester.call_of_none hanswer]
          | some idx =>
              rw [Requester.call_of_answer hanswer]
              simp only [stamped_received]

/-- The stamp of the last request is recent just where there was one within the interval. -/
theorem asked_iff (hclock : ClockedUpTo calls now) :
    recent now ((requester cursors calls).engine.asked kind src) = true ↔
      Requested cursors calls now kind src := by
  induction calls using List.reverseRecOn with
  | nil =>
      constructor
      · intro h
        cases h
      · rintro ⟨t, ⟨first, rest, h, -⟩, -⟩
        exact absurd h.symm (List.append_ne_nil_of_right_ne_nil _ (List.cons_ne_nil _ _))
  | append_singleton calls last ih =>
      rcases last with ⟨t, c⟩
      obtain ⟨hcalls, ht⟩ := clockedUpTo_append.mp hclock
      have ih := ih (hcalls.mono ht)
      rw [requester_append, requested_append]
      cases c with
      | noteDeviceSeen pgn src' =>
          rw [Requester.call, noteDeviceSeen_asked, ih]
          constructor
          · exact Or.inl
          · rintro (h | ⟨h, -⟩)
            · exact h
            · cases h
      | nextDue kind' =>
          cases hanswer : (requester cursors calls).answer t kind' with
          | none =>
              rw [Requester.call_of_none hanswer, ih]
              constructor
              · exact Or.inl
              · rintro (h | ⟨h, hsome, -⟩)
                · exact h
                · cases h
                  rw [hanswer] at hsome
                  cases hsome
          | some idx =>
              have hseen := isSeen_of_isDue (Requester.isDue_of_answer hanswer)
              rw [Requester.call_of_answer hanswer]
              simp only [stamped_asked hseen]
              by_cases hc : kind = kind' ∧ src = idx
              · rcases hc with ⟨rfl, rfl⟩
                rw [if_pos ⟨rfl, rfl⟩, recent_some]
                constructor
                · exact fun h => Or.inr ⟨rfl, hanswer, h⟩
                · rintro (h | ⟨-, -, h⟩)
                  · exact h.lt hcalls
                  · exact h
              · rw [if_neg hc, ih]
                constructor
                · exact Or.inl
                · rintro (h | ⟨h, hsome, -⟩)
                  · exact h
                  · cases h
                    rw [hanswer] at hsome
                    cases hsome
                    exact absurd ⟨rfl, rfl⟩ hc

/-- A slot is due to the scan just where its source is due by the calls that were made. -/
theorem isDue_iff (hclock : ClockedUpTo calls now) :
    (requester cursors calls).engine.isDue now kind src = true ↔ Due cursors calls now kind src := by
  rw [isDue_eq, Bool.and_eq_true, Bool.and_eq_true, Bool.not_eq_true', Bool.not_eq_true',
    isSeen_iff, ← Bool.not_eq_true, ← Bool.not_eq_true, received_iff hclock, asked_iff hclock,
    Due, and_assoc]

theorem DueThroughout.prefix_calls
    (h : DueThroughout cursors before (calls ++ [(t, c)]) kind src) :
    DueThroughout cursors before calls kind src := by
  rintro first t' rest rfl hnot
  exact h first t' (rest ++ [(t, c)]) (by rw [List.append_assoc, List.cons_append]) hnot

open RoundRobin in
/-- While a source is due and not returned, it stays before those that it is before. -/
theorem before_of_dueThroughout {other : UInt8} (hclock : ClockedUpTo (before ++ calls) now)
    (hdue : DueThroughout cursors before calls kind other)
    (hnot : ¬∃ t', Returned cursors before calls t' kind other)
    (hbefore : [other, src].Sublist (slotsFrom ((requester cursors before).cursors kind))) :
    [other, src].Sublist (slotsFrom ((requester cursors (before ++ calls)).cursors kind)) := by
  induction calls using List.reverseRecOn with
  | nil => rwa [List.append_nil]
  | append_singleton calls last ih =>
      rcases last with ⟨t, c⟩
      rw [← List.append_assoc] at hclock
      obtain ⟨hcalls, ht⟩ := clockedUpTo_append.mp hclock
      have hnotCalls : ¬∃ t', Returned cursors before calls t' kind other := by
        rintro ⟨t', h⟩
        exact hnot ⟨t', returned_append.mpr (Or.inl h)⟩
      have ih := ih (hcalls.mono ht) hdue.prefix_calls hnotCalls
      rw [← List.append_assoc, requester_append]
      cases c with
      | noteDeviceSeen pgn src' => exact ih
      | nextDue kind' =>
          cases hanswer : (requester cursors (before ++ calls)).answer t kind' with
          | none => rwa [Requester.call_of_none hanswer]
          | some idx =>
              rw [Requester.call_of_answer hanswer]
              by_cases hkind : kind = kind'
              · subst hkind
                have hne : other ≠ idx := by
                  rintro rfl
                  exact hnot ⟨t, returned_append.mpr (Or.inr ⟨rfl, rfl, hanswer⟩)⟩
                have hother := (isDue_iff hcalls).mpr (hdue calls t [] rfl hnotCalls)
                rw [Requester.answer_eq] at hanswer
                simp only [Function.update_self]
                exact (serves_slotsFrom hanswer).before hother hne ih
              · simp only [Function.update_of_ne hkind]
                exact ih

/-- Between two returns of a source, another that is due throughout is returned. -/
theorem returned_between {between : List (ℕ × RequestCall)} {other : UInt8}
    (hclock : ClockedUpTo ((before ++ [(t, .nextDue kind)]) ++ between) now)
    (hfirst : (requester cursors before).answer t kind = some src)
    (hagain : (requester cursors ((before ++ [(t, .nextDue kind)]) ++ between)).answer now kind =
      some src)
    (hne : other ≠ src)
    (hdue : DueThroughout cursors (before ++ [(t, .nextDue kind)])
      (between ++ [(now, .nextDue kind)]) kind other) :
    ∃ t', Returned cursors (before ++ [(t, .nextDue kind)]) between t' kind other := by
  by_contra hnot
  have hserved : [other, src].Sublist
      (slotsFrom ((requester cursors (before ++ [(t, .nextDue kind)])).cursors kind)) := by
    rw [requester_append, Requester.call_of_answer hfirst]
    simp only [Function.update_self]
    rw [Requester.answer_eq] at hfirst
    exact (serves_slotsFrom hfirst).before_served (mem_slotsFrom _ other) hne
  have hbefore := before_of_dueThroughout hclock hdue.prefix_calls hnot hserved
  have hother := (isDue_iff hclock).mpr (hdue between now [] rfl hnot)
  by_cases hsame : other = src
  · exact hne hsame
  · rw [Requester.answer_eq] at hagain
    exact (serves_slotsFrom hagain).ne_of_before (slotsFrom_nodup _) hother hne hbefore rfl

/-- No source is asked again, or after its answer, within the interval; a source that is due is
asked, and before one is asked again each other that is due is. -/
theorem answer_rateLimited_fair (cursors : RequestKind → UInt8) (calls : List (ℕ × RequestCall))
    (now : ℕ) (kind : RequestKind) (hclock : Clocked (calls ++ [(now, .nextDue kind)])) :
    (∀ src, (requester cursors calls).answer now kind = some src →
      Noted calls src ∧ ¬Requested cursors calls now kind src ∧ ¬Answered calls now kind src) ∧
    ((requester cursors calls).answer now kind = none ↔
      ∀ src, Noted calls src → Requested cursors calls now kind src ∨
        Answered calls now kind src) ∧
    (∀ before t between src other, calls = (before ++ [(t, .nextDue kind)]) ++ between →
      (requester cursors before).answer t kind = some src →
      (requester cursors calls).answer now kind = some src → other ≠ src →
      DueThroughout cursors (before ++ [(t, .nextDue kind)]) (between ++ [(now, .nextDue kind)])
        kind other →
      ∃ t', Returned cursors (before ++ [(t, .nextDue kind)]) between t' kind other) := by
  have hcalls := hclock.upTo
  refine ⟨?_, ?_, ?_⟩
  · intro src hanswer
    obtain ⟨hnoted, hanswered, hrequested⟩ :=
      (isDue_iff hcalls).mp (Requester.isDue_of_answer hanswer)
    exact ⟨hnoted, hrequested, hanswered⟩
  · rw [Requester.answer_eq_none]
    constructor
    · intro h src hnoted
      by_contra hnot
      rw [not_or] at hnot
      have hdue := (isDue_iff hcalls).mpr ⟨hnoted, hnot.2, hnot.1⟩
      rw [h src] at hdue
      cases hdue
    · intro h src
      rw [← Bool.not_eq_true, isDue_iff hcalls]
      rintro ⟨hnoted, hanswered, hrequested⟩
      rcases h src hnoted with h | h
      · exact hrequested h
      · exact hanswered h
  · rintro before t between src other rfl hfirst hagain hne hdue
    exact returned_between hcalls hfirst hagain hne hdue

/-- Two sources are noted, and the first is asked; after the interval the second was asked
between. -/
theorem answer_rateLimited_fair_two :
    ∃ t', Returned (fun _ => 5)
      [(0, .noteDeviceSeen 127251 3), (0, .noteDeviceSeen 127251 9), (1, .nextDue .Claim)]
      [(2, .nextDue .Claim)] t' .Claim 3 := by
  refine (answer_rateLimited_fair (fun _ => 5)
    [(0, .noteDeviceSeen 127251 3), (0, .noteDeviceSeen 127251 9), (1, .nextDue .Claim),
      (2, .nextDue .Claim)] (seconds 400) .Claim ?_).2.2
    [(0, .noteDeviceSeen 127251 3), (0, .noteDeviceSeen 127251 9)] 1 [(2, .nextDue .Claim)] 9 3
    rfl ?_ ?_ ?_ ?_
  · rw [Clocked]
    decide +kernel
  · decide +kernel
  · decide +kernel
  · decide +kernel
  · rintro first t rest hcalls hnot
    rcases first with _ | ⟨call, first⟩
    · cases hcalls
      refine (isDue_iff ⟨?_, ?_⟩).mp ?_
      · rw [Clocked]
        decide +kernel
      · decide +kernel
      · decide +kernel
    · have hcall : call = (2, .nextDue .Claim) := (List.cons.inj hcalls).1.symm
      exact absurd ⟨2, [], first, by rw [hcall, List.nil_append], by decide +kernel⟩ hnot

end RequestEngine

end Canboat
