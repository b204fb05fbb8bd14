import Canboat.Reassembly.Model
import Mathlib.Data.Finset.Option

/-!
# The reassembler's tables as maps

`held r k` is the slot in use under a (pgn, src, seq) key and `session r src`
the open TP session of a source. The invariant `WF` (unique keys, fixed table
and buffer sizes) holds of every reachable state, and under it each push is
described by what it does to the two maps: it runs `accept` on the one slot it
selects, and every other key keeps its slot unless the push had to evict it.
-/

namespace Canboat

open SlotTable Buffer

/-- A freshly claimed slot. -/
def Slot.claimed (k : FastId) (age : UInt64) : Slot :=
  { used := true, pgn := k.1, src := k.2.1, seq := k.2.2, age }

/-- The key of the slot a push selects, when it gets as far as the table. -/
def fastKey (frame : RawFrame) (packetType : FramePacketType) : Option FastId :=
  if frame.pgn = PGN_ISO_TP_CM ∨ frame.pgn = PGN_ISO_TP_DT ∨
      frame.data.length > 8 ∨ packetType ≠ .Fast then none
  else frame.data.head?.map fun header => (frame.pgn, frame.src, frameSeq header)

namespace Slot

variable (slot : Slot) (frame : RawFrame)

/-! ## `accept` on one slot -/

@[simp] theorem length_storeBucket (buffer : List UInt8) (index : ℕ) (data : List UInt8) :
    (storeBucket buffer index data).length = buffer.length := by
  simp [storeBucket]

theorem gather_key : slotView.key (slot.gather frame) = slotView.key slot := rfl

theorem gather_data_length : (slot.gather frame).data.length = slot.data.length := by
  simp [Slot.gather]

/-- Either the gathered slot completes, and is freed, or it is kept as it is. -/
theorem accept_cases :
    (slot.accept frame = ({ slot.gather frame with used := false, frames := 0#32, size := 0 },
        .Complete { frame with data := (slot.gather frame).data.take (slot.gather frame).size }) ∧
      (slot.gather frame).allFrames ≠ 0#32 ∧
      (slot.gather frame).frames = (slot.gather frame).allFrames) ∨
    (slot.accept frame = (slot.gather frame, .Partial) ∧
      ((slot.gather frame).allFrames ≠ 0#32 →
        (slot.gather frame).frames ≠ (slot.gather frame).allFrames)) := by
  unfold Slot.accept
  by_cases h : (slot.gather frame).allFrames ≠ 0#32 ∧
      (slot.gather frame).frames = (slot.gather frame).allFrames
  · exact Or.inl ⟨by simp only [h, ne_eq, not_false_eq_true, and_self, if_true], h⟩
  · exact Or.inr ⟨by simp only [h, if_false], fun h0 h1 => h ⟨h0, h1⟩⟩

theorem accept_key : slotView.key (slot.accept frame).1 = slotView.key slot := by
  rcases accept_cases slot frame with ⟨h, -⟩ | ⟨h, -⟩ <;> rw [h] <;> rfl

theorem accept_data_length : (slot.accept frame).1.data.length = slot.data.length := by
  rcases accept_cases slot frame with ⟨h, -⟩ | ⟨h, -⟩ <;> rw [h] <;>
    exact gather_data_length slot frame

end Slot

namespace TpSlot

variable (slot : TpSlot) (frame : RawFrame)

/-- What a TP.DT frame completes to. -/
def assembled (slot : TpSlot) (src : UInt8) : RawFrame :=
  { timestamp := slot.timestamp, prio := slot.prio, pgn := slot.targetPgn, src := src,
    dst := slot.dst, data := slot.data.take slot.totalSize }

/-- An out-of-range sequence number is ignored; otherwise the chunk is taken in
and the session completes or stays open. -/
theorem accept_cases :
    (slot.accept frame = (slot, .Partial) ∧
      (frame.data.headD 0 = 0 ∨ frame.data.headD 0 > slot.packets)) ∨
    (¬ (frame.data.headD 0 = 0 ∨ frame.data.headD 0 > slot.packets) ∧
      ((slot.accept frame = (slot.gather frame, .Partial) ∧
          (slot.gather frame).allReceived = false) ∨
        (slot.accept frame = ({ slot.gather frame with timestamp := none, used := false },
            .Complete ((slot.gather frame).assembled frame.src)) ∧
          (slot.gather frame).allReceived = true))) := by
  unfold TpSlot.accept
  by_cases hr : frame.data.headD 0 = 0 ∨ frame.data.headD 0 > slot.packets
  · exact Or.inl ⟨if_pos hr, hr⟩
  · refine Or.inr ⟨hr, ?_⟩
    simp only [if_neg hr]
    cases ha : (slot.gather frame).allReceived with
    | false => exact Or.inl ⟨by simp, rfl⟩
    | true => exact Or.inr ⟨by simp [assembled], rfl⟩

theorem gather_sizes : (slot.gather frame).received.length = slot.received.length ∧
    (slot.gather frame).data.length = slot.data.length ∧
    (slot.gather frame).totalSize = slot.totalSize := by
  simp [gather]

theorem accept_src : (slot.accept frame).1.src = slot.src := by
  rcases accept_cases slot frame with ⟨h, -⟩ | ⟨-, ⟨h, -⟩ | ⟨h, -⟩⟩ <;> rw [h] <;> rfl

theorem accept_sizes : (slot.accept frame).1.received.length = slot.received.length ∧
    (slot.accept frame).1.data.length = slot.data.length ∧
    (slot.accept frame).1.totalSize = slot.totalSize := by
  rcases accept_cases slot frame with ⟨h, -⟩ | ⟨-, ⟨h, -⟩ | ⟨h, -⟩⟩ <;> rw [h]
  · exact ⟨rfl, rfl, rfl⟩
  · exact gather_sizes slot frame
  · exact gather_sizes slot frame

end TpSlot

/-- The frame is a `BAM` or `RTS` whose declaration the reassembler accepts. -/
def opensSession (frame : RawFrame) : Prop :=
  frame.pgn = PGN_ISO_TP_CM ∧ 8 ≤ frame.data.length ∧
    (frame.data.headD 0 = TP_CM_BAM ∨ frame.data.headD 0 = TP_CM_RTS) ∧
    (Reassembler.tpDeclared frame.data).2.1 ≠ 0 ∧
    (Reassembler.tpDeclared frame.data).1 ≠ 0 ∧
    (Reassembler.tpDeclared frame.data).1 ≤ ISO_TP_MAX_SIZE

instance (frame : RawFrame) : Decidable (opensSession frame) := by
  unfold opensSession
  infer_instance

/-- The session an accepted `BAM` or `RTS` opens. -/
def TpSlot.opened (frame : RawFrame) (age : UInt64) : TpSlot where
  used := true
  src := frame.src
  dst := frame.dst
  prio := frame.prio
  targetPgn := (Reassembler.tpDeclared frame.data).2.2
  totalSize := (Reassembler.tpDeclared frame.data).1
  packets := (Reassembler.tpDeclared frame.data).2.1
  timestamp := frame.timestamp
  data := List.replicate (Reassembler.tpDeclared frame.data).1 0xff
  age := age

namespace Reassembler

variable {r : Reassembler} {frame : RawFrame} {packetType : FramePacketType} {k k' : FastId}

/-- The slot in use under `k`. -/
def held (r : Reassembler) (k : FastId) : Option Slot := slotView.lookup k r.slots

/-- The open ISO TP session of `src`. -/
def session (r : Reassembler) (src : UInt8) : Option TpSlot := tpView.lookup src r.tpSlots

/-- Keys some fast-packet slot is in use under. -/
def heldKeys (r : Reassembler) : Finset FastId := slotView.keys r.slots

/-- Invariant of both tables. -/
structure WF (r : Reassembler) : Prop where
  slots_length : r.slots.length = REASSEMBLY_BUFFER_SIZE
  slots_unique : slotView.KeyUnique r.slots
  slots_data : ∀ s ∈ r.slots, s.data.length = FASTPACKET_MAX_SIZE
  tp_length : r.tpSlots.length = ISO_TP_SLOTS
  tp_unique : tpView.KeyUnique r.tpSlots
  tp_received : ∀ s ∈ r.tpSlots, s.received.length = 4
  tp_data : ∀ s ∈ r.tpSlots, s.data.length = s.totalSize

theorem new_wf : new.WF where
  slots_length := by simp [new]
  slots_unique := View.KeyUnique.replicate rfl
  slots_data := by
    intro s hs
    rw [List.eq_of_mem_replicate hs]
    simp
  tp_length := by simp [new]
  tp_unique := View.KeyUnique.replicate rfl
  tp_received := by
    intro s hs
    rw [List.eq_of_mem_replicate hs]
    simp
  tp_data := by
    intro s hs
    rw [List.eq_of_mem_replicate hs]
    simp

/-! ## Fast-packet pushes -/

theorem findSlot_eq (r : Reassembler) (k : FastId) :
    r.findSlot k.1 k.2.1 k.2.2 = slotView.find k r.slots := by
  unfold findSlot View.find
  congr 1
  funext s
  rw [Bool.eq_iff_iff, View.holds_iff]
  simp [slotView, Prod.ext_iff, and_assoc]

theorem claimSlot_eq (r : Reassembler) (k : FastId) :
    r.claimSlot k.1 k.2.1 k.2.2 = (slotView.victim r.slots).map fun i =>
      (i, { r with nextAge := r.nextAge + 1, slots := r.slots.set i (.claimed k r.nextAge) }) :=
  rfl

theorem fastKey_eq_some : fastKey frame packetType = some k ↔
    frame.pgn ≠ PGN_ISO_TP_CM ∧ frame.pgn ≠ PGN_ISO_TP_DT ∧ frame.data.length ≤ 8 ∧
      packetType = .Fast ∧ ∃ header rest, frame.data = header :: rest ∧
        k = (frame.pgn, frame.src, frameSeq header) := by
  unfold fastKey
  split
  · rename_i h
    simp only [reduceCtorEq, false_iff]
    rintro ⟨h1, h2, h3, h4, -⟩
    rcases h with h | h | h | h
    · exact h1 h
    · exact h2 h
    · omega
    · exact h h4
  · rename_i h
    simp only [not_or, ne_eq, not_not] at h
    obtain ⟨h1, h2, h3, h4⟩ := h
    cases hd : frame.data with
    | nil => simp
    | cons header rest =>
        rw [hd] at h3
        simp only [List.head?_cons, Option.map_some, Option.some.injEq]
        constructor
        · rintro rfl
          exact ⟨h1, h2, by omega, h4, header, rest, rfl, rfl⟩
        · rintro ⟨-, -, -, -, header', rest', heq, rfl⟩
          cases heq
          rfl

/-- **One fast-packet push.** It runs `accept` on the slot held under its key, or
on a freshly claimed one, and writes the result back to that slot alone. -/
theorem push_fast (hw : r.WF) (hk : fastKey frame packetType = some k) :
    ∃ i t, r.slots[i]? = some t ∧
      (r.held k = some t ∨ r.held k = none ∧ slotView.victim r.slots = some i) ∧
      r.push frame packetType =
        ({ r with
            nextAge := if r.held k = none then r.nextAge + 1 else r.nextAge
            slots := r.slots.set i (((r.held k).getD (.claimed k r.nextAge)).accept frame).1 },
          (((r.held k).getD (.claimed k r.nextAge)).accept frame).2) := by
  obtain ⟨hcm, hdt, hlen, rfl, header, rest, hdata, rfl⟩ := fastKey_eq_some.mp hk
  have hsel : ¬ (frame.data.length > 8 ∨ FramePacketType.Fast ≠ .Fast) := by
    rintro (h | h)
    · omega
    · exact h rfl
  have hpush : ∀ {i : ℕ} {r' : Reassembler},
      r.findSlot frame.pgn frame.src (frameSeq header) = some i ∧ r' = r ∨
        r.findSlot frame.pgn frame.src (frameSeq header) = none ∧
          r.claimSlot frame.pgn frame.src (frameSeq header) = some (i, r') →
      r.push frame .Fast =
        ({ r' with slots := r'.slots.set i ((r'.slots.getD i {}).accept frame).1 },
          ((r'.slots.getD i {}).accept frame).2) := by
    intro i r' h
    unfold push
    rw [if_neg hcm, if_neg hdt, if_neg hsel]
    rcases h with ⟨hf, rfl⟩ | ⟨hf, hc⟩
    · simp only [hdata, hf]
    · simp only [hdata, hf, hc]
  set k : FastId := (frame.pgn, frame.src, frameSeq header) with hkdef
  have hfind : r.findSlot frame.pgn frame.src (frameSeq header) = slotView.find k r.slots :=
    findSlot_eq r k
  rw [hfind] at hpush
  cases hf : slotView.find k r.slots with
  | some i =>
      obtain ⟨t, ht, -, -, hl⟩ := View.lookup_of_find hf
      have hheld : r.held k = some t := hl
      refine ⟨i, t, ht, Or.inl hheld, ?_⟩
      rw [hpush (Or.inl ⟨hf, rfl⟩)]
      simp [hheld, List.getD, ht]
  | none =>
      have hheld : r.held k = none := View.find_eq_none.mp hf
      have hne : r.slots ≠ [] := by
        intro h
        have := hw.slots_length
        simp [h, REASSEMBLY_BUFFER_SIZE] at this
      obtain ⟨i, hv, hi⟩ := View.victim_isSome (V := slotView) hne
      have hclaim : r.claimSlot frame.pgn frame.src (frameSeq header) =
          some (i, { r with nextAge := r.nextAge + 1,
                            slots := r.slots.set i (.claimed k r.nextAge) }) := by
        have h := claimSlot_eq r k
        rw [hv] at h
        exact h
      refine ⟨i, r.slots[i], List.getElem?_eq_getElem hi, Or.inr ⟨hheld, hv⟩, ?_⟩
      rw [hpush (Or.inr ⟨hf, hclaim⟩)]
      simp [hheld, List.getD, hi]

/-! ## ISO TP pushes -/

/-- Everything a TP.CM or TP.DT push can do. -/
inductive TpStep (r : Reassembler) (frame : RawFrame) : Reassembler × Reassembled → Prop where
  /-- A session is opened, over the old one of this source or in a claimed slot. -/
  | opens (i : ℕ) (t : TpSlot) (ho : opensSession frame) (hi : r.tpSlots[i]? = some t)
      (hsel : r.session frame.src = some t ∨
        r.session frame.src = none ∧ tpView.victim r.tpSlots = some i) :
      TpStep r frame
        ({ r with
            tpNextAge := r.tpNextAge + 1
            tpSlots := r.tpSlots.set i (.opened frame (r.tpNextAge + 1)) }, .Partial)
  /-- The open session of this source is dropped. -/
  | aborts (i : ℕ) (t : TpSlot) (hp : frame.pgn = PGN_ISO_TP_CM)
      (hc : frame.data.headD 0 = TP_CM_ABORT) (hi : r.tpSlots[i]? = some t)
      (hs : r.session frame.src = some t) :
      TpStep r frame ({ r with tpSlots := r.tpSlots.set i { t with used := false } }, .Partial)
  /-- A chunk reaches the open session of this source. -/
  | chunk (i : ℕ) (t : TpSlot) (hp : frame.pgn = PGN_ISO_TP_DT) (hd : frame.data ≠ [])
      (hi : r.tpSlots[i]? = some t) (hs : r.session frame.src = some t) :
      TpStep r frame
        ({ r with tpSlots := r.tpSlots.set i (t.accept frame).1 }, (t.accept frame).2)
  /-- The frame is swallowed. -/
  | idle (ho : ¬ opensSession frame)
      (hd : frame.pgn = PGN_ISO_TP_DT → frame.data = [] ∨ r.session frame.src = none) :
      TpStep r frame (r, if frame.data = [] then .Error .EmptyData else .Partial)

theorem findTpSlot_eq (r : Reassembler) (src : UInt8) :
    r.findTpSlot src = tpView.find src r.tpSlots := by
  unfold findTpSlot View.find
  congr 1

theorem find_session (r : Reassembler) (src : UInt8) :
    (∃ i t, tpView.find src r.tpSlots = some i ∧ r.tpSlots[i]? = some t ∧
        r.session src = some t) ∨
      (tpView.find src r.tpSlots = none ∧ r.session src = none) := by
  cases hf : tpView.find src r.tpSlots with
  | some i =>
      obtain ⟨t, ht, -, -, hl⟩ := View.lookup_of_find hf
      exact Or.inl ⟨i, t, rfl, ht, hl⟩
  | none => exact Or.inr ⟨rfl, View.find_eq_none.mp hf⟩

theorem modify_eq_set {α : Type*} {l : List α} {i : ℕ} {t : α} {f : α → α}
    (h : l[i]? = some t) : l.modify i f = l.set i (f t) := by
  rw [List.modify_eq_set_getElem?, h]
  rfl

theorem handleTpCm_step (hw : r.WF) (hp : frame.pgn = PGN_ISO_TP_CM) :
    TpStep r frame (r.handleTpCm frame) := by
  have hdt : frame.pgn ≠ PGN_ISO_TP_DT := by rw [hp]; decide
  unfold handleTpCm
  cases hd : frame.data with
  | nil =>
      have ho : ¬ opensSession frame := by simp [opensSession, hd]
      have h := TpStep.idle (r := r) ho (fun h => absurd h hdt)
      simpa [hd] using h
  | cons control rest =>
      have hidle : ¬ opensSession frame → TpStep r frame (r, .Partial) := by
        intro ho
        have h := TpStep.idle (r := r) ho (fun h => absurd h hdt)
        simpa [hd] using h
      simp only
      split_ifs with hctl hshort himp habort
      · exact hidle fun ho => by
          have := ho.2.1
          rw [hd] at this
          omega
      · exact hidle fun ho => by
          obtain ⟨-, -, -, h1, h2, h3⟩ := ho
          rw [hd] at h1 h2 h3
          rcases himp with h | h | h
          · exact h1 h
          · exact h2 h
          · omega
      · have ho : opensSession frame := by
          simp only [not_or, not_lt] at himp hshort
          refine ⟨hp, ?_, ?_, ?_, ?_, ?_⟩ <;> rw [hd]
          exacts [hshort, hctl, himp.1, himp.2.1, himp.2.2]
        unfold claimTpSlot
        rw [findTpSlot_eq]
        rcases find_session r frame.src with ⟨i, t, hf, hi, hs⟩ | ⟨hf, hs⟩
        · have h := TpStep.opens i t ho hi (Or.inl hs)
          rw [hf]
          simp only
          rw [modify_eq_set hi, modify_eq_set (List.getElem?_set_self
            (List.getElem?_eq_some_iff.mp hi).1), List.set_set]
          simpa [TpSlot.opened, hd] using h
        · have hne : r.tpSlots ≠ [] := by
            intro h
            have := hw.tp_length
            simp [h, ISO_TP_SLOTS] at this
          obtain ⟨i, hv, hi⟩ := View.victim_isSome (V := tpView) hne
          have h := TpStep.opens i _ ho (List.getElem?_eq_getElem hi) (Or.inr ⟨hs, hv⟩)
          rw [hf]
          simp only [hv, Option.map_some]
          rw [modify_eq_set (List.getElem?_set_self hi), List.set_set]
          simpa [TpSlot.opened, hd] using h
      · rw [findTpSlot_eq]
        have hno : ¬ opensSession frame := fun ho => hctl (by simpa [hd] using ho.2.2.1)
        rcases find_session r frame.src with ⟨i, t, hf, hi, hs⟩ | ⟨hf, hs⟩
        · have h := TpStep.aborts i t hp (by rw [hd]; exact habort) hi hs
          rw [hf]
          simp only
          rw [modify_eq_set hi]
          exact h
        · rw [hf]
          exact hidle hno
      · exact hidle fun ho => hctl (by simpa [hd] using ho.2.2.1)

theorem handleTpDt_step (hp : frame.pgn = PGN_ISO_TP_DT) :
    TpStep r frame (r.handleTpDt frame) := by
  have ho : ¬ opensSession frame := fun h => by
    rw [h.1] at hp
    exact absurd hp (by decide)
  unfold handleTpDt
  cases hd : frame.data with
  | nil =>
      have h := TpStep.idle (r := r) ho (fun _ => Or.inl hd)
      simpa [hd] using h
  | cons header rest =>
      simp only
      rw [findTpSlot_eq]
      rcases find_session r frame.src with ⟨i, t, hf, hi, hs⟩ | ⟨hf, hs⟩
      · have h := TpStep.chunk i t hp (by simp [hd]) hi hs
        rw [hf]
        simpa [List.getD, hi] using h
      · rw [hf]
        have h := TpStep.idle (r := r) ho (fun _ => Or.inr hs)
        simpa [hd] using h

theorem push_tpStep (hw : r.WF)
    (hp : frame.pgn = PGN_ISO_TP_CM ∨ frame.pgn = PGN_ISO_TP_DT) :
    TpStep r frame (r.push frame packetType) := by
  unfold push
  rcases hp with hp | hp
  · rw [if_pos hp]
    exact handleTpCm_step hw hp
  · rw [if_neg (by rw [hp]; decide), if_pos hp]
    exact handleTpDt_step hp

/-- TP pushes do not touch the fast-packet table. -/
theorem TpStep.slots {res : Reassembler × Reassembled} (h : TpStep r frame res) :
    res.1.slots = r.slots ∧ res.1.nextAge = r.nextAge := by
  cases h <;> exact ⟨rfl, rfl⟩

/-- Pushes that reach neither table: passed through, or an empty frame. -/
theorem push_idle (hk : fastKey frame packetType = none)
    (hcm : frame.pgn ≠ PGN_ISO_TP_CM) (hdt : frame.pgn ≠ PGN_ISO_TP_DT) :
    (r.push frame packetType).1 = r := by
  unfold push
  rw [if_neg hcm, if_neg hdt]
  split_ifs with h
  · rfl
  · cases hd : frame.data with
    | nil => rfl
    | cons header rest =>
        rw [not_or, not_lt, not_not] at h
        have hsome := fastKey_eq_some.mpr ⟨hcm, hdt, h.1, h.2, header, rest, hd, rfl⟩
        rw [hk] at hsome
        cases hsome

/-- A push that selects no fast-packet slot leaves that table alone. -/
theorem push_slots_of_no_key (hw : r.WF) (hk : fastKey frame packetType = none) :
    (r.push frame packetType).1.slots = r.slots := by
  by_cases hp : frame.pgn = PGN_ISO_TP_CM ∨ frame.pgn = PGN_ISO_TP_DT
  · exact (push_tpStep hw hp).slots.1
  · rw [not_or] at hp
    rw [push_idle hk hp.1 hp.2]

/-- A push of an ordinary frame leaves the TP sessions alone. -/
theorem push_tpSlots_of_ordinary (hw : r.WF) (hcm : frame.pgn ≠ PGN_ISO_TP_CM)
    (hdt : frame.pgn ≠ PGN_ISO_TP_DT) :
    (r.push frame packetType).1.tpSlots = r.tpSlots ∧
      (r.push frame packetType).1.tpNextAge = r.tpNextAge := by
  cases hk : fastKey frame packetType with
  | none =>
      rw [push_idle hk hcm hdt]
      exact ⟨rfl, rfl⟩
  | some k =>
      obtain ⟨i, t, -, -, hpush⟩ := push_fast hw hk
      rw [hpush]
      exact ⟨rfl, rfl⟩

/-! ## The invariant -/

theorem mem_set {α : Type*} {l : List α} {i : ℕ} {s t x : α} (hi : l[i]? = some t)
    (hx : x ∈ l.set i s) : x = s ∨ x ∈ l := by
  rcases (View.mem_set_iff (List.getElem?_eq_some_iff.mp hi).1).mp hx with h | ⟨j, -, hj⟩
  · exact Or.inl h
  · exact Or.inr (List.mem_of_getElem? hj)

theorem session_holds {src : UInt8} {t : TpSlot} (h : r.session src = some t) :
    t.used = true ∧ t.src = src :=
  View.lookup_holds h

theorem TpStep.wf {res : Reassembler × Reassembled} (hw : r.WF) (h : TpStep r frame res) :
    res.1.WF := by
  refine ⟨h.slots.1 ▸ hw.slots_length, h.slots.1 ▸ hw.slots_unique, h.slots.1 ▸ hw.slots_data,
    ?_, ?_, ?_, ?_⟩
  · cases h <;> simp [hw.tp_length]
  · cases h with
    | opens i t ho hi hsel =>
        rcases hsel with hs | ⟨hs, -⟩
        · obtain ⟨hut, hkt⟩ := session_holds hs
          exact hw.tp_unique.set_held hi hut fun _ => hkt.symm
        · exact hw.tp_unique.set_new hs rfl
    | aborts i t hp hc hi hs =>
        exact hw.tp_unique.set_held hi (session_holds hs).1 fun h => absurd h (by simp [tpView])
    | chunk i t hp hd hi hs =>
        exact hw.tp_unique.set_held hi (session_holds hs).1 fun _ => TpSlot.accept_src t frame
    | idle ho hd => exact hw.tp_unique
  · cases h with
    | opens i t ho hi hsel =>
        intro s hs
        rcases mem_set hi hs with rfl | hs
        · simp [TpSlot.opened]
        · exact hw.tp_received s hs
    | aborts i t hp hc hi hs =>
        intro s hs'
        rcases mem_set hi hs' with rfl | hs'
        · exact hw.tp_received t (List.mem_of_getElem? hi)
        · exact hw.tp_received s hs'
    | chunk i t hp hd hi hs =>
        intro s hs'
        rcases mem_set hi hs' with rfl | hs'
        · rw [(TpSlot.accept_sizes t frame).1]
          exact hw.tp_received t (List.mem_of_getElem? hi)
        · exact hw.tp_received s hs'
    | idle ho hd => exact hw.tp_received
  · cases h with
    | opens i t ho hi hsel =>
        intro s hs
        rcases mem_set hi hs with rfl | hs
        · simp [TpSlot.opened]
        · exact hw.tp_data s hs
    | aborts i t hp hc hi hs =>
        intro s hs'
        rcases mem_set hi hs' with rfl | hs'
        · exact hw.tp_data t (List.mem_of_getElem? hi)
        · exact hw.tp_data s hs'
    | chunk i t hp hd hi hs =>
        intro s hs'
        rcases mem_set hi hs' with rfl | hs'
        · rw [(TpSlot.accept_sizes t frame).2.1, (TpSlot.accept_sizes t frame).2.2]
          exact hw.tp_data t (List.mem_of_getElem? hi)
        · exact hw.tp_data s hs'
    | idle ho hd => exact hw.tp_data

theorem held_holds {s : Slot} (h : r.held k = some s) : s.used = true ∧ slotView.key s = k :=
  View.lookup_holds h

/-- The slot a fast-packet push works on. -/
def target (r : Reassembler) (k : FastId) : Slot := (r.held k).getD (.claimed k r.nextAge)

theorem target_key : slotView.key (r.target k) = k := by
  unfold target
  cases h : r.held k with
  | none => rfl
  | some s => exact (held_holds h).2

theorem target_data_length (hw : r.WF) : (r.target k).data.length = FASTPACKET_MAX_SIZE := by
  unfold target
  cases h : r.held k with
  | none => simp [Slot.claimed]
  | some s => exact hw.slots_data s (View.lookup_mem h)

theorem push_fast_unique (hw : r.WF) {i : ℕ} {t : Slot} (hi : r.slots[i]? = some t)
    (hsel : r.held k = some t ∨ r.held k = none ∧ slotView.victim r.slots = some i) :
    slotView.KeyUnique (r.slots.set i ((r.target k).accept frame).1) := by
  rcases hsel with h | ⟨h, -⟩
  · obtain ⟨hut, hkt⟩ := held_holds h
    exact hw.slots_unique.set_held hi hut fun _ =>
      (Slot.accept_key _ _).trans (target_key.trans hkt.symm)
  · exact hw.slots_unique.set_new h ((Slot.accept_key _ _).trans target_key)

theorem push_wf (hw : r.WF) : (r.push frame packetType).1.WF := by
  cases hk : fastKey frame packetType with
  | some k =>
      obtain ⟨i, t, hi, hsel, hpush⟩ := push_fast hw hk
      rw [hpush]
      refine ⟨by simp [hw.slots_length], push_fast_unique hw hi hsel, ?_, hw.tp_length,
        hw.tp_unique, hw.tp_received, hw.tp_data⟩
      intro s hs
      rcases mem_set hi hs with rfl | hs
      · exact (Slot.accept_data_length _ _).trans (target_data_length hw)
      · exact hw.slots_data s hs
  | none =>
      by_cases hp : frame.pgn = PGN_ISO_TP_CM ∨ frame.pgn = PGN_ISO_TP_DT
      · exact (push_tpStep hw hp).wf hw
      · rw [not_or] at hp
        rw [push_idle hk hp.1 hp.2]
        exact hw

theorem pushAll_wf (hw : r.WF) (log : Log) :
    (r.pushAll log).1.WF := by
  induction log generalizing r with
  | nil => exact hw
  | cons e rest ih => exact ih (push_wf hw)

theorem pushAll_append (r : Reassembler) (log log' : Log) :
    r.pushAll (log ++ log') =
      (((r.pushAll log).1.pushAll log').1,
        (r.pushAll log).2 ++ ((r.pushAll log).1.pushAll log').2) := by
  induction log generalizing r with
  | nil => rfl
  | cons e rest ih =>
      show ((((r.push e.1 e.2).1.pushAll (rest ++ log')).1,
        (r.push e.1 e.2).2 :: ((r.push e.1 e.2).1.pushAll (rest ++ log')).2)) = _
      rw [ih]
      rfl

/-- Every reachable reassembler satisfies the table invariant. -/
theorem Reachable.wf (h : r.Reachable) : r.WF := by
  obtain ⟨log, rfl⟩ := h
  exact pushAll_wf new_wf log

/-! ## What a push does to the maps -/

theorem push_out (hw : r.WF) (hk : fastKey frame packetType = some k) :
    (r.push frame packetType).2 = ((r.target k).accept frame).2 := by
  obtain ⟨i, t, -, -, hpush⟩ := push_fast hw hk
  rw [hpush]
  rfl

theorem held_push_self (hw : r.WF) (hk : fastKey frame packetType = some k) :
    (r.push frame packetType).1.held k =
      if ((r.target k).accept frame).1.used = true then some ((r.target k).accept frame).1
      else none := by
  obtain ⟨i, t, hi, hsel, hpush⟩ := push_fast hw hk
  rw [hpush]
  show slotView.lookup k (r.slots.set i ((r.target k).accept frame).1) = _
  rw [View.lookup_set hw.slots_unique (push_fast_unique hw hi hsel) hi]
  have hkey : slotView.key ((r.target k).accept frame).1 = k :=
    (Slot.accept_key _ _).trans target_key
  by_cases hu : ((r.target k).accept frame).1.used = true
  · rw [if_pos ⟨hu, hkey⟩, if_pos hu]
  · rw [if_neg fun h => hu h.1, if_neg hu]
    rcases hsel with h | ⟨h, -⟩
    · exact if_pos (View.lookup_holds h)
    · split
      · rfl
      · exact h

/-- Another key keeps its slot as long as fewer than all other slots can be in
use under other keys. -/
theorem held_push_other (hw : r.WF) (hk : fastKey frame packetType = some k) (hne : k' ≠ k)
    {O : Finset FastId} (hO : r.heldKeys ⊆ insert k' O) (hkO : k ∈ O)
    (hcard : O.card < REASSEMBLY_BUFFER_SIZE) :
    (r.push frame packetType).1.held k' = r.held k' := by
  obtain ⟨i, t, hi, hsel, hpush⟩ := push_fast hw hk
  rw [hpush]
  show slotView.lookup k' (r.slots.set i ((r.target k).accept frame).1) = _
  rw [View.lookup_set hw.slots_unique (push_fast_unique hw hi hsel) hi]
  have hkey : slotView.key ((r.target k).accept frame).1 = k :=
    (Slot.accept_key _ _).trans target_key
  rw [if_neg fun h => hne (h.2.symm.trans hkey)]
  split
  · rename_i ht
    cases hh : r.held k' with
    | none => rfl
    | some s =>
        rcases hsel with hs | ⟨hs, hv⟩
        · exact absurd (ht.2.symm.trans (held_holds hs).2) hne
        · -- the evicted slot would be the oldest of a full table
          refine absurd ht (View.ne_key_of_victim hw.slots_unique hh (N := O.erase k) ?_ ?_ hv hi)
          · intro x hx hux hkx _
            have hmem : slotView.key x ∈ r.heldKeys :=
              View.mem_keys.mpr fun hnone => View.lookup_eq_none.mp hnone x hx hux rfl
            refine Finset.mem_erase.mpr ⟨?_, (Finset.mem_insert.mp (hO hmem)).resolve_left hkx⟩
            exact View.lookup_eq_none.mp hs x hx hux
          · rw [Finset.card_erase_of_mem hkO, hw.slots_length]
            have := Finset.card_pos.mpr ⟨k, hkO⟩
            omega
  · rfl

/-- Besides its own key a push adds no key to the table. -/
theorem heldKeys_push (hw : r.WF) :
    (r.push frame packetType).1.heldKeys ⊆
      r.heldKeys ∪ (fastKey frame packetType).toFinset := by
  intro x hx
  rw [Finset.mem_union, Option.mem_toFinset]
  cases hk : fastKey frame packetType with
  | none =>
      rw [heldKeys, push_slots_of_no_key hw hk] at hx
      exact Or.inl hx
  | some k =>
      by_cases hxk : k = x
      · exact Or.inr (by rw [hxk]; rfl)
      · left
        obtain ⟨i, t, hi, hsel, hpush⟩ := push_fast hw hk
        rw [heldKeys, View.mem_keys, hpush] at hx
        rw [heldKeys, View.mem_keys]
        intro hnone
        apply hx
        show slotView.lookup x (r.slots.set i ((r.target k).accept frame).1) = _
        rw [View.lookup_set hw.slots_unique (push_fast_unique hw hi hsel) hi,
          if_neg fun h => hxk (target_key.symm.trans ((Slot.accept_key _ _).symm.trans h.2)),
          hnone, ite_self]

/-! ## Selected pushes of a log -/

section Selected

variable {sel : RawFrame × FramePacketType → Prop} [DecidablePred sel]
  {e : RawFrame × FramePacketType} {log : Log}

theorem framesOf_cons_pos (h : sel e) : framesOf sel (e :: log) = e.1 :: framesOf sel log := by
  simp [framesOf, h]

theorem framesOf_cons_neg (h : ¬ sel e) : framesOf sel (e :: log) = framesOf sel log := by
  simp [framesOf, h]

theorem outputsOf_cons_pos (h : sel e) :
    r.outputsOf sel (e :: log) =
      (r.push e.1 e.2).2 :: (r.push e.1 e.2).1.outputsOf sel log := by
  simp [outputsOf, pushAll, h]

theorem outputsOf_cons_neg (h : ¬ sel e) :
    r.outputsOf sel (e :: log) = (r.push e.1 e.2).1.outputsOf sel log := by
  simp [outputsOf, pushAll, h]

theorem outputsOf_of_no_frame (h : framesOf sel log = []) : r.outputsOf sel log = [] := by
  induction log generalizing r with
  | nil => rfl
  | cons e log ih =>
      by_cases hk : sel e
      · rw [framesOf_cons_pos hk] at h
        cases h
      · rw [framesOf_cons_neg hk] at h
        rw [outputsOf_cons_neg hk]
        exact ih h

end Selected

end Reassembler

end Canboat
