import Canboat.Reassembly.Table

/-!
# A run over some of the frames

Two reassemblers, one of which is shown only the frames of some fast-packet keys and of some
ISO TP sources. While no table is full when a message begins, the slots and the sessions of
these are the same in both, but for their ages.
-/

namespace Canboat

open SlotTable Buffer

/-! ## Slots without their age -/

def Slot.ageless (s : Slot) : Slot := { s with age := 0 }

def TpSlot.ageless (t : TpSlot) : TpSlot := { t with age := 0 }

theorem Slot.accept_ageless (s : Slot) (f : RawFrame) :
    s.ageless.accept f = ((s.accept f).1.ageless, (s.accept f).2) := by
  unfold Slot.accept
  dsimp only
  by_cases h : (s.gather f).allFrames ≠ 0#32 ∧ (s.gather f).frames = (s.gather f).allFrames
  · have h' : (s.ageless.gather f).allFrames ≠ 0#32 ∧
        (s.ageless.gather f).frames = (s.ageless.gather f).allFrames := h
    rw [if_pos h, if_pos h']
    rfl
  · have h' : ¬((s.ageless.gather f).allFrames ≠ 0#32 ∧
        (s.ageless.gather f).frames = (s.ageless.gather f).allFrames) := h
    rw [if_neg h, if_neg h']
    rfl

theorem TpSlot.accept_ageless (t : TpSlot) (f : RawFrame) :
    t.ageless.accept f = ((t.accept f).1.ageless, (t.accept f).2) := by
  unfold TpSlot.accept
  dsimp only
  by_cases hseq : f.data.headD 0 = 0 ∨ f.data.headD 0 > t.packets
  · have hseq' : f.data.headD 0 = 0 ∨ f.data.headD 0 > t.ageless.packets := hseq
    rw [if_pos hseq, if_pos hseq']
  · have hseq' : ¬(f.data.headD 0 = 0 ∨ f.data.headD 0 > t.ageless.packets) := hseq
    rw [if_neg hseq, if_neg hseq']
    by_cases hall : (t.gather f).allReceived = false
    · have hall' : (t.ageless.gather f).allReceived = false := hall
      rw [if_pos hall, if_pos hall']
      rfl
    · have hall' : ¬(t.ageless.gather f).allReceived = false := hall
      rw [if_neg hall, if_neg hall']
      rfl

theorem Slot.accept_congr {s t : Slot} (h : s.ageless = t.ageless) (f : RawFrame) :
    (s.accept f).1.ageless = (t.accept f).1.ageless ∧ (s.accept f).2 = (t.accept f).2 := by
  have hs := s.accept_ageless f
  rw [h, t.accept_ageless f] at hs
  exact ⟨(congrArg Prod.fst hs).symm, (congrArg Prod.snd hs).symm⟩

theorem TpSlot.accept_congr {s t : TpSlot} (h : s.ageless = t.ageless) (f : RawFrame) :
    (s.accept f).1.ageless = (t.accept f).1.ageless ∧ (s.accept f).2 = (t.accept f).2 := by
  have hs := s.accept_ageless f
  rw [h, t.accept_ageless f] at hs
  exact ⟨(congrArg Prod.fst hs).symm, (congrArg Prod.snd hs).symm⟩

theorem Slot.used_congr {s t : Slot} (h : s.ageless = t.ageless) : s.used = t.used := by
  have hused := congrArg Slot.used h
  exact hused

theorem TpSlot.used_congr {s t : TpSlot} (h : s.ageless = t.ageless) : s.used = t.used := by
  have hused := congrArg TpSlot.used h
  exact hused

/-- What a transport frame does to the session of its source. -/
def TpSlot.next (session : Option TpSlot) (frame : RawFrame) (age : UInt64) :
    Option TpSlot × Reassembled :=
  if opensSession frame then (some (.opened frame age), .Partial)
  else if frame.data = [] then (session, .Error .EmptyData)
  else if frame.pgn = PGN_ISO_TP_CM then
    (if frame.data.headD 0 = TP_CM_ABORT then none else session, .Partial)
  else match session with
    | none => (none, .Partial)
    | some t =>
        (if (t.accept frame).1.used = true then some (t.accept frame).1 else none,
          (t.accept frame).2)

namespace Reassembler

variable {r r' : Reassembler} {frame : RawFrame} {packetType : FramePacketType}
  {e : RawFrame × FramePacketType} {k k' : FastId}

/-! ## Room in the tables -/

/-- A message that begins with this push finds a free slot. -/
def RoomFor (r : Reassembler) (e : RawFrame × FramePacketType) : Prop :=
  (∀ k, fastKey e.1 e.2 = some k → r.held k = none → ∃ s ∈ r.slots, s.used = false) ∧
    (opensSession e.1 → r.session e.1.src = none → ∃ t ∈ r.tpSlots, t.used = false)

/-- No table is full when a message begins. -/
def Roomy (r : Reassembler) : Log → Prop
  | [] => True
  | e :: log => r.RoomFor e ∧ Roomy (r.push e.1 e.2).1 log

theorem held_push_of_room (hw : r.WF) (hk : fastKey frame packetType = some k)
    (hroom : r.held k = none → ∃ s ∈ r.slots, s.used = false) (hne : k' ≠ k) :
    (r.push frame packetType).1.held k' = r.held k' := by
  obtain ⟨i, t, hi, hsel, hpush⟩ := push_fast hw hk
  rw [hpush]
  show slotView.lookup k' (r.slots.set i ((r.target k).accept frame).1) = _
  rw [View.lookup_set hw.slots_unique (push_fast_unique hw hi hsel) hi]
  have hkey : slotView.key ((r.target k).accept frame).1 = k :=
    (Slot.accept_key _ _).trans target_key
  rw [if_neg fun h => hne (h.2.symm.trans hkey), if_neg]
  · rfl
  · rintro ⟨hused, hkt⟩
    rcases hsel with hs | ⟨hs, hv⟩
    · exact hne (hkt.symm.trans (held_holds hs).2)
    · rw [View.victim_unused (hroom hs) hv hi] at hused
      cases hused

theorem session_push_of_room (hw : r.WF)
    (hp : frame.pgn = PGN_ISO_TP_CM ∨ frame.pgn = PGN_ISO_TP_DT)
    (hroom : opensSession frame → r.session frame.src = none → ∃ t ∈ r.tpSlots, t.used = false)
    {src : UInt8} (hne : src ≠ frame.src) :
    (r.push frame packetType).1.session src = r.session src := by
  have hstep : TpStep r frame (r.push frame packetType) := push_tpStep hw hp
  have hu' := (hstep.wf hw).tp_unique
  generalize r.push frame packetType = res at hstep hu'
  cases hstep with
  | opens i t ho hi hsel =>
      show tpView.lookup src (r.tpSlots.set i _) = _
      rw [View.lookup_set hw.tp_unique hu' hi, if_neg fun h => hne h.2.symm, if_neg]
      · rfl
      · rintro ⟨hused, hsrc⟩
        rcases hsel with hs | ⟨hs, hv⟩
        · exact hne (hsrc.symm.trans (session_holds hs).2)
        · rw [View.victim_unused (hroom ho hs) hv hi] at hused
          cases hused
  | aborts i t _ _ hi hs =>
      have hsrc := (session_holds hs).2
      show tpView.lookup src (r.tpSlots.set i _) = _
      rw [View.lookup_set hw.tp_unique hu' hi, if_neg fun h => Bool.false_ne_true h.1,
        if_neg fun h => hne (h.2.symm.trans hsrc)]
      rfl
  | chunk i t _ _ hi hs =>
      have hsrc := (session_holds hs).2
      show tpView.lookup src (r.tpSlots.set i _) = _
      rw [View.lookup_set hw.tp_unique hu' hi,
        if_neg fun h => hne (h.2.symm.trans ((TpSlot.accept_src t frame).trans hsrc)),
        if_neg fun h => hne (h.2.symm.trans hsrc)]
      rfl
  | idle _ _ => rfl

/-- A transport push reads and writes the session of its source. -/
theorem push_session (hw : r.WF)
    (hp : frame.pgn = PGN_ISO_TP_CM ∨ frame.pgn = PGN_ISO_TP_DT) :
    ((r.push frame packetType).1.session frame.src, (r.push frame packetType).2) =
      TpSlot.next (r.session frame.src) frame (r.tpNextAge + 1) := by
  have hstep : TpStep r frame (r.push frame packetType) := push_tpStep hw hp
  have hu' := (hstep.wf hw).tp_unique
  by_cases habort : frame.pgn = PGN_ISO_TP_CM ∧ frame.data.headD 0 = TP_CM_ABORT
  · -- the step relation leaves open whether a session is dropped
    obtain ⟨hcm, hhead⟩ := habort
    obtain ⟨control, rest, hdata⟩ : ∃ control rest, frame.data = control :: rest := by
      cases hdata : frame.data with
      | nil => rw [hdata] at hhead; cases hhead
      | cons control rest => exact ⟨control, rest, rfl⟩
    have hcontrol : control = TP_CM_ABORT := by
      rw [hdata] at hhead
      exact hhead
    have hopens : ¬opensSession frame := by
      rintro ⟨-, -, h | h, -⟩
      · rw [hhead] at h
        exact absurd h (by decide)
      · rw [hhead] at h
        exact absurd h (by decide)
    have hne : frame.data ≠ [] := by rw [hdata]; exact List.cons_ne_nil _ _
    rw [TpSlot.next.eq_def, if_neg hopens, if_neg hne, if_pos hcm, if_pos hhead]
    have hpush : r.push frame packetType = r.handleTpCm frame := if_pos hcm
    rw [hpush] at hu' ⊢
    rw [handleTpCm, hdata] at hu' ⊢
    have hneither : ¬(control = TP_CM_BAM ∨ control = TP_CM_RTS) := by
      rw [hcontrol]
      decide
    dsimp only at hu' ⊢
    rw [if_neg hneither, if_pos hcontrol, findTpSlot_eq] at hu' ⊢
    rcases find_session r frame.src with ⟨i, t, hfind, hi, hs⟩ | ⟨hfind, hs⟩
    · rw [hfind] at hu' ⊢
      dsimp only at hu' ⊢
      rw [modify_eq_set hi] at hu' ⊢
      have hlookup : tpView.lookup frame.src (r.tpSlots.set i { t with used := false }) = none := by
        have hheld : tpView.used t = true ∧ tpView.key t = frame.src := session_holds hs
        rw [View.lookup_set hw.tp_unique hu' hi, if_neg fun h => Bool.false_ne_true h.1,
          if_pos hheld]
      exact Prod.ext hlookup rfl
    · rw [hfind]
      exact Prod.ext hs rfl
  · generalize r.push frame packetType = res at hstep hu'
    cases hstep with
    | opens i t ho hi hsel =>
        rw [TpSlot.next.eq_def, if_pos ho]
        refine Prod.ext ?_ rfl
        show tpView.lookup frame.src (r.tpSlots.set i _) = _
        rw [View.lookup_set hw.tp_unique hu' hi, if_pos ⟨rfl, rfl⟩]
    | aborts i t hcm hhead hi hs => exact absurd ⟨hcm, hhead⟩ habort
    | chunk i t hdt hdata hi hs =>
        have hcm : frame.pgn ≠ PGN_ISO_TP_CM := by rw [hdt]; decide
        rw [TpSlot.next.eq_def, if_neg fun ho => hcm ho.1, if_neg hdata, if_neg hcm, hs]
        refine Prod.ext ?_ rfl
        have hsrc := (TpSlot.accept_src t frame).trans (session_holds hs).2
        have hheld : tpView.used t = true ∧ tpView.key t = frame.src := session_holds hs
        show tpView.lookup frame.src (r.tpSlots.set i (t.accept frame).1) = _
        rw [View.lookup_set hw.tp_unique hu' hi]
        dsimp only
        by_cases hused : (t.accept frame).1.used = true
        · rw [if_pos ⟨hused, hsrc⟩, if_pos hused]
        · rw [if_neg fun h => hused h.1, if_pos hheld, if_neg hused]
    | idle ho hd =>
        rw [TpSlot.next.eq_def, if_neg ho]
        by_cases hdata : frame.data = []
        · rw [if_pos hdata, if_pos hdata]
        · rw [if_neg hdata, if_neg hdata]
          rcases hp with hcm | hdt
          · rw [if_pos hcm, if_neg fun hhead => habort ⟨hcm, hhead⟩]
          · have hcm : frame.pgn ≠ PGN_ISO_TP_CM := by rw [hdt]; decide
            rw [if_neg hcm, (hd hdt).resolve_left hdata]

/-- Pushes that reach neither table bring the same, whatever the tables hold. -/
theorem push_idle_out (hk : fastKey frame packetType = none) (hcm : frame.pgn ≠ PGN_ISO_TP_CM)
    (hdt : frame.pgn ≠ PGN_ISO_TP_DT) (r r' : Reassembler) :
    (r.push frame packetType).2 = (r'.push frame packetType).2 := by
  rw [push, push, if_neg hcm, if_neg hcm, if_neg hdt, if_neg hdt]
  split_ifs with h
  · rfl
  · cases hd : frame.data with
    | nil => rfl
    | cons header rest =>
        rw [not_or, not_lt, not_not] at h
        have hsome := fastKey_eq_some.mpr ⟨hcm, hdt, h.1, h.2, header, rest, hd, rfl⟩
        rw [hk] at hsome
        cases hsome

/-! ## The restricted run -/

/-- The second is the first, without what is not of the keys and the sources. -/
structure Restricts (keys : FastId → Prop) (sources : UInt8 → Prop) (r r' : Reassembler) :
    Prop where
  wf : r.WF
  wf' : r'.WF
  held : ∀ k, keys k → (r'.held k).map Slot.ageless = (r.held k).map Slot.ageless
  unheld : ∀ k, ¬keys k → r'.held k = none
  session : ∀ src, sources src →
    (r'.session src).map TpSlot.ageless = (r.session src).map TpSlot.ageless
  unsession : ∀ src, ¬sources src → r'.session src = none

section

variable {keys : FastId → Prop} {sources : UInt8 → Prop}

theorem held_new (k : FastId) : new.held k = none := by
  rw [held, View.lookup_eq_none]
  intro s hs hused
  rw [List.eq_of_mem_replicate hs] at hused
  cases hused

theorem session_new (src : UInt8) : new.session src = none := by
  rw [session, View.lookup_eq_none]
  intro t ht hused
  rw [List.eq_of_mem_replicate ht] at hused
  cases hused

theorem Restricts.new (keys : FastId → Prop) (sources : UInt8 → Prop) :
    Restricts keys sources .new .new where
  wf := new_wf
  wf' := new_wf
  held := fun _ _ => rfl
  unheld := fun k _ => held_new k
  session := fun _ _ => rfl
  unsession := fun src _ => session_new src

theorem Restricts.held_none (h : Restricts keys sources r r') {k : FastId}
    (hk : r.held k = none) : r'.held k = none := by
  by_cases hkey : keys k
  · have hheld := h.held k hkey
    rw [hk, Option.map_none, Option.map_eq_none_iff] at hheld
    exact hheld
  · exact h.unheld k hkey

theorem Restricts.session_none (h : Restricts keys sources r r') {src : UInt8}
    (hs : r.session src = none) : r'.session src = none := by
  by_cases hsrc : sources src
  · have hsession := h.session src hsrc
    rw [hs, Option.map_none, Option.map_eq_none_iff] at hsession
    exact hsession
  · exact h.unsession src hsrc

/-- It has at least the room. -/
theorem Restricts.room (h : Restricts keys sources r r')
    (hroom : ∃ s ∈ r.slots, s.used = false) : ∃ s ∈ r'.slots, s.used = false := by
  have hcard := (View.exists_unused_iff h.wf.slots_unique).mp hroom
  refine (View.exists_unused_iff h.wf'.slots_unique).mpr (Nat.lt_of_le_of_lt ?_
    (Nat.lt_of_lt_of_eq hcard (h.wf.slots_length.trans h.wf'.slots_length.symm)))
  refine Finset.card_le_card fun k hk => ?_
  rw [View.mem_keys] at hk ⊢
  exact fun hnone => hk (h.held_none hnone)

theorem Restricts.tp_room (h : Restricts keys sources r r')
    (hroom : ∃ t ∈ r.tpSlots, t.used = false) : ∃ t ∈ r'.tpSlots, t.used = false := by
  have hcard := (View.exists_unused_iff h.wf.tp_unique).mp hroom
  refine (View.exists_unused_iff h.wf'.tp_unique).mpr (Nat.lt_of_le_of_lt ?_
    (Nat.lt_of_lt_of_eq hcard (h.wf.tp_length.trans h.wf'.tp_length.symm)))
  refine Finset.card_le_card fun src hs => ?_
  rw [View.mem_keys] at hs ⊢
  exact fun hnone => hs (h.session_none hnone)

theorem Restricts.roomFor (h : Restricts keys sources r r') (hroom : r.RoomFor e)
    (hkey : ∀ k, fastKey e.1 e.2 = some k → keys k)
    (hsrc : opensSession e.1 → sources e.1.src) : r'.RoomFor e := by
  constructor
  · intro k hk hnone
    refine h.room (hroom.1 k hk ?_)
    have hheld := h.held k (hkey k hk)
    rw [hnone, Option.map_none] at hheld
    exact Option.map_eq_none_iff.mp hheld.symm
  · intro ho hnone
    refine h.tp_room (hroom.2 ho ?_)
    have hsession := h.session _ (hsrc ho)
    rw [hnone, Option.map_none] at hsession
    exact Option.map_eq_none_iff.mp hsession.symm

theorem target_congr (h : (r'.held k).map Slot.ageless = (r.held k).map Slot.ageless) :
    (r.target k).ageless = (r'.target k).ageless := by
  rw [target, target]
  cases hheld : r.held k with
  | none =>
      rw [hheld, Option.map_none, Option.map_eq_none_iff] at h
      rw [h]
      rfl
  | some s =>
      rw [hheld, Option.map_some, Option.map_eq_some_iff] at h
      obtain ⟨t, ht, hage⟩ := h
      rw [ht]
      exact hage.symm

theorem next_congr {s s' : Option TpSlot}
    (h : s'.map TpSlot.ageless = s.map TpSlot.ageless) (f : RawFrame) (a a' : UInt64) :
    (TpSlot.next s' f a').1.map TpSlot.ageless = (TpSlot.next s f a).1.map TpSlot.ageless ∧
      (TpSlot.next s f a).2 = (TpSlot.next s' f a').2 := by
  rw [TpSlot.next.eq_def, TpSlot.next.eq_def]
  split_ifs
  · exact ⟨rfl, rfl⟩
  · exact ⟨h, rfl⟩
  · exact ⟨rfl, rfl⟩
  · exact ⟨h, rfl⟩
  · cases s with
    | none =>
        rw [Option.map_none, Option.map_eq_none_iff] at h
        rw [h]
        exact ⟨rfl, rfl⟩
    | some t =>
        rw [Option.map_some, Option.map_eq_some_iff] at h
        obtain ⟨t', rfl, hage⟩ := h
        obtain ⟨hslot, hout⟩ := TpSlot.accept_congr hage f
        have hused := TpSlot.used_congr hslot
        dsimp only
        rw [hused]
        refine ⟨?_, hout.symm⟩
        split_ifs
        · rw [Option.map_some, Option.map_some, hslot]
        · rfl

theorem fastKey_of_tp (hp : frame.pgn = PGN_ISO_TP_CM ∨ frame.pgn = PGN_ISO_TP_DT) :
    fastKey frame packetType = none := by
  rw [Option.eq_none_iff_forall_ne_some]
  intro k hk
  obtain ⟨hcm, hdt, -⟩ := fastKey_eq_some.mp hk
  exact hp.elim hcm hdt

theorem held_push_tp (hw : r.WF) (hp : frame.pgn = PGN_ISO_TP_CM ∨ frame.pgn = PGN_ISO_TP_DT)
    (k : FastId) : (r.push frame packetType).1.held k = r.held k := by
  rw [held, push_slots_of_no_key hw (fastKey_of_tp hp)]
  rfl

theorem session_push_fast (hw : r.WF) (hk : fastKey frame packetType = some k) (src : UInt8) :
    (r.push frame packetType).1.session src = r.session src := by
  obtain ⟨hcm, hdt, -⟩ := fastKey_eq_some.mp hk
  rw [session, (push_tpSlots_of_ordinary hw hcm hdt).1]
  rfl

/-- A push that both are shown does the same to both, and brings the same. -/
theorem Restricts.push_both (h : Restricts keys sources r r') (hroom : r.RoomFor e)
    (hkey : ∀ k, fastKey e.1 e.2 = some k → keys k)
    (hsrc : e.1.pgn = PGN_ISO_TP_CM ∨ e.1.pgn = PGN_ISO_TP_DT → sources e.1.src) :
    Restricts keys sources (r.push e.1 e.2).1 (r'.push e.1 e.2).1 ∧
      (r.push e.1 e.2).2 = (r'.push e.1 e.2).2 := by
  have hroom' := h.roomFor hroom hkey fun ho => hsrc (Or.inl ho.1)
  have hwf : (r.push e.1 e.2).1.WF := push_wf h.wf
  have hwf' : (r'.push e.1 e.2).1.WF := push_wf h.wf'
  cases hk : fastKey e.1 e.2 with
  | some k =>
      obtain ⟨hslot, hout⟩ := Slot.accept_congr (target_congr (h.held k (hkey k hk))) e.1
      refine ⟨⟨hwf, hwf', fun k' hk' => ?_, fun k' hk' => ?_, fun src hs => ?_, fun src hs => ?_⟩, ?_⟩
      · by_cases heq : k' = k
        · rw [heq, held_push_self h.wf hk, held_push_self h.wf' hk, Slot.used_congr hslot]
          split_ifs
          · rw [Option.map_some, Option.map_some, hslot]
          · rfl
        · rw [held_push_of_room h.wf hk (hroom.1 k hk) heq,
            held_push_of_room h.wf' hk (hroom'.1 k hk) heq]
          exact h.held k' hk'
      · have heq : k' ≠ k := by
          rintro rfl
          exact hk' (hkey _ hk)
        rw [held_push_of_room h.wf' hk (hroom'.1 k hk) heq]
        exact h.unheld k' hk'
      · rw [session_push_fast h.wf hk, session_push_fast h.wf' hk]
        exact h.session src hs
      · rw [session_push_fast h.wf' hk]
        exact h.unsession src hs
      · rw [push_out h.wf hk, push_out h.wf' hk, hout]
  | none =>
      by_cases hp : e.1.pgn = PGN_ISO_TP_CM ∨ e.1.pgn = PGN_ISO_TP_DT
      · have hself := @push_session r e.1 e.2 h.wf hp
        have hself' := @push_session r' e.1 e.2 h.wf' hp
        obtain ⟨hsession, hout⟩ :=
          next_congr (h.session _ (hsrc hp)) e.1 (r.tpNextAge + 1) (r'.tpNextAge + 1)
        rw [← hself, ← hself'] at hsession hout
        refine ⟨⟨hwf, hwf', fun k' hk' => ?_, fun k' hk' => ?_, fun src hs => ?_,
          fun src hs => ?_⟩, hout⟩
        · rw [held_push_tp h.wf hp, held_push_tp h.wf' hp]
          exact h.held k' hk'
        · rw [held_push_tp h.wf' hp]
          exact h.unheld k' hk'
        · by_cases heq : src = e.1.src
          · rw [heq]
            exact hsession
          · rw [session_push_of_room h.wf hp hroom.2 heq,
              session_push_of_room h.wf' hp hroom'.2 heq]
            exact h.session src hs
        · have heq : src ≠ e.1.src := by
            rintro rfl
            exact hs (hsrc hp)
          rw [session_push_of_room h.wf' hp hroom'.2 heq]
          exact h.unsession src hs
      · obtain ⟨hcm, hdt⟩ := not_or.mp hp
        rw [push_idle hk hcm hdt, push_idle hk hcm hdt]
        exact ⟨h, push_idle_out hk hcm hdt r r'⟩

/-- A push that only the full run is shown leaves the rest as it is. -/
theorem Restricts.push_left (h : Restricts keys sources r r') (hroom : r.RoomFor e)
    (hkey : ∀ k, fastKey e.1 e.2 = some k → ¬keys k)
    (hsrc : e.1.pgn = PGN_ISO_TP_CM ∨ e.1.pgn = PGN_ISO_TP_DT → ¬sources e.1.src) :
    Restricts keys sources (r.push e.1 e.2).1 r' := by
  have hwf : (r.push e.1 e.2).1.WF := push_wf h.wf
  cases hk : fastKey e.1 e.2 with
  | some k =>
      refine ⟨hwf, h.wf', fun k' hk' => ?_, h.unheld, fun src hs => ?_, h.unsession⟩
      · have heq : k' ≠ k := by
          rintro rfl
          exact hkey _ hk hk'
        rw [held_push_of_room h.wf hk (hroom.1 k hk) heq]
        exact h.held k' hk'
      · rw [session_push_fast h.wf hk]
        exact h.session src hs
  | none =>
      by_cases hp : e.1.pgn = PGN_ISO_TP_CM ∨ e.1.pgn = PGN_ISO_TP_DT
      · refine ⟨hwf, h.wf', fun k' hk' => ?_, h.unheld, fun src hs => ?_, h.unsession⟩
        · rw [held_push_tp h.wf hp]
          exact h.held k' hk'
        · have heq : src ≠ e.1.src := by
            rintro rfl
            exact hsrc hp hs
          rw [session_push_of_room h.wf hp hroom.2 heq]
          exact h.session src hs
      · obtain ⟨hcm, hdt⟩ := not_or.mp hp
        rw [push_idle hk hcm hdt]
        exact h

end

end Reassembler

end Canboat
