import Canboat.Reassembly.IsoTransport
import Mathlib.Data.List.Induction

/-!
# Where the bytes of a transport message come from

The buffer of a session starts as filler, and a session completes by its
sequence numbers alone. What each position holds after any log of pushes, and
so when a completed message holds nothing but bytes that were sent.
-/

namespace Canboat

open SlotTable Buffer BitMask

/-- The byte that a TP.DT frame carries for position `k`. -/
def carries (k : ℕ) (d : RawFrame) : Option UInt8 :=
  if dtSequence d = k / BUCKET_N_SIZE + 1 then d.data[k % BUCKET_N_SIZE + 1]? else none

/-- The byte for position `k` that came last. -/
def lastCarried (ds : List RawFrame) (k : ℕ) : Option UInt8 := (ds.filterMap (carries k)).getLast?

theorem lastCarried_append (ds : List RawFrame) (d : RawFrame) (k : ℕ) :
    lastCarried (ds ++ [d]) k = (carries k d).or (lastCarried ds k) := by
  rw [lastCarried, lastCarried, List.filterMap_append]
  cases h : carries k d with
  | none => simp [h]
  | some b => simp [h]

theorem lastCarried_eq_some {ds : List RawFrame} {k : ℕ} {b : UInt8}
    (h : lastCarried ds k = some b) : ∃ d ∈ ds, carries k d = some b :=
  List.mem_filterMap.mp (List.mem_of_getLast? h)

theorem isSome_lastCarried {ds : List RawFrame} {k : ℕ} :
    (lastCarried ds k).isSome = true ↔ ∃ d ∈ ds, (carries k d).isSome = true := by
  constructor
  · intro h
    obtain ⟨b, hb⟩ := Option.isSome_iff_exists.mp h
    obtain ⟨d, hd, hcarries⟩ := lastCarried_eq_some hb
    exact ⟨d, hd, by rw [hcarries]; rfl⟩
  · rintro ⟨d, hd, hsome⟩
    obtain ⟨b, hb⟩ := Option.isSome_iff_exists.mp hsome
    have hmem : b ∈ ds.filterMap (carries k) := List.mem_filterMap.mpr ⟨d, hd, hb⟩
    rw [lastCarried, List.getLast?_isSome]
    exact List.ne_nil_of_mem hmem

/-! ## Sessions of a log -/

/-- A sequence number that the session of `cm` counts. -/
def InRange (cm d : RawFrame) : Prop :=
  1 ≤ dtSequence d ∧ dtSequence d ≤ (Reassembler.tpDeclared cm.data).2.1.toNat

instance (cm d : RawFrame) : Decidable (InRange cm d) := inferInstanceAs (Decidable (_ ∧ _))

/-- What a push adds to the last session of `src`. -/
def sessionStep (src : UInt8) (s : Option (RawFrame × List RawFrame))
    (e : RawFrame × FramePacketType) : Option (RawFrame × List RawFrame) :=
  if opensSession e.1 ∧ e.1.src = src then some (e.1, [])
  else if Reassembler.IsDt src e then
    s.map fun (cm, ds) => (cm, if InRange cm e.1 then ds ++ [e.1] else ds)
  else s

/-- The session that `src` opened last: its TP.CM frame, and the TP.DT frames that it
counts. -/
def lastSession (src : UInt8) (log : Reassembler.Log) : Option (RawFrame × List RawFrame) :=
  log.foldl (sessionStep src) none

theorem lastSession_snoc (src : UInt8) (log : Reassembler.Log) (e : RawFrame × FramePacketType) :
    lastSession src (log ++ [e]) = sessionStep src (lastSession src log) e := by
  rw [lastSession, List.foldl_append]
  rfl

/-! ## The buffer of a session -/

/-- The session `t` was opened by `cm`, counts `ds`, and is not complete. -/
structure TpHolds (cm : RawFrame) (ds : List RawFrame) (t : TpSlot) : Prop where
  totalSize : t.totalSize = (Reassembler.tpDeclared cm.data).1
  packets : t.packets = (Reassembler.tpDeclared cm.data).2.1
  words : t.received.length = 4
  received : ∀ n, n < t.packets.toNat →
    (mem t.received n = true ↔ ∃ d ∈ ds, dtSequence d = n + 1)
  length : t.data.length = t.totalSize
  bytes : ∀ k, k < t.totalSize → t.data[k]? = some ((lastCarried ds k).getD 0xff)

theorem TpHolds.opened (cm : RawFrame) (age : UInt64) : TpHolds cm [] (.opened cm age) where
  totalSize := rfl
  packets := rfl
  words := rfl
  received n _ := by
    show mem (List.replicate 4 0#64) n = true ↔ _
    rw [mem_replicate_zero]
    simp
  length := by simp [TpSlot.opened]
  bytes k hk := by
    show (List.replicate (Reassembler.tpDeclared cm.data).1 (0xff : UInt8))[k]? = _
    rw [List.getElem?_replicate]
    exact if_pos hk

variable {cm d : RawFrame} {ds : List RawFrame} {t : TpSlot}

theorem TpHolds.allReceived (h : TpHolds cm ds t) :
    t.allReceived = true ↔ Covered t.packets.toNat ds := by
  rw [allReceived_iff h.words]
  exact forall₂_congr fun n hn => h.received n hn

/-- One chunk, of any length. -/
theorem TpHolds.gather (h : TpHolds cm ds t) (hr : InRange cm d) :
    TpHolds cm (ds ++ [d]) (t.gather d) := by
  rw [InRange, ← h.packets] at hr
  obtain ⟨hpos, hle⟩ := hr
  obtain ⟨j, hj, hjp⟩ : ∃ j, dtSequence d = j + 1 ∧ j < t.packets.toNat :=
    ⟨dtSequence d - 1, by omega, by omega⟩
  have hzero : (d.data.headD 0 - 1).toNat = j := by
    unfold dtSequence at hj
    rw [UInt8.toNat_sub_of_le]
    · rw [hj]
      rfl
    · rw [UInt8.le_iff_toNat_le, hj]
      exact Nat.le_add_left 1 j
  have hword : j / 64 < t.received.length := by
    have := t.packets.toNat_lt
    rw [h.words]
    omega
  obtain ⟨hwords, hlen, htotal⟩ := TpSlot.gather_sizes t d
  have hbits : (t.gather d).received =
      t.received.modify (j / 64) fun word => word ||| BitVec.twoPow 64 (j % 64) := by
    unfold TpSlot.gather
    simp only [hzero]
  have hdata : (t.gather d).data = overwrite t.data (j * BUCKET_N_SIZE)
      ((d.data.drop 1).take
        (min (min (j * BUCKET_N_SIZE + BUCKET_N_SIZE) t.totalSize - j * BUCKET_N_SIZE)
          (d.data.length - 1))) := by
    unfold TpSlot.gather
    simp only [hzero]
  refine ⟨htotal.trans h.totalSize, h.packets, hwords.trans h.words, ?_, ?_, ?_⟩
  · intro n hn
    rw [hbits, mem_modify (by decide) hword, Bool.or_eq_true, decide_eq_true_iff,
      exists_append_iff, h.received n hn, hj]
    exact or_congr_right ⟨fun heq => by rw [heq], fun heq => Nat.succ.inj heq⟩
  · rw [hlen, htotal]
    exact h.length
  · intro k hk
    rw [htotal] at hk
    have hkl : k < t.data.length := by rw [h.length]; exact hk
    have hseven : BUCKET_N_SIZE = 7 := rfl
    have hsplit := Nat.div_add_mod' k BUCKET_N_SIZE
    have hmod : k % BUCKET_N_SIZE < 7 := Nat.mod_lt k (by decide)
    rw [hdata, lastCarried_append]
    by_cases hkj : k / BUCKET_N_SIZE = j
    · have hcarries : carries k d = (d.data.drop 1)[k - j * BUCKET_N_SIZE]? := by
        have hk' : k - j * BUCKET_N_SIZE = k % BUCKET_N_SIZE := by
          rw [hkj] at hsplit
          omega
        rw [carries, hkj, if_pos hj, List.getElem?_drop, hk', Nat.add_comm]
      rw [hkj] at hsplit
      by_cases hshort : k - j * BUCKET_N_SIZE < d.data.length - 1
      · rw [getElem?_overwrite_of_inside (by omega) (by
            rw [List.length_take, List.length_drop]; omega) hkl,
          List.getElem?_take_of_lt (by omega), hcarries,
          List.getElem?_eq_getElem (by rw [List.length_drop]; exact hshort)]
        rfl
      · have hnone : carries k d = none := by
          rw [hcarries, List.getElem?_eq_none_iff, List.length_drop]
          omega
        rw [hnone, Option.none_or, getElem?_overwrite_of_outside]
        · exact h.bytes k hk
        · right
          rw [List.length_take, List.length_drop]
          omega
    · have hnone : carries k d = none := by
        rw [carries, if_neg]
        rw [hj]
        exact fun heq => hkj (Nat.succ.inj heq).symm
      rw [hnone, Option.none_or, getElem?_overwrite_of_outside]
      · exact h.bytes k hk
      · rcases Nat.lt_or_gt_of_ne hkj with hlt | hlt
        · exact Or.inl ((Nat.div_lt_iff_lt_mul (by decide)).mp hlt)
        · right
          have hle : (j + 1) * BUCKET_N_SIZE ≤ k := (Nat.le_div_iff_mul_le (by decide)).mp hlt
          rw [Nat.succ_mul] at hle
          rw [List.length_take]
          omega

theorem TpHolds.inRange_iff (h : TpHolds cm ds t) :
    InRange cm d ↔ ¬(d.data.headD 0 = 0 ∨ d.data.headD 0 > t.packets) := by
  rw [InRange, ← h.packets, not_or, gt_iff_lt, UInt8.not_lt, UInt8.le_iff_toNat_le, dtSequence]
  refine and_congr_left' ⟨fun hpos hzero => ?_, fun hne => ?_⟩
  · rw [hzero] at hpos
    cases hpos
  · exact Nat.pos_of_ne_zero fun hzero => hne (UInt8.toNat_inj.mp hzero)

namespace Reassembler

/-! ## After any log -/

/-- The open session of `src`, if there is one, is the last one of the log. -/
def Recalls (r : Reassembler) (src : UInt8) (s : Option (RawFrame × List RawFrame)) : Prop :=
  ∀ t, r.session src = some t →
    ∃ cm ds, s = some (cm, ds) ∧ TpHolds cm ds t ∧ ¬Covered t.packets.toNat ds

variable {r : Reassembler} {src : UInt8} {s : Option (RawFrame × List RawFrame)}
  {e : RawFrame × FramePacketType}

theorem sessionStep_other (hopens : ¬(opensSession e.1 ∧ e.1.src = src)) (hdt : ¬IsDt src e) :
    sessionStep src s e = s := by
  rw [sessionStep, if_neg hopens, if_neg hdt]

theorem sessionStep_dt (hdt : IsDt src e) :
    sessionStep src s e = s.map fun (cm, ds) => (cm, if InRange cm e.1 then ds ++ [e.1] else ds) := by
  rw [sessionStep, if_neg, if_pos hdt]
  rintro ⟨hopens, -⟩
  exact absurd (hopens.1.symm.trans hdt.1) (by decide)

/-- A push that leaves the session alone, or ends it. -/
theorem Recalls.of_session {r' : Reassembler} (h : r.Recalls src s)
    (hsession : ∀ t, r'.session src = some t → r.session src = some t) : r'.Recalls src s :=
  fun t ht => h t (hsession t ht)

theorem session_set {i : ℕ} {x t t' : TpSlot} (hw : r.WF)
    (hu : tpView.KeyUnique (r.tpSlots.set i x)) (hi : r.tpSlots[i]? = some t)
    (hx : ¬(x.used = true ∧ x.src = src))
    (h : tpView.lookup src (r.tpSlots.set i x) = some t') : r.session src = some t' := by
  have hx' : ¬(tpView.used x = true ∧ tpView.key x = src) := hx
  rw [View.lookup_set hw.tp_unique hu hi, if_neg hx'] at h
  split_ifs at h
  exact h

theorem Recalls.push_dt (hw : r.WF) (h : r.Recalls src s) (hdt : IsDt src e) {i : ℕ} {t : TpSlot}
    (hi : r.tpSlots[i]? = some t) (hs : r.session src = some t)
    (hu : tpView.KeyUnique (r.tpSlots.set i (t.accept e.1).1)) :
    ({ r with tpSlots := r.tpSlots.set i (t.accept e.1).1 } : Reassembler).Recalls src
      (sessionStep src s e) := by
  obtain ⟨cm, ds, rfl, hholds, hopen⟩ := h t hs
  obtain ⟨hused, hsrc⟩ := session_holds hs
  have hlookup : tpView.lookup src (r.tpSlots.set i (t.accept e.1).1) = _ :=
    View.lookup_set hw.tp_unique hu hi
  intro t' ht'
  rw [sessionStep_dt hdt, Option.map_some]
  dsimp only
  have ht'' := hlookup.symm.trans ht'
  rcases TpSlot.accept_cases t e.1 with ⟨hacc, hr⟩ | ⟨hr, ⟨hacc, hmore⟩ | ⟨hacc, hall⟩⟩
  · rw [hacc, if_pos ⟨hused, hsrc⟩] at ht''
    obtain rfl := Option.some.inj ht''
    rw [if_neg (fun hin => hholds.inRange_iff.mp hin hr)]
    exact ⟨cm, ds, rfl, hholds, hopen⟩
  · have hgather := hholds.gather (hholds.inRange_iff.mpr hr)
    rw [hacc] at ht''
    dsimp only at ht''
    rw [if_pos ⟨hused, hsrc⟩] at ht''
    obtain rfl := Option.some.inj ht''
    rw [if_pos (hholds.inRange_iff.mpr hr)]
    refine ⟨cm, ds ++ [e.1], rfl, hgather, ?_⟩
    rw [← hgather.allReceived, hmore]
    exact Bool.false_ne_true
  · -- the session is complete, and its slot free
    rw [hacc] at ht''
    dsimp only at ht''
    rw [if_neg (fun hfree => Bool.false_ne_true hfree.1), if_pos ⟨hused, hsrc⟩] at ht''
    cases ht''

theorem Recalls.push (hw : r.WF) (h : r.Recalls src s) (e : RawFrame × FramePacketType) :
    (r.push e.1 e.2).1.Recalls src (sessionStep src s e) := by
  by_cases hp : e.1.pgn = PGN_ISO_TP_CM ∨ e.1.pgn = PGN_ISO_TP_DT
  · have hstep : TpStep r e.1 (r.push e.1 e.2) := push_tpStep hw hp
    have hu := (hstep.wf hw).tp_unique
    generalize r.push e.1 e.2 = res at hstep hu
    cases hstep with
    | opens i t ho hi hsel =>
        have hdt : ¬IsDt src e := fun hdt => absurd (ho.1.symm.trans hdt.1) (by decide)
        by_cases hsrc : e.1.src = src
        · intro t' ht'
          have hlookup : tpView.lookup src
              (r.tpSlots.set i (.opened e.1 (r.tpNextAge + 1))) = _ :=
            View.lookup_set hw.tp_unique hu hi
          rw [if_pos ⟨rfl, hsrc⟩] at hlookup
          obtain rfl := Option.some.inj (hlookup.symm.trans ht')
          rw [sessionStep, if_pos ⟨ho, hsrc⟩]
          refine ⟨e.1, [], rfl, TpHolds.opened e.1 _, ?_⟩
          intro hcovered
          have hpos : 0 < (tpDeclared e.1.data).2.1.toNat :=
            Nat.pos_of_ne_zero fun hzero => ho.2.2.2.1 (UInt8.toNat_inj.mp hzero)
          obtain ⟨d, hd, -⟩ := hcovered 0 hpos
          cases hd
        · rw [sessionStep_other (fun hopens => hsrc hopens.2) hdt]
          refine h.of_session fun t' ht' => session_set hw hu hi ?_ ht'
          exact fun hx => hsrc hx.2
    | aborts i t hcm hc hi hs =>
        rw [sessionStep_other]
        · refine h.of_session fun t' ht' => session_set hw hu hi ?_ ht'
          exact fun hx => Bool.false_ne_true hx.1
        · rintro ⟨hopens, -⟩
          rcases hopens.2.2.1 with hbam | hrts
          · exact absurd (hc.symm.trans hbam) (by decide)
          · exact absurd (hc.symm.trans hrts) (by decide)
        · exact fun hdt => absurd (hcm.symm.trans hdt.1) (by decide)
    | chunk i t hdt hd hi hs =>
        by_cases hsrc : e.1.src = src
        · rw [hsrc] at hs
          exact h.push_dt hw ⟨hdt, hsrc⟩ hi hs hu
        · rw [sessionStep_other (fun hopens => hsrc hopens.2) (fun hown => hsrc hown.2)]
          refine h.of_session fun t' ht' => session_set hw hu hi ?_ ht'
          intro hx
          rw [TpSlot.accept_src, (session_holds hs).2] at hx
          exact hsrc hx.2
    | idle ho hd =>
        by_cases hdt : IsDt src e
        · rw [sessionStep_dt hdt]
          intro t ht
          obtain ⟨cm, ds, rfl, hholds, hopen⟩ := h t ht
          have hempty : e.1.data = [] := by
            refine (hd hdt.1).resolve_right fun hnone => ?_
            rw [hdt.2, ht] at hnone
            cases hnone
          refine ⟨cm, ds, ?_, hholds, hopen⟩
          rw [Option.map_some]
          dsimp only
          rw [if_neg]
          rintro ⟨hpos, -⟩
          rw [dtSequence, hempty] at hpos
          cases hpos
        · rw [sessionStep_other (fun hopens => ho hopens.1) hdt]
          exact h
  · rw [not_or] at hp
    rw [sessionStep_other (fun hopens => hp.1 hopens.1.1) (fun hdt => hp.2 hdt.1)]
    refine h.of_session fun t ht => ?_
    rw [session, (push_tpSlots_of_ordinary hw hp.1 hp.2).1] at ht
    exact ht

theorem pushAll_snoc (r : Reassembler) (log : Log) (e : RawFrame × FramePacketType) :
    (r.pushAll (log ++ [e])).1 = ((r.pushAll log).1.push e.1 e.2).1 := by
  rw [pushAll_append]
  rfl

/-- **Run.** -/
theorem recalls_pushAll (src : UInt8) (log : Log) :
    (new.pushAll log).1.Recalls src (lastSession src log) := by
  induction log using List.reverseRecOn with
  | nil =>
      intro t ht
      have hnone : new.session src = none := by
        refine View.lookup_eq_none.mpr fun x hx hused => ?_
        rw [List.eq_of_mem_replicate hx] at hused
        cases hused
      exact absurd (hnone.symm.trans ht) nofun
  | append_singleton log e ih =>
      rw [pushAll_snoc, lastSession_snoc]
      exact ih.push (pushAll_wf new_wf log) e

/-- The frames that a session counts are in range. -/
theorem inRange_of_lastSession {log : Log} {cm : RawFrame} {ds : List RawFrame}
    (h : lastSession src log = some (cm, ds)) : ∀ d ∈ ds, InRange cm d := by
  induction log using List.reverseRecOn generalizing cm ds with
  | nil => cases h
  | append_singleton log e ih =>
      rw [lastSession_snoc, sessionStep] at h
      split_ifs at h with hopens hdt
      · cases h
        exact nofun
      · obtain ⟨⟨cm', ds'⟩, hlast, heq⟩ := Option.map_eq_some_iff.mp h
        cases heq
        split_ifs with hin
        · intro d hd
          rcases List.mem_append.mp hd with hd | hd
          · exact ih hlast d hd
          · rw [List.mem_singleton.mp hd]
            exact hin
        · exact ih hlast
      · exact ih h

/-! ## What completes -/

/-- The push brings the last sequence number that the open session of its source waits for:
the session of `cm`, which counts `ds` then. -/
def Completes (log : Log) (e : RawFrame × FramePacketType) (cm : RawFrame)
    (ds : List RawFrame) : Prop :=
  e.1.pgn = PGN_ISO_TP_DT ∧ ((new.pushAll log).1.session e.1.src).isSome = true ∧
    lastSession e.1.src (log ++ [e]) = some (cm, ds) ∧ Covered (tpDeclared cm.data).2.1.toNat ds

/-- The packets can carry the declared size, and each of them arrived once as long as its part
of the message. -/
def Filled (cm : RawFrame) (ds : List RawFrame) : Prop :=
  (tpDeclared cm.data).1 ≤ (tpDeclared cm.data).2.1.toNat * BUCKET_N_SIZE ∧
    ∀ n, n < (tpDeclared cm.data).2.1.toNat → ∃ d ∈ ds, dtSequence d = n + 1 ∧
      min BUCKET_N_SIZE ((tpDeclared cm.data).1 - n * BUCKET_N_SIZE) < d.data.length

/-- The answer to the push, if it completes a transport message, has every byte from a TP.DT
frame of the session, where the frame carries it. -/
def Genuine (log : Log) (e : RawFrame × FramePacketType) : Prop :=
  e.1.pgn = PGN_ISO_TP_DT → ∀ f, ((new.pushAll log).1.push e.1 e.2).2 = .Complete f →
    ∃ cm ds, lastSession e.1.src (log ++ [e]) = some (cm, ds) ∧
      ∀ k b, f.data[k]? = some b → ∃ d ∈ ds, carries k d = some b

variable {log : Log}

/-- The session that the push completes, and what it holds. -/
theorem complete_iff (hp : e.1.pgn = PGN_ISO_TP_DT) {cm : RawFrame} {ds : List RawFrame}
    (hlast : lastSession e.1.src (log ++ [e]) = some (cm, ds)) :
    (Completes log e cm ds →
      ∃ f, ((new.pushAll log).1.push e.1 e.2).2 = .Complete f) ∧
    ∀ f, ((new.pushAll log).1.push e.1 e.2).2 = .Complete f →
      Completes log e cm ds ∧ f.data.length = (tpDeclared cm.data).1 ∧
        ∀ k, k < f.data.length → f.data[k]? = some ((lastCarried ds k).getD 0xff) := by
  have hw : (new.pushAll log).1.WF := pushAll_wf new_wf log
  have hrecalls := recalls_pushAll e.1.src log
  have hdt : IsDt e.1.src e := ⟨hp, rfl⟩
  have hlast' := hlast
  rw [lastSession_snoc, sessionStep_dt hdt] at hlast'
  have hstep : TpStep (new.pushAll log).1 e.1 ((new.pushAll log).1.push e.1 e.2) :=
    push_tpStep hw (Or.inr hp)
  rw [Completes]
  generalize (new.pushAll log).1.push e.1 e.2 = res at hstep
  cases hstep with
  | opens i t ho hi hsel => exact absurd (ho.1.symm.trans hp) (by decide)
  | aborts i t hcm hc hi hs => exact absurd (hcm.symm.trans hp) (by decide)
  | idle ho hd =>
      constructor
      · rintro ⟨-, hopen, -, hcovered⟩
        obtain ⟨t, ht⟩ := Option.isSome_iff_exists.mp hopen
        obtain ⟨cm', ds', hs, hholds, hnot⟩ := hrecalls t ht
        have hempty : e.1.data = [] := by
          refine (hd hp).resolve_right fun hnone => ?_
          rw [ht] at hnone
          cases hnone
        rw [hs, Option.map_some] at hlast'
        have hout : ¬InRange cm' e.1 := by
          rintro ⟨hpos, -⟩
          rw [dtSequence, hempty] at hpos
          cases hpos
        dsimp only at hlast'
        rw [if_neg hout] at hlast'
        cases hlast'
        rw [hholds.packets] at hnot
        exact absurd hcovered hnot
      · intro f hf
        dsimp only at hf
        split_ifs at hf
  | chunk i t hdt' hd hi hs =>
      obtain ⟨cm', ds', hs', hholds, hnot⟩ := hrecalls t hs
      rw [hs', Option.map_some] at hlast'
      dsimp only at hlast'
      rcases TpSlot.accept_cases t e.1 with ⟨hacc, hr⟩ | ⟨hr, hacc⟩
      · rw [if_neg (fun hin => hholds.inRange_iff.mp hin hr)] at hlast'
        cases hlast'
        constructor
        · rintro ⟨-, -, -, hcovered⟩
          rw [hholds.packets] at hnot
          exact absurd hcovered hnot
        · intro f hf
          rw [hacc] at hf
          cases hf
      · rw [if_pos (hholds.inRange_iff.mpr hr)] at hlast'
        cases hlast'
        have hgather := hholds.gather (hholds.inRange_iff.mpr hr)
        rcases hacc with ⟨hacc, hmore⟩ | ⟨hacc, hall⟩
        · constructor
          · rintro ⟨-, -, -, hcovered⟩
            rw [← hgather.packets, ← hgather.allReceived, hmore] at hcovered
            cases hcovered
          · intro f hf
            rw [hacc] at hf
            cases hf
        · constructor
          · exact fun _ => ⟨_, congrArg Prod.snd hacc⟩
          · intro f hf
            rw [hacc] at hf
            cases hf
            have hcovered := hgather.allReceived.mp hall
            rw [hgather.packets] at hcovered
            have hlen : ((t.gather e.1).assembled e.1.src).data.length =
                (tpDeclared cm.data).1 := by
              show (List.take (t.gather e.1).totalSize (t.gather e.1).data).length = _
              rw [List.length_take, hgather.length, hgather.totalSize, Nat.min_self]
            refine ⟨⟨hp, by rw [hs]; rfl, hlast, hcovered⟩, hlen, ?_⟩
            intro k hk
            rw [hlen, ← hgather.totalSize] at hk
            show (List.take (t.gather e.1).totalSize (t.gather e.1).data)[k]? = _
            rw [List.getElem?_take_of_lt hk]
            exact hgather.bytes k hk

theorem isSome_carries {k : ℕ} {d : RawFrame} :
    (carries k d).isSome = true ↔
      dtSequence d = k / BUCKET_N_SIZE + 1 ∧ k % BUCKET_N_SIZE + 1 < d.data.length := by
  rw [carries]
  split_ifs with hseq
  · rw [isSome_getElem?, and_iff_right hseq]
  · exact iff_of_false Bool.false_ne_true fun h => hseq h.1

/-- Every position of a covered session is carried by one of its frames where the packets
fill it. -/
theorem filled_iff {cm : RawFrame} {ds : List RawFrame}
    (hcovered : Covered (tpDeclared cm.data).2.1.toNat ds) (hin : ∀ d ∈ ds, InRange cm d) :
    (∀ k, k < (tpDeclared cm.data).1 → ∃ d ∈ ds, (carries k d).isSome = true) ↔
      Filled cm ds := by
  have hseven : BUCKET_N_SIZE = 7 := rfl
  constructor
  · intro h
    have hsize : (tpDeclared cm.data).1 ≤ (tpDeclared cm.data).2.1.toNat * BUCKET_N_SIZE := by
      by_contra hlarge
      rw [Nat.not_le] at hlarge
      obtain ⟨d, hd, hcarries⟩ := h _ hlarge
      have hseq := (isSome_carries.mp hcarries).1
      rw [Nat.mul_div_cancel _ (by decide)] at hseq
      have hle := (hin d hd).2
      omega
    refine ⟨hsize, fun n hn => ?_⟩
    by_cases hpast : (tpDeclared cm.data).1 ≤ n * BUCKET_N_SIZE
    · -- nothing of the message falls to this packet
      obtain ⟨d, hd, hseq⟩ := hcovered n hn
      refine ⟨d, hd, hseq, ?_⟩
      rw [Nat.sub_eq_zero_of_le hpast, Nat.min_zero]
      refine List.length_pos_iff.mpr fun hempty => ?_
      rw [dtSequence, hempty] at hseq
      cases hseq
    · obtain ⟨c, hc⟩ : ∃ c, min BUCKET_N_SIZE ((tpDeclared cm.data).1 - n * BUCKET_N_SIZE) =
          c + 1 := ⟨min BUCKET_N_SIZE ((tpDeclared cm.data).1 - n * BUCKET_N_SIZE) - 1, by omega⟩
      have hlast : c + n * BUCKET_N_SIZE < (tpDeclared cm.data).1 := by omega
      have hc7 : c < BUCKET_N_SIZE := by omega
      obtain ⟨d, hd, hcarries⟩ := h _ hlast
      obtain ⟨hseq, hlen⟩ := isSome_carries.mp hcarries
      rw [Nat.add_mul_div_right _ _ (by decide), Nat.div_eq_of_lt hc7, Nat.zero_add] at hseq
      rw [Nat.add_mul_mod_self_right, Nat.mod_eq_of_lt hc7] at hlen
      exact ⟨d, hd, hseq, by rw [hc]; exact hlen⟩
  · rintro ⟨hsize, hpackets⟩ k hk
    have hn : k / BUCKET_N_SIZE < (tpDeclared cm.data).2.1.toNat :=
      (Nat.div_lt_iff_lt_mul (by decide)).mpr (lt_of_lt_of_le hk hsize)
    obtain ⟨d, hd, hseq, hlen⟩ := hpackets _ hn
    refine ⟨d, hd, isSome_carries.mpr ⟨hseq, lt_of_le_of_lt ?_ hlen⟩⟩
    have hsplit := Nat.div_add_mod' k BUCKET_N_SIZE
    have hmod : k % BUCKET_N_SIZE < BUCKET_N_SIZE := Nat.mod_lt k (by decide)
    rw [Nat.le_min]
    omega

/-- Only an open session completes. -/
theorem exists_lastSession (hp : e.1.pgn = PGN_ISO_TP_DT) {f : RawFrame}
    (hf : ((new.pushAll log).1.push e.1 e.2).2 = .Complete f) :
    ∃ cm ds, lastSession e.1.src (log ++ [e]) = some (cm, ds) := by
  have hw : (new.pushAll log).1.WF := pushAll_wf new_wf log
  have hdata : e.1.data ≠ [] := by
    intro hempty
    have hcm : e.1.pgn ≠ PGN_ISO_TP_CM := by
      rw [hp]
      decide
    rw [push, if_neg hcm, if_pos hp, handleTpDt, hempty] at hf
    cases hf
  rcases Reassembler.push_dt e.2 hw hp hdata with ⟨-, hpush⟩ | ⟨i, t, -, hs, -⟩
  · rw [hpush] at hf
    cases hf
  · obtain ⟨cm, ds, hlast, -⟩ := recalls_pushAll e.1.src log t hs
    rw [lastSession_snoc, sessionStep_dt ⟨hp, rfl⟩, hlast]
    exact ⟨_, _, rfl⟩

/-- **Step.** -/
theorem genuine_iff :
    Genuine log e ↔ ∀ cm ds, Completes log e cm ds → Filled cm ds := by
  constructor
  · intro h cm ds hcompletes
    have ⟨hp, _, hlast, hcovered⟩ := hcompletes
    obtain ⟨f, hf⟩ := (complete_iff hp hlast).1 hcompletes
    obtain ⟨-, hlen, hbytes⟩ := (complete_iff hp hlast).2 f hf
    obtain ⟨cm', ds', hlast', hcarried⟩ := h hp f hf
    cases hlast.symm.trans hlast'
    refine (filled_iff hcovered (inRange_of_lastSession hlast)).mp fun k hk => ?_
    rw [← hlen] at hk
    obtain ⟨d, hd, hcarries⟩ := hcarried k _ (hbytes k hk)
    exact ⟨d, hd, by rw [hcarries]; rfl⟩
  · intro h hp f hf
    obtain ⟨cm, ds, hlast⟩ := exists_lastSession hp hf
    obtain ⟨hcompletes, hlen, hbytes⟩ := (complete_iff hp hlast).2 f hf
    have hcarried := (filled_iff hcompletes.2.2.2 (inRange_of_lastSession hlast)).mpr
      (h cm ds hcompletes)
    refine ⟨cm, ds, hlast, fun k b hb => ?_⟩
    have hk : k < f.data.length := (List.getElem?_eq_some_iff.mp hb).1
    obtain ⟨x, hx⟩ := Option.isSome_iff_exists.mp
      (isSome_lastCarried.mpr (hcarried k (hlen ▸ hk)))
    rw [hbytes k hk, hx] at hb
    cases hb
    exact lastCarried_eq_some hx

/-- **Transport messages hold nothing but bytes that were sent**, in exactly the logs in which
every session that completes is filled by its frames. -/
theorem iso_tp_genuine_iff (log : Log) :
    (∀ pre e, pre ++ [e] <+: log → Genuine pre e) ↔
      ∀ pre e cm ds, pre ++ [e] <+: log → Completes pre e cm ds → Filled cm ds :=
  ⟨fun h pre e cm ds hpre => genuine_iff.mp (h pre e hpre) cm ds,
    fun h pre e hpre => genuine_iff.mpr fun cm ds => h pre e cm ds hpre⟩

/-- A `BAM` that announces eight bytes in one packet completes with a byte that no frame
carries. -/
theorem not_iso_tp_genuine :
    ¬∀ pre e, pre ++ [e] <+: [({ bam 20 with data := [TP_CM_BAM, 8, 0, 1, 0xff, 0x00, 0xef, 0x01] },
      FramePacketType.Single), (dt 20, .Single)] → Genuine pre e := by
  intro h
  obtain ⟨cm, ds, hlast, hcarried⟩ := h
    [({ bam 20 with data := [TP_CM_BAM, 8, 0, 1, 0xff, 0x00, 0xef, 0x01] }, .Single)] (dt 20, .Single)
    List.prefix_rfl rfl _ rfl
  cases hlast
  obtain ⟨d, hd, hcarries⟩ := hcarried 7 0xff (by decide)
  rw [List.mem_singleton.mp hd] at hcarries
  cases hcarries

end Reassembler

end Canboat
