import Canboat.Reassembly.Table
import Canboat.Lib.BitMask

/-!
# ISO Transport Protocol sessions

After a `BAM` or `RTS` the reassembler answers every TP.DT frame of that source
by what has arrived before it: the frame that brings the last missing sequence
number completes with the chunks received last, every other one is `Partial`.
Duplicates, gaps and sequence numbers out of range do not matter, nor does other
traffic, as long as at most 15 other sources use the transport protocol.

The invariant over the TP.DT frames `before` received so far is `TpKnows`: the
session is open and holds exactly their chunks (`TpGathered`), or everything has
arrived and it is closed. The session is never evicted, because the sessions
opened after it all belong to those 15 sources (`Young`). That the session is the
youngest when it is opened needs the `u64` age counter not to have wrapped.
-/

namespace Canboat

open SlotTable Buffer BitMask

/-! ## What the chunks received so far amount to -/

/-- Sequence number of a TP.DT frame. -/
def dtSequence (d : RawFrame) : ℕ := (d.data.headD 0).toNat

/-- Every declared sequence number is among the frames. -/
def Covered (packets : ℕ) (ds : List RawFrame) : Prop :=
  ∀ n, n < packets → ∃ d ∈ ds, dtSequence d = n + 1

instance (packets : ℕ) (ds : List RawFrame) : Decidable (Covered packets ds) := by
  unfold Covered
  infer_instance

/-- The chunk of the last frame with sequence number `n`. -/
def lastChunk (ds : List RawFrame) (n : ℕ) : List UInt8 :=
  match (ds.filter fun d => dtSequence d = n).getLast? with
  | some d => d.data.drop 1
  | none => []

/-- The chunks of all sequence numbers in order, cut to the declared size. -/
def tpPayload (packets total : ℕ) (ds : List RawFrame) : List UInt8 :=
  ((List.range packets).flatMap fun i => lastChunk ds (i + 1)).take total

/-- What the session of `cm` answers to `d` after the frames `before`. -/
def tpAnswer (cm : RawFrame) (before : List RawFrame) (d : RawFrame) : Reassembled :=
  let (total, packets, targetPgn) := Reassembler.tpDeclared cm.data
  if Covered packets.toNat (before ++ [d]) ∧ ¬ Covered packets.toNat before then
    .Complete { timestamp := cm.timestamp, prio := cm.prio, pgn := targetPgn, src := cm.src,
                dst := cm.dst, data := tpPayload packets.toNat total (before ++ [d]) }
  else .Partial

def tpAnswers (cm : RawFrame) (before : List RawFrame) : List RawFrame → List Reassembled
  | [] => []
  | d :: ds => tpAnswer cm before d :: tpAnswers cm (before ++ [d]) ds

theorem tpAnswer_complete {cm d : RawFrame} {before : List RawFrame}
    (hafter : Covered (Reassembler.tpDeclared cm.data).2.1.toNat (before ++ [d]))
    (hbefore : ¬ Covered (Reassembler.tpDeclared cm.data).2.1.toNat before) :
    tpAnswer cm before d =
      .Complete { timestamp := cm.timestamp, prio := cm.prio,
                  pgn := (Reassembler.tpDeclared cm.data).2.2, src := cm.src, dst := cm.dst,
                  data := tpPayload (Reassembler.tpDeclared cm.data).2.1.toNat
                    (Reassembler.tpDeclared cm.data).1 (before ++ [d]) } :=
  if_pos ⟨hafter, hbefore⟩

theorem tpAnswer_swallowed {cm d : RawFrame} {before : List RawFrame}
    (h : Covered (Reassembler.tpDeclared cm.data).2.1.toNat (before ++ [d]) →
      Covered (Reassembler.tpDeclared cm.data).2.1.toNat before) :
    tpAnswer cm before d = .Partial :=
  if_neg fun hc => hc.2 (h hc.1)

theorem covered_append {packets : ℕ} {ds : List RawFrame} {d : RawFrame}
    (h : Covered packets ds) : Covered packets (ds ++ [d]) := by
  intro n hn
  obtain ⟨x, hx, hseq⟩ := h n hn
  exact ⟨x, List.mem_append_left _ hx, hseq⟩

theorem exists_append_iff {ds : List RawFrame} {d : RawFrame} {n : ℕ} :
    (∃ x ∈ ds ++ [d], dtSequence x = n) ↔ (∃ x ∈ ds, dtSequence x = n) ∨ dtSequence d = n := by
  constructor
  · rintro ⟨x, hx, hseq⟩
    rcases List.mem_append.mp hx with hx | hx
    · exact Or.inl ⟨x, hx, hseq⟩
    · rw [List.mem_singleton.mp hx] at hseq
      exact Or.inr hseq
  · rintro (⟨x, hx, hseq⟩ | hseq)
    · exact ⟨x, List.mem_append_left _ hx, hseq⟩
    · exact ⟨d, List.mem_append_right _ (List.mem_singleton_self d), hseq⟩

theorem lastChunk_append_self (ds : List RawFrame) (d : RawFrame) :
    lastChunk (ds ++ [d]) (dtSequence d) = d.data.drop 1 := by
  simp [lastChunk]

theorem lastChunk_append_other {ds : List RawFrame} {d : RawFrame} {n : ℕ}
    (h : dtSequence d ≠ n) : lastChunk (ds ++ [d]) n = lastChunk ds n := by
  simp [lastChunk, h]

theorem length_lastChunk {ds : List RawFrame} (hds : ∀ d ∈ ds, d.data.length = 8) {n : ℕ}
    (hn : ∃ d ∈ ds, dtSequence d = n) : (lastChunk ds n).length = BUCKET_N_SIZE := by
  obtain ⟨d, hd, hseq⟩ := hn
  have hmem : d ∈ ds.filter fun x => dtSequence x = n :=
    List.mem_filter.mpr ⟨hd, decide_eq_true hseq⟩
  obtain ⟨x, hx⟩ := Option.ne_none_iff_exists'.mp fun hnone =>
    List.ne_nil_of_mem hmem (List.getLast?_eq_none_iff.mp hnone)
  have hxmem : x ∈ ds := (List.mem_filter.mp (List.mem_of_getLast? hx)).1
  unfold lastChunk
  rw [hx]
  simp only [List.length_drop, hds x hxmem]
  rfl

/-! ## The invariant on the session -/

/-- The session `t` was opened by `cm` and holds exactly the chunks of `before`. -/
structure TpGathered (cm : RawFrame) (before : List RawFrame) (t : TpSlot) : Prop where
  timestamp : t.timestamp = cm.timestamp
  prio : t.prio = cm.prio
  dst : t.dst = cm.dst
  targetPgn : t.targetPgn = (Reassembler.tpDeclared cm.data).2.2
  totalSize : t.totalSize = (Reassembler.tpDeclared cm.data).1
  packets : t.packets = (Reassembler.tpDeclared cm.data).2.1
  words : t.received.length = 4
  received : ∀ n, n < t.packets.toNat →
    (mem t.received n = true ↔ ∃ d ∈ before, dtSequence d = n + 1)
  length : t.data.length = t.totalSize
  bytes : ∀ k, k < t.totalSize → (∃ d ∈ before, dtSequence d = k / BUCKET_N_SIZE + 1) →
    t.data[k]? = (lastChunk before (k / BUCKET_N_SIZE + 1))[k % BUCKET_N_SIZE]?

theorem TpGathered.opened (cm : RawFrame) (age : UInt64) :
    TpGathered cm [] (.opened cm age) where
  timestamp := rfl
  prio := rfl
  dst := rfl
  targetPgn := rfl
  totalSize := rfl
  packets := rfl
  words := rfl
  received n _ := by
    show mem (List.replicate 4 0#64) n = true ↔ _
    rw [mem_replicate_zero]
    simp
  length := by simp [TpSlot.opened]
  bytes k _ h := by simp at h

variable {cm : RawFrame} {before : List RawFrame} {t : TpSlot} {d : RawFrame}

/-- The completion test, over the set of received sequence numbers. -/
theorem allReceived_iff (hwords : t.received.length = 4) :
    t.allReceived = true ↔ ∀ n, n < t.packets.toNat → mem t.received n = true := by
  have hle : t.packets.toNat / 64 ≤ t.received.length := by
    have := t.packets.toNat_lt
    omega
  rw [← all_below_iff (by decide) hle]
  unfold TpSlot.allReceived
  simp only [Bool.and_eq_true, List.all_eq_true, decide_eq_true_iff]
  refine and_congr Iff.rfl ?_
  split
  · rename_i hz
    simp [hz]
  · rename_i hz
    simp [hz]

theorem TpGathered.allReceived (h : TpGathered cm before t) :
    t.allReceived = true ↔ Covered t.packets.toNat before := by
  rw [allReceived_iff h.words]
  unfold Covered
  exact forall₂_congr fun n hn => h.received n hn

/-- A frame out of range changes nothing that counts. -/
theorem TpGathered.skip (h : TpGathered cm before t)
    (hr : d.data.headD 0 = 0 ∨ d.data.headD 0 > t.packets)
    (hsize : t.totalSize ≤ t.packets.toNat * BUCKET_N_SIZE) :
    TpGathered cm (before ++ [d]) t := by
  have hne : ∀ n, n < t.packets.toNat → dtSequence d ≠ n + 1 := by
    intro n hn heq
    unfold dtSequence at heq
    rcases hr with hz | hgt
    · rw [hz] at heq
      cases heq
    · rw [gt_iff_lt, UInt8.lt_iff_toNat_lt] at hgt
      omega
  refine { h with received := ?_, bytes := ?_ }
  · intro n hn
    rw [exists_append_iff, h.received n hn]
    exact ⟨Or.inl, fun hor => hor.resolve_right (hne n hn)⟩
  · intro k hk hex
    have hseq : dtSequence d ≠ k / BUCKET_N_SIZE + 1 := by
      apply hne
      rw [Nat.div_lt_iff_lt_mul (by decide)]
      exact lt_of_lt_of_le hk hsize
    rw [lastChunk_append_other hseq]
    exact h.bytes k hk ((exists_append_iff.mp hex).resolve_right hseq)

/-- **One chunk.** A frame in range adds its sequence number and its chunk. -/
theorem TpGathered.gather (h : TpGathered cm before t) (hlen : d.data.length = 8)
    (hr : ¬ (d.data.headD 0 = 0 ∨ d.data.headD 0 > t.packets)) :
    TpGathered cm (before ++ [d]) (t.gather d) := by
  rw [not_or] at hr
  obtain ⟨hz, hgt⟩ := hr
  -- zero-based sequence number
  obtain ⟨j, hj, hjp⟩ : ∃ j, dtSequence d = j + 1 ∧ j < t.packets.toNat := by
    have hpos : 0 < (d.data.headD 0).toNat :=
      Nat.pos_of_ne_zero fun h0 => hz (UInt8.toNat_inj.mp h0)
    rw [gt_iff_lt, UInt8.lt_iff_toNat_lt, not_lt] at hgt
    exact ⟨(d.data.headD 0).toNat - 1, by unfold dtSequence; omega, by omega⟩
  have hzero : (d.data.headD 0 - 1).toNat = j := by
    unfold dtSequence at hj
    rw [UInt8.toNat_sub_of_le]
    · rw [hj]
      rfl
    · rw [UInt8.le_iff_toNat_le, hj]
      exact Nat.le_add_left 1 j
  have hword : j / 64 < t.received.length := by
    have := t.packets.toNat_lt
    rw [h.words]
    omega
  have hsizes := TpSlot.gather_sizes t d
  have hbits : (t.gather d).received =
      t.received.modify (j / 64) fun word => word ||| BitVec.twoPow 64 (j % 64) := by
    unfold TpSlot.gather
    simp only [hzero]
  have hdata : (t.gather d).data = overwrite t.data (j * BUCKET_N_SIZE)
      ((d.data.drop 1).take
        (min (min (j * BUCKET_N_SIZE + BUCKET_N_SIZE) t.totalSize - j * BUCKET_N_SIZE)
          (d.data.length - 1))) := by
    unfold TpSlot.gather
    simp only [hzero]
  refine ⟨h.timestamp, h.prio, h.dst, h.targetPgn, h.totalSize, h.packets,
    hsizes.1.trans h.words, ?_, ?_, ?_⟩
  · intro n hn
    rw [hbits, mem_modify (by decide) hword, Bool.or_eq_true, decide_eq_true_iff,
      exists_append_iff, h.received n hn, hj]
    exact or_congr_right ⟨fun heq => by rw [heq], fun heq => Nat.succ.inj heq⟩
  · rw [hsizes.2.1, hsizes.2.2]
    exact h.length
  · intro k hk hex
    rw [hsizes.2.2] at hk
    have hkl : k < t.data.length := by rw [h.length]; exact hk
    rw [hdata]
    by_cases hkj : k / BUCKET_N_SIZE = j
    · -- the byte lies in the chunk of this frame
      have hmod : k % BUCKET_N_SIZE = k - j * BUCKET_N_SIZE := by
        have := Nat.div_add_mod k BUCKET_N_SIZE
        rw [hkj, Nat.mul_comm] at this
        omega
      have hlt : k % BUCKET_N_SIZE < 7 := Nat.mod_lt k (by decide)
      have hlo : j * BUCKET_N_SIZE ≤ k := by
        have := Nat.div_mul_le_self k BUCKET_N_SIZE
        rwa [hkj] at this
      have hcopy : k - j * BUCKET_N_SIZE <
          min (min (j * BUCKET_N_SIZE + BUCKET_N_SIZE) t.totalSize - j * BUCKET_N_SIZE)
            (d.data.length - 1) := by
        have hseven : BUCKET_N_SIZE = 7 := rfl
        omega
      rw [hkj, ← hj, lastChunk_append_self, getElem?_overwrite_of_inside hlo _ hkl, hmod,
        List.getElem?_take_of_lt hcopy]
      rw [List.length_take, List.length_drop]
      omega
    · have hseq : dtSequence d ≠ k / BUCKET_N_SIZE + 1 := fun heq => by
        rw [hj] at heq
        exact hkj (Nat.succ.inj heq).symm
      rw [lastChunk_append_other hseq, getElem?_overwrite_of_outside]
      · exact h.bytes k hk ((exists_append_iff.mp hex).resolve_right hseq)
      · rcases Nat.lt_or_gt_of_ne hkj with hlt | hlt
        · left
          exact (Nat.div_lt_iff_lt_mul (by decide)).mp hlt
        · right
          have hle : (j + 1) * BUCKET_N_SIZE ≤ k := (Nat.le_div_iff_mul_le (by decide)).mp hlt
          rw [Nat.succ_mul] at hle
          rw [List.length_take]
          omega

/-- A session that has everything holds the payload. -/
theorem TpGathered.payload (h : TpGathered cm before t) (hall : ∀ d ∈ before, d.data.length = 8)
    (hsize : t.totalSize ≤ t.packets.toNat * BUCKET_N_SIZE)
    (hcov : Covered t.packets.toNat before) :
    t.data.take t.totalSize = tpPayload t.packets.toNat t.totalSize before := by
  apply List.ext_getElem?
  intro k
  unfold tpPayload
  by_cases hk : k < t.totalSize
  · have hkp : k / BUCKET_N_SIZE < t.packets.toNat := by
      rw [Nat.div_lt_iff_lt_mul (by decide)]
      exact lt_of_lt_of_le hk hsize
    rw [List.getElem?_take_of_lt hk, List.getElem?_take_of_lt hk,
      getElem?_flatMap_blocks (fun i hi => length_lastChunk hall (hcov i hi))
        (lt_of_lt_of_le hk hsize)]
    exact h.bytes k hk (hcov _ hkp)
  · rw [List.getElem?_eq_none (by rw [List.length_take]; omega),
      List.getElem?_eq_none (by rw [List.length_take]; omega)]

namespace Reassembler

variable {r : Reassembler} {frame : RawFrame} {src : UInt8} {O : Finset UInt8}

/-! ## Traffic around a session -/

/-- A TP.DT push of `src`. -/
def IsDt (src : UInt8) (e : RawFrame × FramePacketType) : Prop :=
  e.1.pgn = PGN_ISO_TP_DT ∧ e.1.src = src

instance (src : UInt8) : DecidablePred (IsDt src) := fun e =>
  inferInstanceAs (Decidable (e.1.pgn = PGN_ISO_TP_DT ∧ e.1.src = src))

/-- What may be pushed while `src` sends: its own TP.DT frames of eight bytes, its own
TP.CM frames that neither open nor abort a session, transport frames of the sources in
`O`, and frames of any other PGN. -/
def Around (src : UInt8) (O : Finset UInt8) (frame : RawFrame) : Prop :=
  (frame.pgn = PGN_ISO_TP_DT → frame.src = src ∧ frame.data.length = 8 ∨ frame.src ∈ O) ∧
  (frame.pgn = PGN_ISO_TP_CM →
    frame.src = src ∧ ¬ opensSession frame ∧ frame.data.headD 0 ≠ TP_CM_ABORT ∨ frame.src ∈ O)

instance (src : UInt8) (O : Finset UInt8) (frame : RawFrame) :
    Decidable (Around src O frame) := by
  unfold Around
  infer_instance

/-- Every session at least as young as `t` belongs to a source in `O`. -/
def Young (r : Reassembler) (src : UInt8) (O : Finset UInt8) (t : TpSlot) : Prop :=
  ∀ x ∈ r.tpSlots, x.used = true → x.src ≠ src → t.age.toNat ≤ x.age.toNat → x.src ∈ O

/-- After the TP.DT frames `before`, the session of `cm` is closed if they cover it, and
otherwise open with exactly their chunks. -/
def TpKnows (r : Reassembler) (cm : RawFrame) (O : Finset UInt8) (before : List RawFrame) : Prop :=
  if Covered (tpDeclared cm.data).2.1.toNat before then r.session cm.src = none
  else ∃ t, r.session cm.src = some t ∧ TpGathered cm before t ∧ r.Young cm.src O t

/-- The slots of a transport push: old ones, and the one of its own source. -/
theorem TpStep.mem_or_src {res : Reassembler × Reassembled} (h : TpStep r frame res) :
    ∀ x ∈ res.1.tpSlots, x ∈ r.tpSlots ∨ x.src = frame.src := by
  intro x hx
  cases h with
  | opens i t ho hi hsel =>
      rcases mem_set hi hx with rfl | hx
      · exact Or.inr rfl
      · exact Or.inl hx
  | aborts i t hp hc hi hs =>
      rcases mem_set hi hx with rfl | hx
      · exact Or.inr (session_holds hs).2
      · exact Or.inl hx
  | chunk i t hp hd hi hs =>
      rcases mem_set hi hx with rfl | hx
      · exact Or.inr ((TpSlot.accept_src t frame).trans (session_holds hs).2)
      · exact Or.inl hx
  | idle ho hd => exact Or.inl hx

theorem session_set_other {l : List TpSlot} {i : ℕ} {s t : TpSlot} (hu : tpView.KeyUnique l)
    (hu' : tpView.KeyUnique (l.set i s)) (hi : l[i]? = some t) (hs : s.src ≠ src)
    (ht : ¬ (t.used = true ∧ t.src = src)) :
    tpView.lookup src (l.set i s) = tpView.lookup src l := by
  rw [View.lookup_set hu hu' hi, if_neg fun h => hs h.2]
  exact if_neg ht

/-- **Frame rule.** A transport push of another source in `O` leaves the session of `src`
as it is. -/
theorem TpStep.session_other {res : Reassembler × Reassembled} (hw : r.WF)
    (h : TpStep r frame res) (hne : frame.src ≠ src) (hO : frame.src ∈ O) (hcard : O.card ≤ 15)
    (hyoung : ∀ t, r.session src = some t → r.Young src O t) :
    res.1.session src = r.session src := by
  have hu' := (h.wf hw).tp_unique
  cases h with
  | opens i t ho hi hsel =>
      refine session_set_other hw.tp_unique hu' hi hne ?_
      rcases hsel with hs | ⟨hs, hv⟩
      · exact fun h => hne ((session_holds hs).2.symm.trans h.2)
      · -- a claimed slot: free, or the oldest of a full table
        cases hsess : r.session src with
        | none =>
            exact fun h => View.lookup_eq_none.mp hsess t (List.mem_of_getElem? hi) h.1 h.2
        | some x =>
            refine View.ne_key_of_victim hw.tp_unique hsess (N := O.erase frame.src) ?_ ?_ hv hi
            · intro y hy huy hky hage
              refine Finset.mem_erase.mpr ⟨?_, hyoung x hsess y hy huy hky hage⟩
              exact fun hys => View.lookup_eq_none.mp hs y hy huy hys
            · rw [Finset.card_erase_of_mem hO, hw.tp_length]
              have hpos := Finset.card_pos.mpr ⟨_, hO⟩
              unfold ISO_TP_SLOTS
              omega
  | aborts i t hp hc hi hs =>
      have hsrc := (session_holds hs).2
      exact session_set_other hw.tp_unique hu' hi (fun h => hne (hsrc.symm.trans h))
        fun h => hne (hsrc.symm.trans h.2)
  | chunk i t hp hd hi hs =>
      have hsrc := (session_holds hs).2
      exact session_set_other hw.tp_unique hu' hi
        (fun h => hne (hsrc.symm.trans ((TpSlot.accept_src t frame).symm.trans h)))
        fun h => hne (hsrc.symm.trans h.2)
  | idle ho hd => rfl

variable {cm : RawFrame} {before : List RawFrame} {packetType : FramePacketType}

theorem tpKnows_of_covered (hcov : Covered (tpDeclared cm.data).2.1.toNat before) :
    r.TpKnows cm O before ↔ r.session cm.src = none := by
  unfold TpKnows
  rw [if_pos hcov]

theorem tpKnows_of_not_covered (hcov : ¬ Covered (tpDeclared cm.data).2.1.toNat before) :
    r.TpKnows cm O before ↔
      ∃ t, r.session cm.src = some t ∧ TpGathered cm before t ∧ r.Young cm.src O t := by
  unfold TpKnows
  rw [if_neg hcov]

/-- **Step, other frames.** -/
theorem TpKnows.push_other (hw : r.WF) (h : r.TpKnows cm O before) (hcard : O.card ≤ 15)
    (hsrc : cm.src ∉ O) (ha : Around cm.src O frame) (hd : ¬ IsDt cm.src (frame, packetType)) :
    (r.push frame packetType).1.TpKnows cm O before := by
  have hyoung : ∀ t, r.session cm.src = some t → r.Young cm.src O t := by
    intro t ht
    by_cases hcov : Covered (tpDeclared cm.data).2.1.toNat before
    · rw [tpKnows_of_covered hcov, ht] at h
      cases h
    · obtain ⟨x, hx, -, hy⟩ := (tpKnows_of_not_covered hcov).mp h
      rw [hx, Option.some.injEq] at ht
      exact ht ▸ hy
  have hkeep : (r.push frame packetType).1.session cm.src = r.session cm.src ∧
      ∀ x ∈ (r.push frame packetType).1.tpSlots, x ∈ r.tpSlots ∨ x.src ∈ O := by
    by_cases hp : frame.pgn = PGN_ISO_TP_CM ∨ frame.pgn = PGN_ISO_TP_DT
    · have hstep : TpStep r frame (r.push frame packetType) := push_tpStep hw hp
      have hcases : frame.src ∈ O ∨ (frame.pgn = PGN_ISO_TP_CM ∧ ¬ opensSession frame ∧
          frame.data.headD 0 ≠ TP_CM_ABORT) := by
        rcases hp with hp | hp
        · rcases ha.2 hp with ⟨-, h1, h2⟩ | hO
          · exact Or.inr ⟨hp, h1, h2⟩
          · exact Or.inl hO
        · rcases ha.1 hp with ⟨h1, -⟩ | hO
          · exact absurd ⟨hp, h1⟩ hd
          · exact Or.inl hO
      rcases hcases with hO | ⟨hp, hno, hna⟩
      · refine ⟨hstep.session_other hw (fun heq => hsrc (heq ▸ hO)) hO hcard hyoung, ?_⟩
        intro x hx
        rcases hstep.mem_or_src x hx with hx | hx
        · exact Or.inl hx
        · exact Or.inr (hx ▸ hO)
      · have hsame : (r.push frame packetType).1 = r := by
          generalize r.push frame packetType = res at hstep
          cases hstep with
          | opens i t ho hi hsel => exact absurd ho hno
          | aborts i t hp hc hi hs => exact absurd hc hna
          | chunk i t hp' hd hi hs =>
              rw [hp] at hp'
              exact absurd hp' (by decide)
          | idle ho hd => rfl
        rw [hsame]
        exact ⟨rfl, fun x hx => Or.inl hx⟩
    · rw [not_or] at hp
      have hslots : (r.push frame packetType).1.tpSlots = r.tpSlots :=
        (push_tpSlots_of_ordinary hw hp.1 hp.2).1
      unfold session
      rw [hslots]
      exact ⟨rfl, fun x hx => Or.inl hx⟩
  by_cases hcov : Covered (tpDeclared cm.data).2.1.toNat before
  · rw [tpKnows_of_covered hcov] at h ⊢
    exact hkeep.1.trans h
  · rw [tpKnows_of_not_covered hcov] at h ⊢
    obtain ⟨t, ht, hg, hy⟩ := h
    refine ⟨t, hkeep.1.trans ht, hg, ?_⟩
    intro x hx hux hsx hage
    rcases hkeep.2 x hx with hx | hx
    · exact hy x hx hux hsx hage
    · exact hx

/-- What a TP.DT push does, by the session of its source. -/
theorem push_dt (packetType : FramePacketType) (hw : r.WF) (hp : frame.pgn = PGN_ISO_TP_DT) (hdata : frame.data ≠ []) :
    (r.session frame.src = none ∧ r.push frame packetType = (r, .Partial)) ∨
      ∃ i t, r.tpSlots[i]? = some t ∧ r.session frame.src = some t ∧
        r.push frame packetType =
          ({ r with tpSlots := r.tpSlots.set i (t.accept frame).1 }, (t.accept frame).2) := by
  have hstep : TpStep r frame (r.push frame packetType) := push_tpStep hw (Or.inr hp)
  generalize r.push frame packetType = res at hstep ⊢
  cases hstep with
  | opens i t ho hi hsel =>
      have := ho.1
      rw [hp] at this
      exact absurd this (by decide)
  | aborts i t hcm hc hi hs =>
      rw [hp] at hcm
      exact absurd hcm (by decide)
  | chunk i t hp hd hi hs => exact Or.inr ⟨i, t, hi, hs, rfl⟩
  | idle ho hd =>
      rw [if_neg hdata]
      exact Or.inl ⟨(hd hp).resolve_left hdata, rfl⟩

/-- **Step, own TP.DT frames.** The push answers by what came before, and adds the frame. -/
theorem TpKnows.push_own (hw : r.WF) (h : r.TpKnows cm O before)
    (hsize : (tpDeclared cm.data).1 ≤ (tpDeclared cm.data).2.1.toNat * BUCKET_N_SIZE)
    (hall : ∀ d ∈ before, d.data.length = 8) (hlen : frame.data.length = 8)
    (hd : IsDt cm.src (frame, packetType)) :
    (r.push frame packetType).2 = tpAnswer cm before frame ∧
      (r.push frame packetType).1.TpKnows cm O (before ++ [frame]) := by
  obtain ⟨hp, hsrc⟩ := hd
  have hdata : frame.data ≠ [] := by
    intro hnil
    rw [hnil] at hlen
    cases hlen
  have hwf : (r.push frame packetType).1.WF := push_wf hw
  have hcases := push_dt packetType hw hp hdata
  change frame.src = cm.src at hsrc
  rw [hsrc] at hcases
  by_cases hcov : Covered (tpDeclared cm.data).2.1.toNat before
  · -- everything has arrived, the session is closed
    rw [tpKnows_of_covered hcov] at h
    rw [tpAnswer_swallowed fun _ => hcov, tpKnows_of_covered (covered_append hcov)]
    rcases hcases with ⟨hs, hpush⟩ | ⟨i, t, -, hs, -⟩
    · rw [hpush]
      exact ⟨rfl, hs⟩
    · rw [hs] at h
      cases h
  · rw [tpKnows_of_not_covered hcov] at h
    obtain ⟨t, ht, hg, hy⟩ := h
    rcases hcases with ⟨hs, -⟩ | ⟨i, t', hi, hs, hpush⟩
    · rw [hs] at ht
      cases ht
    obtain rfl : t = t' := by
      rw [hs, Option.some.injEq] at ht
      exact ht.symm
    obtain ⟨hut, hkt⟩ := session_holds ht
    rw [hpush] at hwf ⊢
    have hsess : ∀ src', tpView.lookup src' (r.tpSlots.set i (t.accept frame).1) = _ := fun src' =>
      View.lookup_set (k := src') hw.tp_unique hwf.tp_unique hi
    have hsize' : t.totalSize ≤ t.packets.toNat * BUCKET_N_SIZE := by
      rw [hg.totalSize, hg.packets]
      exact hsize
    -- a session kept open stays young
    have hyoung : ∀ s : TpSlot, s.src = cm.src → s.age = t.age →
        ∀ x ∈ r.tpSlots.set i s, x.used = true → x.src ≠ cm.src →
          s.age.toNat ≤ x.age.toNat → x.src ∈ O := by
      intro s hss hage x hx hux hsx hle
      rcases mem_set hi hx with rfl | hx
      · exact absurd hss hsx
      · exact hy x hx hux hsx (hage ▸ hle)
    rcases TpSlot.accept_cases t frame with ⟨hacc, hr⟩ | ⟨hr, ⟨hacc, hcomp⟩ | ⟨hacc, hcomp⟩⟩
    · have hg' := hg.skip hr hsize'
      have hcov' : ¬ Covered (tpDeclared cm.data).2.1.toNat (before ++ [frame]) := by
        rw [← hg.packets, ← hg'.allReceived, hg.allReceived, hg.packets]
        exact hcov
      rw [tpAnswer_swallowed fun hc => absurd hc hcov', tpKnows_of_not_covered hcov']
      refine ⟨by rw [hacc], t, ?_, hg', ?_⟩
      · show tpView.lookup _ (r.tpSlots.set i (t.accept frame).1) = _
        rw [hsess, hacc, if_pos ⟨hut, hkt⟩]
      · rw [hacc]
        exact hyoung t hkt rfl
    · have hg' := hg.gather hlen hr
      have hcov' : ¬ Covered (tpDeclared cm.data).2.1.toNat (before ++ [frame]) := by
        rw [← hg'.packets, ← hg'.allReceived, hcomp]
        exact Bool.false_ne_true
      rw [tpAnswer_swallowed fun hc => absurd hc hcov', tpKnows_of_not_covered hcov']
      refine ⟨by rw [hacc], t.gather frame, ?_, hg', ?_⟩
      · show tpView.lookup _ (r.tpSlots.set i (t.accept frame).1) = _
        rw [hsess, hacc]
        exact if_pos ⟨hut, hkt⟩
      · rw [hacc]
        exact hyoung (t.gather frame) hkt rfl
    · have hg' := hg.gather hlen hr
      have hcov' : Covered (tpDeclared cm.data).2.1.toNat (before ++ [frame]) := by
        rw [← hg'.packets, ← hg'.allReceived]
        exact hcomp
      have hall' : ∀ d ∈ before ++ [frame], d.data.length = 8 := by
        intro d hd
        rcases List.mem_append.mp hd with hd | hd
        · exact hall d hd
        · rw [List.mem_singleton.mp hd]
          exact hlen
      have hpay := hg'.payload hall' hsize' (by rw [hg'.packets]; exact hcov')
      rw [tpAnswer_complete hcov' hcov, tpKnows_of_covered hcov']
      constructor
      · rw [hacc]
        unfold TpSlot.assembled
        rw [hg'.timestamp, hg'.prio, hg'.targetPgn, hg'.dst, hpay, hg'.packets, hg'.totalSize, hsrc]
      · show tpView.lookup _ (r.tpSlots.set i (t.accept frame).1) = _
        rw [hsess, hacc, if_neg fun hc => Bool.false_ne_true hc.1]
        exact if_pos ⟨hut, hkt⟩

/-- **Run.** -/
theorem TpKnows.run (hcard : O.card ≤ 15) (hsrc : cm.src ∉ O)
    (hsize : (tpDeclared cm.data).1 ≤ (tpDeclared cm.data).2.1.toNat * BUCKET_N_SIZE)
    {log : Log} (hlog : ∀ e ∈ log, Around cm.src O e.1) (hw : r.WF)
    (h : r.TpKnows cm O before) (hall : ∀ d ∈ before, d.data.length = 8) :
    r.outputsOf (IsDt cm.src) log = tpAnswers cm before (framesOf (IsDt cm.src) log) := by
  induction log generalizing r before with
  | nil => rfl
  | cons e log ih =>
      have ha := hlog e List.mem_cons_self
      have hlog' : ∀ x ∈ log, Around cm.src O x.1 := fun x hx =>
        hlog x (List.mem_cons_of_mem _ hx)
      by_cases hd : IsDt cm.src e
      · have hlen : e.1.data.length = 8 := by
          rcases ha.1 hd.1 with h8 | hO
          · exact h8.2
          · exact absurd (hd.2 ▸ hO) hsrc
        obtain ⟨hout, hknow⟩ := h.push_own hw hsize hall hlen hd
        rw [outputsOf_cons_pos hd, framesOf_cons_pos hd, hout,
          ih hlog' (push_wf hw) hknow fun d hd' => ?_]
        · rfl
        · rcases List.mem_append.mp hd' with hd' | hd'
          · exact hall d hd'
          · rw [List.mem_singleton.mp hd']
            exact hlen
      · rw [outputsOf_cons_neg hd, framesOf_cons_neg hd]
        exact ih hlog' (push_wf hw) (h.push_other hw hcard hsrc ha hd) hall

/-! ## Session ages -/

/-- Number of sessions a log opens. -/
def opensIn (log : Log) : ℕ := (log.filter fun e => opensSession e.1).length

/-- The age counter stands at `n` and no session is older than that. -/
structure Aged (r : Reassembler) (n : ℕ) : Prop where
  next : r.tpNextAge.toNat = n
  slots : ∀ x ∈ r.tpSlots, x.age.toNat ≤ n

theorem toNat_succ {a : UInt64} (h : a.toNat + 1 < 2 ^ 64) : (a + 1).toNat = a.toNat + 1 := by
  rw [UInt64.toNat_add]
  exact Nat.mod_eq_of_lt h

theorem Aged.push {n : ℕ} (hw : r.WF) (h : r.Aged n) (hn : n + 1 < 2 ^ 64) :
    (r.push frame packetType).1.Aged (if opensSession frame then n + 1 else n) := by
  by_cases hp : frame.pgn = PGN_ISO_TP_CM ∨ frame.pgn = PGN_ISO_TP_DT
  · have hstep : TpStep r frame (r.push frame packetType) := push_tpStep hw hp
    have hsub : ∀ {i : ℕ} {s t : TpSlot} {m : ℕ}, n ≤ m → s.age.toNat ≤ m →
        r.tpSlots[i]? = some t → ∀ x ∈ r.tpSlots.set i s, x.age.toNat ≤ m := by
      intro i s t m hm hs hi x hx
      rcases mem_set hi hx with rfl | hx
      · exact hs
      · exact le_trans (h.slots x hx) hm
    have hold : ∀ {i : ℕ} {t : TpSlot}, r.tpSlots[i]? = some t → t.age.toNat ≤ n := fun hi =>
      h.slots _ (List.mem_of_getElem? hi)
    generalize r.push frame packetType = res at hstep ⊢
    cases hstep with
    | opens i t ho hi hsel =>
        have hsucc : (r.tpNextAge + 1).toNat = n + 1 := by
          rw [toNat_succ (by rw [h.next]; exact hn), h.next]
        rw [if_pos ho]
        exact ⟨hsucc, hsub (Nat.le_succ n) hsucc.le hi⟩
    | aborts i t hcm hc hi hs =>
        have hno : ¬ opensSession frame := by
          rintro ⟨-, -, hctl, -⟩
          rw [hc] at hctl
          exact absurd hctl (by decide)
        rw [if_neg hno]
        exact ⟨h.next, hsub le_rfl (show t.age.toNat ≤ n from hold hi) hi⟩
    | chunk i t hdt hd hi hs =>
        have hno : ¬ opensSession frame := by
          rintro ⟨hcm, -⟩
          rw [hdt] at hcm
          exact absurd hcm (by decide)
        have hage : (t.accept frame).1.age = t.age := by
          rcases TpSlot.accept_cases t frame with ⟨h, -⟩ | ⟨-, ⟨h, -⟩ | ⟨h, -⟩⟩ <;> rw [h] <;> rfl
        rw [if_neg hno]
        exact ⟨h.next, hsub le_rfl (hage ▸ hold hi) hi⟩
    | idle ho hd =>
        rw [if_neg ho]
        exact h
  · rw [not_or] at hp
    obtain ⟨hslots, hnext⟩ : (r.push frame packetType).1.tpSlots = r.tpSlots ∧
        (r.push frame packetType).1.tpNextAge = r.tpNextAge :=
      push_tpSlots_of_ordinary hw hp.1 hp.2
    rw [if_neg fun ho => hp.1 ho.1]
    exact ⟨by rw [hnext]; exact h.next, by rw [hslots]; exact h.slots⟩

theorem Aged.run {n : ℕ} {log : Log} (hw : r.WF) (h : r.Aged n)
    (hn : n + opensIn log + 1 < 2 ^ 64) : (r.pushAll log).1.Aged (n + opensIn log) := by
  induction log generalizing r n with
  | nil => exact h
  | cons e log ih =>
      have hstep : (r.push e.1 e.2).1.Aged (if opensSession e.1 then n + 1 else n) :=
        h.push hw (by omega)
      have hcount : opensIn (e :: log) =
          (if opensSession e.1 then 1 else 0) + opensIn log := by
        unfold opensIn
        by_cases ho : opensSession e.1
        · rw [List.filter_cons_of_pos (by simpa using ho), if_pos ho, List.length_cons,
            Nat.add_comm]
        · rw [List.filter_cons_of_neg (by simpa using ho), if_neg ho, Nat.zero_add]
      rw [hcount] at hn ⊢
      by_cases ho : opensSession e.1
      · rw [if_pos ho] at hstep hn ⊢
        rw [← Nat.add_assoc]
        exact ih (push_wf hw) hstep (by omega)
      · rw [if_neg ho] at hstep hn ⊢
        rw [Nat.zero_add] at hn ⊢
        exact ih (push_wf hw) hstep hn

theorem new_aged : new.Aged 0 where
  next := rfl
  slots := by
    intro x hx
    rw [List.eq_of_mem_replicate hx]
    exact le_rfl

/-- An accepted `BAM` or `RTS` opens the youngest session, with nothing received yet. -/
theorem TpKnows.init {n : ℕ} (hw : r.WF) (hage : r.Aged n) (hn : n + 1 < 2 ^ 64)
    (hcm : opensSession cm) : (r.push cm packetType).1.TpKnows cm O [] := by
  have hstep : TpStep r cm (r.push cm packetType) := push_tpStep hw (Or.inl hcm.1)
  have hwf := hstep.wf hw
  have hempty : ¬ Covered (tpDeclared cm.data).2.1.toNat [] := by
    intro h
    obtain ⟨d, hd, -⟩ := h 0 (Nat.pos_of_ne_zero fun h0 => hcm.2.2.2.1 (UInt8.toNat_inj.mp h0))
    cases hd
  rw [tpKnows_of_not_covered hempty]
  generalize r.push cm packetType = res at hstep hwf ⊢
  cases hstep with
  | opens i t ho hi hsel =>
      refine ⟨.opened cm (r.tpNextAge + 1), ?_, TpGathered.opened cm _, ?_⟩
      · show tpView.lookup _ (r.tpSlots.set i _) = _
        rw [View.lookup_set hw.tp_unique hwf.tp_unique hi]
        exact if_pos ⟨rfl, rfl⟩
      · intro x hx _ hsx hle
        rcases mem_set hi hx with rfl | hx
        · exact absurd rfl hsx
        · have hle' : (r.tpNextAge + 1).toNat ≤ x.age.toNat := hle
          rw [toNat_succ (by rw [hage.next]; exact hn), hage.next] at hle'
          have := hage.slots x hx
          omega
  | aborts i t hp hc hi hs =>
      have hctl := hcm.2.2.1
      rw [hc] at hctl
      exact absurd hctl (by decide)
  | chunk i t hp hd hi hs =>
      have hpgn := hcm.1
      rw [hp] at hpgn
      exact absurd hpgn (by decide)
  | idle ho hd => exact absurd hcm ho

/-- **ISO TP reassembly is exact in any order.** After any history that opened fewer than
`2 ^ 64 - 1` sessions, an accepted `BAM` or `RTS` whose packet count fits its size, and
then any traffic around its source: each TP.DT frame of the source is answered by what has
arrived since. -/
theorem iso_tp_exact {history : Log} (hage : opensIn history + 1 < 2 ^ 64)
    (hcm : opensSession cm)
    (hpackets : (tpDeclared cm.data).2.1.toNat =
      ((tpDeclared cm.data).1 + (BUCKET_N_SIZE - 1)) / BUCKET_N_SIZE)
    (hcard : O.card ≤ 15) (hsrc : cm.src ∉ O) {log : Log}
    (hlog : ∀ e ∈ log, Around cm.src O e.1) :
    (((new.pushAll history).1.push cm packetType).1.outputsOf (IsDt cm.src) log) =
      tpAnswers cm [] (framesOf (IsDt cm.src) log) := by
  have hw := pushAll_wf new_wf history
  have haged : (new.pushAll history).1.Aged (0 + opensIn history) := new_aged.run new_wf (by omega)
  have hsize : (tpDeclared cm.data).1 ≤ (tpDeclared cm.data).2.1.toNat * BUCKET_N_SIZE := by
    rw [hpackets]
    unfold BUCKET_N_SIZE
    omega
  have hknow : ((new.pushAll history).1.push cm packetType).1.TpKnows cm O [] :=
    TpKnows.init hw haged (by omega) hcm
  exact hknow.run hcard hsrc hsize hlog (push_wf hw) fun d hd => absurd hd List.not_mem_nil

/-- A `BAM` that announces one packet of seven bytes. -/
def bam (src : UInt8) : RawFrame where
  timestamp := none
  prio := 7
  pgn := PGN_ISO_TP_CM
  src := src
  dst := ADDR_GLOBAL
  data := [TP_CM_BAM, 7, 0, 1, 0xff, 0x00, 0xef, 0x01]

/-- Its only packet. -/
def dt (src : UInt8) : RawFrame :=
  { bam src with pgn := PGN_ISO_TP_DT, data := [1, 2, 3, 4, 5, 6, 7, 8] }

theorem iso_tp_exact_one_packet :
    (((new.pushAll []).1.push (bam 20) .Single).1.outputsOf (IsDt 20)
        [(bam 21, .Single), (dt 21, .Single), (dt 20, .Single), (dt 20, .Single)]) =
      tpAnswers (bam 20) [] (framesOf (IsDt 20)
        [(bam 21, .Single), (dt 21, .Single), (dt 20, .Single), (dt 20, .Single)]) :=
  by
  have hcard : ({21} : Finset UInt8).card ≤ 15 := by decide
  have hsrc : (bam 20).src ∉ ({21} : Finset UInt8) := by decide
  exact iso_tp_exact (by decide) (by decide) (by decide) hcard hsrc (by decide)

/-! ## The age counter wraps -/

/-- All slots taken by sources 0 to 15, the last of them renewed until the counter stands
at `age`. -/
def renewed (age : UInt64) : Reassembler :=
  { new with
    tpNextAge := age
    tpSlots := (List.range 15).map (fun i => .opened (bam (.ofNat i)) (.ofNat (i + 1))) ++
      [.opened (bam 15) age] }

theorem renewed_push (age : UInt64) :
    (renewed age).push (bam 15) .Single = (renewed (age + 1), .Partial) := rfl

theorem renewed_pushAll (n : ℕ) (age : UInt64) :
    ((renewed age).pushAll (List.replicate n (bam 15, .Single))).1 =
      renewed (age + UInt64.ofNat n) := by
  induction n generalizing age with
  | zero => simp [pushAll]
  | succ n ih =>
      rw [List.replicate_succ]
      show (((renewed age).push (bam 15) .Single).1.pushAll _).1 = _
      rw [renewed_push, ih, UInt64.ofNat_add, UInt64.add_assoc, UInt64.add_comm 1]
      rfl

theorem renewed_reachable (n : ℕ) : (renewed (16 + UInt64.ofNat n)).Reachable := by
  have hbusy : (new.pushAll ((List.range 16).map fun i => (bam (.ofNat i), .Single))).1 =
      renewed 16 := rfl
  refine ⟨(List.range 16).map (fun i => (bam (.ofNat i), .Single)) ++
    List.replicate n (bam 15, .Single), ?_⟩
  rw [pushAll_append, hbusy, renewed_pushAll]

/-- **The youngest session can be evicted.** Once the counter wraps, a new session counts
as the oldest, and the `BAM` of one further source throws it out. -/
theorem iso_tp_session_lost :
    (renewed (16 + UInt64.ofNat (2 ^ 64 - 17))).Reachable ∧ opensSession (bam 20) ∧
      (∀ e ∈ [(bam 21, FramePacketType.Single), (dt 20, .Single)], Around 20 {21} e.1) ∧
      ((renewed (16 + UInt64.ofNat (2 ^ 64 - 17))).push (bam 20) .Single).1.outputsOf (IsDt 20)
          [(bam 21, .Single), (dt 20, .Single)] = [.Partial] ∧
      tpAnswers (bam 20) [] (framesOf (IsDt 20) [(bam 21, .Single), (dt 20, .Single)]) =
        [.Complete { bam 20 with pgn := 126720, data := [2, 3, 4, 5, 6, 7, 8] }] := by
  refine ⟨renewed_reachable _, by decide, by decide, ?_, by decide⟩
  have hmax : (16 : UInt64) + UInt64.ofNat (2 ^ 64 - 17) = 0xffffffffffffffff := by decide +kernel
  rw [hmax]
  decide +kernel

end Reassembler

end Canboat
