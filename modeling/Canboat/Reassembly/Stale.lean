import Canboat.Reassembly.OrderIndependence

/-!
# A lossless message after a lossy one

All frames of a message are pushed in order onto a slot that may still hold
frames of an earlier burst with the same key. Frame 0 decides the outcome: it
either starts the slot over (or finds it empty), and then the message completes
as it should, or it keeps the stale marks, and then the message is lost or a
payload that mixes two bursts is emitted. `Recovers` is the exact condition.
-/

namespace Canboat

open BitMask

namespace Reassembler

/-- The frames an earlier burst left marked under `K`. -/
def staleFrames (r : Reassembler) (K : FastId) : BitVec 32 :=
  ((r.held K).map Slot.frames).getD 0#32

/-- Stale marks a message of `n` frames recovers from: none at all, its own frame 0,
or every frame it needs besides frame 0. -/
def Recovers (stale : BitVec 32) (n : ℕ) : Prop :=
  stale = 0#32 ∨ stale.getLsbD 0 = true ∨
    2 ≤ n ∧ ∀ j, 1 ≤ j → j < n → stale.getLsbD j = true

/-- The frames of one message pushed back to back. -/
def burst (frames : List RawFrame) : Log := frames.map fun f => (f, .Fast)

/-- What the pushes of a lossless message should return. -/
def Delivered (p : List UInt8) (frames : List RawFrame) (outs : List Reassembled) : Prop :=
  ∃ init last, frames = init ++ [last] ∧
    outs = init.map (fun _ => .Partial) ++ [.Complete { last with data := p }]

/-- The marked positions of a mask. -/
def marked (m : BitVec 32) : Finset ℕ := (Finset.range 32).filter fun j => m.getLsbD j = true

theorem marks_marked (m : BitVec 32) : Marks m (marked m) := by
  intro j hj
  simp [marked, hj]

theorem marked_lt {m : BitVec 32} {j : ℕ} (h : j ∈ marked m) : j < 32 :=
  Finset.mem_range.mp (Finset.mem_filter.mp h).1

/-- `Recovers` is the restart rule for a frame 0, on a slot that is not empty. -/
theorem recovers_iff {stale : BitVec 32} {p : List UInt8} (hp : p.length ≤ FASTPACKET_MAX_SIZE) :
    Recovers stale (frameCount p.length) ↔
      Restarts p 0 (marked stale) ∨ marked stale = ∅ := by
  have hmem : ∀ j, j < 32 → (j ∈ marked stale ↔ stale.getLsbD j = true) := fun j hj =>
    (marks_marked stale j hj).symm
  have hnil : stale = 0#32 ↔ marked stale = ∅ :=
    (marks_marked stale).eq_iff marks_zero (fun j hj => marked_lt hj)
      (fun j hj => absurd hj (Finset.notMem_empty j))
  have hall : (∀ j, 1 ≤ j → j < frameCount p.length → stale.getLsbD j = true) ↔
      ∀ j, 1 ≤ j → j < frameCount p.length → j ∈ marked stale := by
    constructor
    · intro h j h1 h2
      exact (hmem j (lt_32 hp h2)).mpr (h j h1 h2)
    · intro h j h1 h2
      exact (hmem j (lt_32 hp h2)).mp (h j h1 h2)
  unfold Recovers Restarts
  rw [hnil, hall, hmem 0 (by decide)]
  tauto

variable {r : Reassembler} {K : FastId} {p : List UInt8} {frames : List RawFrame}

/-! ## A burst is a log of one key -/

theorem burst_keys {order : List ℕ} (hK : K.Valid) (hp : p.length ≤ FASTPACKET_MAX_SIZE)
    (hi : ∀ i ∈ order, i < frameCount p.length)
    (hf : List.Forall₂ (IsFragment K p) order frames) :
    ∀ f ∈ frames, fastKey f .Fast = some K := by
  induction hf with
  | nil => simp
  | @cons i g order frames hfrag _ ih =>
      intro f hf
      rcases List.mem_cons.mp hf with rfl | hf
      · exact hfrag.fastKey hK (lt_32 hp (hi i List.mem_cons_self))
      · exact ih (fun j hj => hi j (List.mem_cons_of_mem _ hj)) f hf

section Burst

variable (hkeys : ∀ f ∈ frames, fastKey f .Fast = some K)
include hkeys

theorem framesFor_burst : framesFor K (burst frames) = frames := by
  induction frames with
  | nil => rfl
  | cons f frames ih =>
      have hkey := hkeys f List.mem_cons_self
      show framesFor K ((f, .Fast) :: burst frames) = f :: frames
      rw [framesFor_own hkey, ih fun g hg => hkeys g (List.mem_cons_of_mem _ hg)]

theorem outputsFor_burst : outputsFor r K (burst frames) = (r.pushAll (burst frames)).2 := by
  induction frames generalizing r with
  | nil => rfl
  | cons f frames ih =>
      have hkey := hkeys f List.mem_cons_self
      show outputsFor r K ((f, .Fast) :: burst frames) = _
      rw [outputsFor_own hkey, ih fun g hg => hkeys g (List.mem_cons_of_mem _ hg)]
      rfl

theorem touched_burst : touched (burst frames) ⊆ {K} := by
  intro k hk
  unfold touched burst at hk
  rw [List.mem_toFinset, List.mem_filterMap] at hk
  obtain ⟨e, he, hkey⟩ := hk
  obtain ⟨f, hmem, rfl⟩ := List.mem_map.mp he
  rw [hkeys f hmem] at hkey
  rw [Finset.mem_singleton]
  exact (Option.some.inj hkey).symm

end Burst

/-! ## Recovering -/

theorem card_heldKeys_le (hw : r.WF) : r.heldKeys.card ≤ REASSEMBLY_BUFFER_SIZE := by
  have h1 := List.toFinset_card_le ((r.slots.filter slotView.used).map slotView.key)
  have h2 := List.length_filter_le slotView.used r.slots
  rw [List.length_map] at h1
  rw [← hw.slots_length]
  exact le_trans h1 h2

/-- Once frame 0 stands alone in the slot, the rest of the burst completes. -/
theorem burst_after_zero (hw : r.WF) (hK : K.Valid) (hp : p.length ≤ FASTPACKET_MAX_SIZE)
    (hheld : r.held K ≠ none) (hknow : r.Knows K p {0}) {n : ℕ}
    (hn : frameCount p.length = n + 2)
    (hf : List.Forall₂ (IsFragment K p) (List.range' 1 (n + 1)) frames) :
    Delivered p frames (r.pushAll (burst frames)).2 := by
  have hbound : ∀ i ∈ List.range' 1 (n + 1), 1 ≤ i ∧ i < frameCount p.length := by
    intro i hi
    have := List.mem_range'_1.mp hi
    omega
  have hkeys := burst_keys hK hp (fun i hi => (hbound i hi).2) hf
  have hcard : ((r.heldKeys ∪ touched (burst frames)).erase K).card < REASSEMBLY_BUFFER_SIZE := by
    have hKmem : K ∈ r.heldKeys := SlotTable.View.mem_keys.mpr hheld
    have hunion : r.heldKeys ∪ touched (burst frames) = r.heldKeys :=
      Finset.union_eq_left.mpr
        ((touched_burst hkeys).trans (Finset.singleton_subset_iff.mpr hKmem))
    rw [hunion, Finset.card_erase_of_mem hKmem]
    have hle := card_heldKeys_le hw
    have hpos := Finset.card_pos.mpr ⟨K, hKmem⟩
    omega
  have hdisj : ∀ i ∈ List.range' 1 (n + 1), i ∉ ({0} : Finset ℕ) := by
    intro i hi hi0
    have h1 := (hbound i hi).1
    rw [Finset.mem_singleton.mp hi0] at h1
    exact absurd h1 (by decide)
  have hcover : {0} ∪ (List.range' 1 (n + 1)).toFinset =
      Finset.range (frameCount p.length) := by
    ext j
    rw [Finset.mem_union, Finset.mem_singleton, List.mem_toFinset, List.mem_range'_1,
      Finset.mem_range]
    omega
  have hlast : (List.range' 1 (n + 1)).getLast? = some 0 → frameCount p.length = 1 := by
    intro h
    exact absurd (hbound 0 (List.mem_of_getLast? h)).1 (by decide)
  have hframes : List.Forall₂ (IsFragment K p) (List.range' 1 (n + 1))
      (framesFor K (burst frames)) := by
    rw [framesFor_burst hkeys]
    exact hf
  have hrun := hknow.run hK hp hw hcard (by simp) List.nodup_range' hdisj hcover hlast hframes
  rw [framesFor_burst hkeys, outputsFor_burst hkeys] at hrun
  exact hrun

/-- The push of frame 0, on whatever slot the key has. -/
theorem push_zero (hw : r.WF) (hK : K.Valid) (hp : p.length ≤ FASTPACKET_MAX_SIZE)
    {f : RawFrame} (hf : IsFragment K p 0 f)
    (hrec : Recovers (r.staleFrames K) (frameCount p.length)) :
    Gathering p {0} ((r.target K).gather f) := by
  have hstale : (r.target K).frames = r.staleFrames K := by
    unfold target staleFrames
    cases r.held K with
    | none => rfl
    | some s => rfl
  refine Gathering.restart hf hK hp (F := marked (r.staleFrames K)) ?_ (target_data_length hw) ?_
  · rw [hstale]
    exact marks_marked _
  · exact (recovers_iff hp).mp hrec

/-- **The good direction.** From a state the key recovers from, the burst is delivered. -/
theorem burst_delivered (hw : r.WF) (hK : K.Valid) (hp : p.length ≤ FASTPACKET_MAX_SIZE)
    (hf : List.Forall₂ (IsFragment K p) (List.range (frameCount p.length)) frames)
    (hrec : Recovers (r.staleFrames K) (frameCount p.length)) :
    Delivered p frames (r.pushAll (burst frames)).2 := by
  obtain ⟨n, hn⟩ : ∃ n, frameCount p.length = n + 1 :=
    ⟨frameCount p.length - 1, by have := frameCount_pos p.length; omega⟩
  rw [hn, List.range_eq_range', List.range'_succ] at hf
  cases hf with
  | @cons _ f _ rest hzero hrest =>
      have hkey := hzero.fastKey hK (by decide)
      have hg := push_zero hw hK hp hzero hrec
      have houts : (r.pushAll (burst (f :: rest))).2 =
          (r.push f .Fast).2 :: ((r.push f .Fast).1.pushAll (burst rest)).2 := rfl
      rw [houts, push_out hw hkey]
      cases n with
      | zero =>
          -- a single frame completes at once
          cases hrest
          have hfull : ({0} : Finset ℕ) = Finset.range (frameCount p.length) := by rw [hn]; rfl
          rw [hfull] at hg
          rw [(hg.accept_complete hp).1]
          exact ⟨[], f, rfl, rfl⟩
      | succ n =>
          have hone : (1 : ℕ) ∉ ({0} : Finset ℕ) := by decide
          have hpart := hg.accept_partial hp fun heq =>
            hone (heq ▸ Finset.mem_range.mpr (by omega))
          have hheld : (r.push f .Fast).1.held K = some ((r.target K).gather f) := by
            rw [held_push_self hw hkey, hpart]
            exact if_pos target_used
          have hknow : (r.push f .Fast).1.Knows K p {0} := by
            unfold Knows
            rw [hheld]
            exact hg
          obtain ⟨init, last, hinit, hres⟩ := burst_after_zero (push_wf hw) hK hp
            (by rw [hheld]; exact Option.some_ne_none _) hknow hn hrest
          refine ⟨f :: init, last, by rw [hinit]; rfl, ?_⟩
          rw [hpart, hres]
          rfl

/-! ## Not recovering -/

/-- The slot is past saving before frame `j`: frame 0 is not marked, or some mark at `j`
or above is left over. -/
def Stuck (r : Reassembler) (K : FastId) (p : List UInt8) (j : ℕ) : Prop :=
  ∃ s G, r.held K = some s ∧ Marks s.frames G ∧ (∀ t ∈ G, t < 32) ∧
    s.allFrames = requiredFrames p.length ∧ (0 ∉ G ∨ ∃ t ∈ G, j ≤ t)

/-- A mask that is not exactly the needed frames does not complete. -/
theorem accept_partial_of_marks {s : Slot} {f : RawFrame} {G : Finset ℕ}
    (hp : p.length ≤ FASTPACKET_MAX_SIZE) (hm : Marks (s.gather f).frames G)
    (hG : ∀ t ∈ G, t < 32) (hall : (s.gather f).allFrames = requiredFrames p.length)
    (hne : G ≠ Finset.range (frameCount p.length)) :
    s.accept f = (s.gather f, .Partial) := by
  rcases Slot.accept_cases s f with ⟨-, hc⟩ | ⟨h2, -⟩
  · exact absurd ((complete_iff_of_marks hp hm hG hall).mp hc) hne
  · exact h2

/-- **Step.** Frame `j` of a stuck burst is reported `Partial` and leaves it stuck, or
completes although frames are still to come. -/
theorem Stuck.push (hw : r.WF) (hK : K.Valid) (hp : p.length ≤ FASTPACKET_MAX_SIZE) {j : ℕ}
    (hs : r.Stuck K p j) (h1 : 1 ≤ j) (hj : j < frameCount p.length) {f : RawFrame}
    (hf : IsFragment K p j f) :
    (r.push f .Fast).2 = .Partial ∧ (r.push f .Fast).1.Stuck K p (j + 1) ∨
      (r.push f .Fast).2 ≠ .Partial ∧ j + 1 < frameCount p.length := by
  obtain ⟨s, G, hheld, hm, hG, hall, hbad⟩ := hs
  have hj32 := lt_32 hp hj
  have hkey := hf.fastKey hK hj32
  have htarget : r.target K = s := by
    unfold target
    rw [hheld]
    rfl
  have hused := (held_holds hheld).1
  have hmarks := gather_marks hf hK hp hj hm
  have hall' : (s.gather f).allFrames = requiredFrames p.length := by
    rw [(gather_later hf hK hj32 (by omega)).1]
    exact hall
  -- the marks after the push: `j` alone after a restart, else `j` added
  obtain ⟨G', hm', hG', hbad'⟩ : ∃ G', Marks (s.gather f).frames G' ∧ (∀ t ∈ G', t < 32) ∧
      (0 ∉ G' ∨ ∃ t ∈ G', j + 1 ≤ t) := by
    by_cases hr : Restarts p j G
    · rw [if_pos hr] at hmarks
      refine ⟨_, hmarks, ?_, Or.inl ?_⟩
      · intro t ht
        rw [Finset.insert_empty, Finset.mem_singleton] at ht
        rw [ht]
        exact hj32
      · rw [Finset.insert_empty, Finset.mem_singleton]
        omega
    · rw [if_neg hr] at hmarks
      refine ⟨_, hmarks, ?_, ?_⟩
      · intro t ht
        rcases Finset.mem_insert.mp ht with rfl | ht
        · exact hj32
        · exact hG t ht
      · rcases hbad with h0 | ⟨t, ht, hjt⟩
        · left
          rw [Finset.mem_insert, not_or]
          exact ⟨by omega, h0⟩
        · have hne : t ≠ j := fun h => hr (Or.inl (h ▸ ht))
          exact Or.inr ⟨t, Finset.mem_insert_of_mem ht, by omega⟩
  by_cases hfull : G' = Finset.range (frameCount p.length)
  · right
    constructor
    · have hc := (complete_iff_of_marks hp hm' hG' hall').mpr hfull
      rw [push_out hw hkey, htarget]
      rcases Slot.accept_cases s f with ⟨h, -⟩ | ⟨-, h⟩
      · rw [h]
        exact Reassembled.noConfusion
      · exact absurd hc.2 (h hc.1)
    · rcases hbad' with h0 | ⟨t, ht, hjt⟩
      · rw [hfull] at h0
        exact absurd (Finset.mem_range.mpr (frameCount_pos p.length)) h0
      · rw [hfull] at ht
        exact lt_of_le_of_lt hjt (Finset.mem_range.mp ht)
  · left
    have hpart := accept_partial_of_marks hp hm' hG' hall' hfull
    constructor
    · rw [push_out hw hkey, htarget, hpart]
    · refine ⟨s.gather f, G', ?_, hm', hG', hall', hbad'⟩
      rw [held_push_self hw hkey, htarget, hpart]
      exact if_pos hused

/-- A burst is delivered only if its first push is `Partial` and the rest delivered. -/
theorem delivered_cons {f g : RawFrame} {rest : List RawFrame} {out : Reassembled}
    {outs : List Reassembled} :
    Delivered p (f :: g :: rest) (out :: outs) ↔
      out = .Partial ∧ Delivered p (g :: rest) outs := by
  constructor
  · rintro ⟨init, last, hinit, houts⟩
    cases init with
    | nil => cases hinit
    | cons a init =>
        rw [List.cons_append] at hinit
        injection hinit with _ hinit
        rw [List.map_cons, List.cons_append] at houts
        injection houts with hout houts
        exact ⟨hout, init, last, hinit, houts⟩
  · rintro ⟨rfl, init, last, hinit, houts⟩
    exact ⟨f :: init, last, by rw [hinit]; rfl, by rw [houts]; rfl⟩

theorem delivered_singleton {f : RawFrame} {out : Reassembled} :
    Delivered p [f] [out] ↔ out = .Complete { f with data := p } := by
  constructor
  · rintro ⟨init, last, hinit, houts⟩
    cases init with
    | nil =>
        injection hinit with hlast _
        injection houts with hout _
        rw [hout, hlast]
    | cons a init =>
        injection hinit with _ hinit
        exact absurd hinit.symm (by simp)
  · rintro rfl
    exact ⟨[], f, rfl, rfl⟩

/-- **Run.** A stuck burst is not delivered. -/
theorem Stuck.run (hw : r.WF) (hK : K.Valid) (hp : p.length ≤ FASTPACKET_MAX_SIZE) {j n : ℕ}
    (hs : r.Stuck K p j) (h1 : 1 ≤ j) (hn : frameCount p.length = j + (n + 1))
    (hf : List.Forall₂ (IsFragment K p) (List.range' j (n + 1)) frames) :
    ¬ Delivered p frames (r.pushAll (burst frames)).2 := by
  induction n generalizing r j frames with
  | zero =>
      cases hf with
      | @cons _ f _ rest hfrag hrest =>
          cases hrest
          show ¬ Delivered p [f] [(r.push f .Fast).2]
          rw [delivered_singleton]
          rcases hs.push hw hK hp h1 (by omega) hfrag with ⟨hout, -⟩ | ⟨-, hlt⟩
          · rw [hout]
            exact Reassembled.noConfusion
          · omega
  | succ n ih =>
      rw [List.range'_succ] at hf
      cases hf with
      | @cons _ f _ rest hfrag hrest =>
          cases hrest with
          | @cons _ g _ rest hg hrest =>
              show ¬ Delivered p (f :: g :: rest)
                ((r.push f .Fast).2 :: ((r.push f .Fast).1.pushAll (burst (g :: rest))).2)
              rw [delivered_cons]
              rintro ⟨hout, hdel⟩
              rcases hs.push hw hK hp h1 (by omega) hfrag with ⟨-, hstuck⟩ | ⟨hne, -⟩
              · exact ih (push_wf hw) hstuck (by omega) (by omega) (.cons hg hrest) hdel
              · exact hne hout

/-- **The bad direction.** From a state the key does not recover from, the burst is not
delivered. -/
theorem burst_not_delivered (hw : r.WF) (hK : K.Valid) (hp : p.length ≤ FASTPACKET_MAX_SIZE)
    (hf : List.Forall₂ (IsFragment K p) (List.range (frameCount p.length)) frames)
    (hrec : ¬ Recovers (r.staleFrames K) (frameCount p.length)) :
    ¬ Delivered p frames (r.pushAll (burst frames)).2 := by
  set F := marked (r.staleFrames K) with hF
  rw [recovers_iff hp, not_or, ← hF] at hrec
  obtain ⟨hr, hne⟩ := hrec
  -- the key is held, with some mark other than frame 0
  obtain ⟨s, hheld⟩ : ∃ s, r.held K = some s := by
    cases h : r.held K with
    | some s => exact ⟨s, rfl⟩
    | none => exact absurd (by rw [hF, staleFrames, h]; rfl) hne
  have hframes : s.frames = r.staleFrames K := by
    rw [staleFrames, hheld]
    rfl
  have hm : Marks s.frames F := by
    rw [hframes]
    exact marks_marked _
  obtain ⟨t, ht⟩ := Finset.nonempty_iff_ne_empty.mpr hne
  have h0 : 0 ∉ F := fun h => hr (Or.inl h)
  have ht1 : 1 ≤ t := Nat.one_le_iff_ne_zero.mpr fun h => h0 (h ▸ ht)
  have htarget : r.target K = s := by
    unfold target
    rw [hheld]
    rfl
  obtain ⟨n, hn⟩ : ∃ n, frameCount p.length = n + 1 :=
    ⟨frameCount p.length - 1, by have := frameCount_pos p.length; omega⟩
  rw [hn, List.range_eq_range', List.range'_succ] at hf
  cases hf with
  | @cons _ f _ rest hzero hrest =>
      have hkey := hzero.fastKey hK (by decide)
      have hmarks := gather_marks hzero hK hp (frameCount_pos _) hm
      rw [if_neg hr] at hmarks
      have hlt : ∀ t ∈ insert 0 F, t < 32 := by
        intro t ht
        rcases Finset.mem_insert.mp ht with rfl | ht
        · decide
        · exact marked_lt ht
      have hmask : insert 0 F ≠ Finset.range (frameCount p.length) := by
        intro heq
        refine hr (Or.inr ⟨rfl, ?_, ?_⟩)
        · have := Finset.mem_range.mp (heq ▸ Finset.mem_insert_of_mem ht)
          omega
        · intro j hj1 hj
          have := heq.symm ▸ Finset.mem_range.mpr hj
          exact (Finset.mem_insert.mp this).resolve_left (by omega)
      have hpart := accept_partial_of_marks hp hmarks hlt (gather_zero hzero hK hp).1 hmask
      have hout : (r.push f .Fast).2 = .Partial := by rw [push_out hw hkey, htarget, hpart]
      have houts : (r.pushAll (burst (f :: rest))).2 =
          (r.push f .Fast).2 :: ((r.push f .Fast).1.pushAll (burst rest)).2 := rfl
      rw [houts]
      cases n with
      | zero =>
          -- the only frame of the message is swallowed
          cases hrest
          show ¬ Delivered p [f] [(r.push f .Fast).2]
          rw [delivered_singleton, hout]
          exact Reassembled.noConfusion
      | succ n =>
          have hstuck : (r.push f .Fast).1.Stuck K p 1 := by
            refine ⟨s.gather f, insert 0 F, ?_, hmarks, hlt, (gather_zero hzero hK hp).1,
              Or.inr ⟨t, Finset.mem_insert_of_mem ht, ht1⟩⟩
            rw [held_push_self hw hkey, htarget, hpart]
            exact if_pos (held_holds hheld).1
          rw [List.range'_succ] at hrest
          cases hrest with
          | @cons _ g _ rest hg hrest =>
              rw [delivered_cons]
              rintro ⟨-, hdel⟩
              exact hstuck.run (push_wf hw) hK hp le_rfl (by omega) (.cons hg hrest) hdel

/-! ## The exact condition -/

/-- **A lossless message is delivered exactly when the key recovers.** From any reachable
state, the frames of `p` pushed in order under `K` report `Partial` up to the last one,
which completes with `p`, if and only if the marks left under `K` satisfy `Recovers`. -/
theorem lossless_delivered_iff (hr : r.Reachable) (hK : K.Valid)
    (hp : p.length ≤ FASTPACKET_MAX_SIZE)
    (hf : List.Forall₂ (IsFragment K p) (List.range (frameCount p.length)) frames) :
    Delivered p frames (r.pushAll (burst frames)).2 ↔
      Recovers (r.staleFrames K) (frameCount p.length) := by
  constructor
  · intro hdel
    by_contra hrec
    exact burst_not_delivered hr.wf hK hp hf hrec hdel
  · exact burst_delivered hr.wf hK hp hf

theorem lossless_delivered_iff_fresh :
    Delivered (List.replicate 8 1)
        ((List.range 2).map (fragmentFrame (127489, 16, 0x20) (List.replicate 8 1)))
        (new.pushAll (burst
          ((List.range 2).map (fragmentFrame (127489, 16, 0x20) (List.replicate 8 1))))).2 ↔
      Recovers (new.staleFrames (127489, 16, 0x20)) 2 := by
  have hf : List.Forall₂ (IsFragment (127489, 16, 0x20) (List.replicate 8 1))
      (List.range (frameCount (List.replicate 8 (1 : UInt8)).length))
      ((List.range 2).map (fragmentFrame (127489, 16, 0x20) (List.replicate 8 1))) := by
    show List.Forall₂ _ (List.range 2) _
    rw [List.forall₂_map_right_iff, List.forall₂_same]
    exact fun i _ => fragmentFrame_isFragment _ _ i
  exact lossless_delivered_iff ⟨[], rfl⟩ ⟨by decide, by decide, by decide⟩ (by decide) hf

/-- The slot of a key after a burst of which only frame `i` arrived. -/
def afterStray (i : ℕ) : Reassembler :=
  (new.pushAll (burst [fragmentFrame (127489, 16, 0x20) (List.replicate 14 9) i])).1

/-- A push that completed a message. -/
def completes : Reassembled → Bool
  | .Complete _ => true
  | _ => false

/-- **Stale frames do break a lossless message.** A stray frame 1 swallows a following
message of one frame, and a stray frame 2 completes a following message of three frames
before its last frame has been pushed. -/
theorem lossless_message_lost :
    (afterStray 1).Reachable ∧
    ¬ Delivered [1, 2, 3] [fragmentFrame (127489, 16, 0x20) [1, 2, 3] 0]
      ((afterStray 1).pushAll (burst [fragmentFrame (127489, 16, 0x20) [1, 2, 3] 0])).2 ∧
    (afterStray 2).Reachable ∧
    ((afterStray 2).pushAll (burst
        ((List.range 3).map (fragmentFrame (127489, 16, 0x20) (List.replicate 14 1))))).2.map
      completes = [false, true, false] := by
  refine ⟨⟨_, rfl⟩, ?_, ⟨_, rfl⟩, by decide +kernel⟩
  have hout : ((afterStray 1).pushAll (burst [fragmentFrame (127489, 16, 0x20) [1, 2, 3] 0])).2 =
      [.Partial] := by decide +kernel
  rw [hout, delivered_singleton]
  exact Reassembled.noConfusion

end Reassembler

end Canboat
