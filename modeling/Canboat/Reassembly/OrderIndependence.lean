import Canboat.Reassembly.FastPacket
import Mathlib.Data.Finset.Dedup

/-!
# Fast-packet reassembly does not depend on the order of the frames

The frames of one message may arrive in any order in which frame 0 is not the
last, between any other traffic that leaves room in the table: the pushes
before the last report `Partial` and the last one completes with the payload.

The run invariant is `Knows r K p F`: the table holds exactly the frames `F` of
`p` under `K`. Pushes under another key keep it, a push of a missing frame adds
that frame to `F`.
-/

namespace Canboat

namespace Reassembler

/-- A push under `K`. -/
def ForKey (K : FastId) (e : RawFrame × FramePacketType) : Prop := fastKey e.1 e.2 = some K

instance (K : FastId) : DecidablePred (ForKey K) := fun e =>
  inferInstanceAs (Decidable (fastKey e.1 e.2 = some K))

/-- The frames of the log that are pushed under `K`. -/
def framesFor (K : FastId) (log : Log) : List RawFrame := framesOf (ForKey K) log

/-- What the pushes under `K` returned when the log was pushed into `r`. -/
def outputsFor (r : Reassembler) (K : FastId) (log : Log) : List Reassembled :=
  r.outputsOf (ForKey K) log

/-- The keys the log touches. -/
def touched (log : Log) : Finset FastId := (log.filterMap fun e => fastKey e.1 e.2).toFinset

/-- The table holds exactly the frames `F` of `p` under `K`. -/
def Knows (r : Reassembler) (K : FastId) (p : List UInt8) (F : Finset ℕ) : Prop :=
  match r.held K with
  | none => F = ∅
  | some s => Gathering p F s

section Run

variable {r : Reassembler} {K : FastId} {p : List UInt8} {F : Finset ℕ}
  {e : RawFrame × FramePacketType} {log : Log}

theorem framesFor_own (h : fastKey e.1 e.2 = some K) :
    framesFor K (e :: log) = e.1 :: framesFor K log :=
  framesOf_cons_pos h

theorem framesFor_other (h : fastKey e.1 e.2 ≠ some K) :
    framesFor K (e :: log) = framesFor K log :=
  framesOf_cons_neg h

theorem outputsFor_own (h : fastKey e.1 e.2 = some K) :
    outputsFor r K (e :: log) =
      (r.push e.1 e.2).2 :: outputsFor (r.push e.1 e.2).1 K log :=
  outputsOf_cons_pos h

theorem outputsFor_other (h : fastKey e.1 e.2 ≠ some K) :
    outputsFor r K (e :: log) = outputsFor (r.push e.1 e.2).1 K log :=
  outputsOf_cons_neg h

/-- The keys that matter for the rest of a log are among those that mattered
before its first push. -/
theorem keys_push_subset (hw : r.WF) :
    (r.push e.1 e.2).1.heldKeys ∪ touched log ⊆ r.heldKeys ∪ touched (e :: log) := by
  have htouched : touched (e :: log) = (fastKey e.1 e.2).toFinset ∪ touched log := by
    unfold touched
    cases hk : fastKey e.1 e.2 with
    | none => simp [hk]
    | some k =>
        simp only [List.filterMap_cons, hk, List.toFinset_cons]
        rw [Finset.insert_eq]
        rfl
  rw [htouched, ← Finset.union_assoc]
  exact Finset.union_subset_union_left (heldKeys_push hw)

theorem Knows.target (h : r.Knows K p F) : Gathering p F (r.target K) := by
  unfold Knows at h
  unfold Reassembler.target
  cases hk : r.held K with
  | none =>
      rw [hk] at h
      subst h
      exact Gathering.claimed p K r.nextAge
  | some s =>
      rw [hk] at h
      exact h

theorem target_used : (r.target K).used = true := by
  unfold Reassembler.target
  cases hk : r.held K with
  | none => rfl
  | some s => exact (held_holds hk).1

/-- **Step, other keys.** A push under another key keeps what is known of `K`, while
at most 63 other keys are held or touched. -/
theorem Knows.push_other (hw : r.WF) (h : r.Knows K p F) (hk : fastKey e.1 e.2 ≠ some K)
    (hcard : ((r.heldKeys ∪ touched (e :: log)).erase K).card < REASSEMBLY_BUFFER_SIZE) :
    (r.push e.1 e.2).1.Knows K p F := by
  have hheld : (r.push e.1 e.2).1.held K = r.held K := by
    cases hfk : fastKey e.1 e.2 with
    | none =>
        unfold held
        rw [push_slots_of_no_key hw hfk]
    | some k =>
        have hne : K ≠ k := fun heq => hk (heq ▸ hfk)
        refine held_push_other hw hfk hne ?_ ?_ hcard
        · exact Finset.subset_insert_iff.mpr
            (Finset.erase_subset_erase _ Finset.subset_union_left)
        · refine Finset.mem_erase.mpr ⟨Ne.symm hne, Finset.mem_union_right _ ?_⟩
          simp [touched, hfk]
  unfold Knows
  rw [hheld]
  exact h

/-- **Step, own key.** A push of a missing frame that does not complete the message
reports `Partial` and adds the frame. -/
theorem Knows.push_own (hw : r.WF) (h : r.Knows K p F) (hK : K.Valid)
    (hp : p.length ≤ FASTPACKET_MAX_SIZE) {i : ℕ} (hi : i < frameCount p.length)
    (hf : IsFragment K p i e.1) (hk : fastKey e.1 e.2 = some K) (hr : ¬ Restarts p i F)
    (hF : insert i F ≠ Finset.range (frameCount p.length)) :
    (r.push e.1 e.2).2 = .Partial ∧ (r.push e.1 e.2).1.Knows K p (insert i F) := by
  have hg := h.target.gather hf hK hp hi hr
  have hacc := hg.accept_partial hp hF
  constructor
  · rw [push_out hw hk, hacc]
  · unfold Knows
    rw [held_push_self hw hk, hacc,
      if_pos (show ((r.target K).gather e.1).used = true from target_used)]
    exact hg

/-- The push of the last missing frame completes with the payload. -/
theorem Knows.push_last (hw : r.WF) (h : r.Knows K p F) (hK : K.Valid)
    (hp : p.length ≤ FASTPACKET_MAX_SIZE) {i : ℕ} (hi : i < frameCount p.length)
    (hf : IsFragment K p i e.1) (hk : fastKey e.1 e.2 = some K) (hr : ¬ Restarts p i F)
    (hF : insert i F = Finset.range (frameCount p.length)) :
    (r.push e.1 e.2).2 = .Complete { e.1 with data := p } ∧
      (r.push e.1 e.2).1.held K = none := by
  have hg := h.target.gather hf hK hp hi hr
  rw [hF] at hg
  obtain ⟨hout, hfree⟩ := hg.accept_complete hp
  constructor
  · rw [push_out hw hk, hout]
  · rw [held_push_self hw hk, if_neg (by rw [hfree]; decide)]

/-- **Run.** With the frames `F` known and the missing ones arriving in the order
`order`, every push under `K` but the last is `Partial` and the last completes. -/
theorem Knows.run (hK : K.Valid) (hp : p.length ≤ FASTPACKET_MAX_SIZE) {order : List ℕ}
    (hw : r.WF) (h : r.Knows K p F)
    (hcard : ((r.heldKeys ∪ touched log).erase K).card < REASSEMBLY_BUFFER_SIZE)
    (hne : order ≠ []) (hnodup : order.Nodup) (hdisj : ∀ i ∈ order, i ∉ F)
    (hcover : F ∪ order.toFinset = Finset.range (frameCount p.length))
    (hlast : order.getLast? = some 0 → frameCount p.length = 1)
    (hframes : List.Forall₂ (IsFragment K p) order (framesFor K log)) :
    ∃ init last, framesFor K log = init ++ [last] ∧
      outputsFor r K log = init.map (fun _ => .Partial) ++ [.Complete { last with data := p }] := by
  induction log generalizing r F order with
  | nil =>
      cases hframes
      exact absurd rfl hne
  | cons e log ih =>
      have hcard' : (((r.push e.1 e.2).1.heldKeys ∪ touched log).erase K).card <
          REASSEMBLY_BUFFER_SIZE :=
        lt_of_le_of_lt (Finset.card_le_card (Finset.erase_subset_erase _ (keys_push_subset hw)))
          hcard
      by_cases hk : fastKey e.1 e.2 = some K
      · rw [framesFor_own hk] at hframes ⊢
        rw [outputsFor_own hk]
        cases hframes with
        | @cons i _ rest _ hf hrest =>
            have hiF : i ∉ F := hdisj i List.mem_cons_self
            have hin : i < frameCount p.length := by
              rw [← Finset.mem_range, ← hcover]
              simp
            cases rest with
            | nil =>
                have hfull : insert i F = Finset.range (frameCount p.length) := by
                  rw [← hcover, Finset.insert_eq, Finset.union_comm]
                  rfl
                have hr : ¬ Restarts p i F := by
                  rintro (hmem | ⟨rfl, htwo, -⟩)
                  · exact hiF hmem
                  · have := hlast rfl
                    omega
                obtain ⟨hout, -⟩ := h.push_last hw hK hp hin hf hk hr hfull
                have hnil : framesFor K log = [] := by
                  cases hlog : framesFor K log with
                  | nil => rfl
                  | cons a l =>
                      rw [hlog] at hrest
                      cases hrest
                refine ⟨[], e.1, by rw [hnil]; rfl, ?_⟩
                rw [hout, show outputsFor _ K log = [] from outputsOf_of_no_frame hnil]
                rfl
            | cons j rest =>
                have hj : j ∉ insert i F := by
                  rw [Finset.mem_insert, not_or]
                  refine ⟨fun hji => ?_, hdisj j (by simp)⟩
                  rw [hji] at hnodup
                  simp at hnodup
                have hjn : j < frameCount p.length := by
                  rw [← Finset.mem_range, ← hcover]
                  simp
                have hr : ¬ Restarts p i F := by
                  rintro (hmem | ⟨rfl, -, hall⟩)
                  · exact hiF hmem
                  · refine hj (Finset.mem_insert_of_mem (hall j ?_ hjn))
                    exact Nat.one_le_iff_ne_zero.mpr fun h0 =>
                      hj (h0 ▸ Finset.mem_insert_self j F)
                have hF : insert i F ≠ Finset.range (frameCount p.length) := fun heq =>
                  hj (heq ▸ Finset.mem_range.mpr hjn)
                obtain ⟨hout, hknow⟩ := h.push_own hw hK hp hin hf hk hr hF
                obtain ⟨init, last, hinit, houts⟩ := ih (push_wf hw) hknow hcard'
                  (List.cons_ne_nil j rest) hnodup.of_cons
                  (fun x hx => by
                    rw [Finset.mem_insert, not_or]
                    refine ⟨fun hxi => ?_, hdisj x (List.mem_cons_of_mem _ hx)⟩
                    rw [hxi] at hx
                    exact (List.nodup_cons.mp hnodup).1 hx)
                  (by
                    rw [← hcover, List.toFinset_cons (a := i), Finset.insert_union,
                      Finset.union_insert])
                  (fun hz => hlast (by rw [List.getLast?_cons_cons]; exact hz)) hrest
                refine ⟨e.1 :: init, last, by rw [hinit]; rfl, ?_⟩
                rw [hout, houts]
                rfl
      · rw [framesFor_other hk] at hframes ⊢
        rw [outputsFor_other hk]
        exact ih (push_wf hw) (h.push_other hw hk hcard) hcard' hne hnodup hdisj hcover hlast
          hframes

end Run

/-- **Order independence of fast-packet reassembly.** From a reachable state with
nothing held under `K`, the frames of `p` pushed in an order that does not end
with frame 0, between pushes that hold or touch at most 63 other keys: all of
them report `Partial` but the last, which completes with `p` under the PGN and
source of `K`. -/
theorem reassembly_order_independent {r : Reassembler} (hr : r.Reachable) {K : FastId}
    (hK : K.Valid) (hfree : r.held K = none) {p : List UInt8}
    (hp : p.length ≤ FASTPACKET_MAX_SIZE) {order : List ℕ}
    (horder : order.Perm (List.range (frameCount p.length)))
    (hlast : order.getLast? = some 0 → frameCount p.length = 1) {log : Log}
    (hframes : List.Forall₂ (IsFragment K p) order (framesFor K log))
    (hcard : ((r.heldKeys ∪ touched log).erase K).card ≤ 63) :
    ∃ init last, framesFor K log = init ++ [last] ∧ last.pgn = K.1 ∧ last.src = K.2.1 ∧
      outputsFor r K log = init.map (fun _ => .Partial) ++ [.Complete { last with data := p }] := by
  have hknow : r.Knows K p ∅ := by
    unfold Knows
    rw [hfree]
  have hne : order ≠ [] := by
    rintro rfl
    have := horder.length_eq
    have hpos' := frameCount_pos p.length
    rw [List.length_range] at this
    exact absurd this (by simp; omega)
  have hcover : ∅ ∪ order.toFinset = Finset.range (frameCount p.length) := by
    ext j
    rw [Finset.empty_union, List.mem_toFinset, horder.mem_iff, List.mem_range, Finset.mem_range]
  obtain ⟨init, last, hinit, houts⟩ := hknow.run hK hp hr.wf (Nat.lt_succ_of_le hcard) hne
    (horder.nodup_iff.mpr List.nodup_range) (fun _ _ => Finset.notMem_empty _) hcover hlast hframes
  have hmem : last ∈ framesFor K log := by
    rw [hinit]
    simp
  have hfrag : ∃ i, IsFragment K p i last := by
    obtain ⟨i, hi⟩ := List.mem_iff_getElem?.mp hmem
    have hlen := hframes.length_eq
    have hlt := (List.getElem?_eq_some_iff.mp hi).1
    refine ⟨order[i], ?_⟩
    have := (List.forall₂_iff_get.mp hframes).2 i (by omega) hlt
    rw [(List.getElem?_eq_some_iff.mp hi).2.symm]
    exact this
  obtain ⟨i, hi⟩ := hfrag
  exact ⟨init, last, hinit, hi.pgn, hi.src, houts⟩

/-- Frames 2, 0 and 1 of a payload of fourteen bytes, with a frame of another source
between them. -/
def shuffledLog (K : FastId) (p : List UInt8) : Log :=
  [(fragmentFrame K p 2, .Fast), (fragmentFrame (K.1, K.2.1 + 1, K.2.2) p 0, .Fast),
    (fragmentFrame K p 0, .Fast), (fragmentFrame K p 1, .Fast)]

theorem reassembly_order_independent_shuffled :
    ∃ init last,
      framesFor (127489, 16, 0x20) (shuffledLog (127489, 16, 0x20) (List.replicate 14 7)) =
        init ++ [last] ∧ last.pgn = 127489 ∧ last.src = 16 ∧
      outputsFor new (127489, 16, 0x20)
          (shuffledLog (127489, 16, 0x20) (List.replicate 14 7)) =
        init.map (fun _ => .Partial) ++ [.Complete { last with data := List.replicate 14 7 }] := by
  have hframes : framesFor (127489, 16, 0x20)
      (shuffledLog (127489, 16, 0x20) (List.replicate 14 7)) =
      [2, 0, 1].map (fragmentFrame (127489, 16, 0x20) (List.replicate 14 7)) := by decide
  have horder : List.Forall₂ (IsFragment (127489, 16, 0x20) (List.replicate 14 7)) [2, 0, 1]
      (framesFor (127489, 16, 0x20) (shuffledLog (127489, 16, 0x20) (List.replicate 14 7))) := by
    rw [hframes, List.forall₂_map_right_iff, List.forall₂_same]
    exact fun i _ => fragmentFrame_isFragment _ _ i
  exact reassembly_order_independent ⟨[], rfl⟩ ⟨by decide, by decide, by decide⟩ (by decide)
    (by decide) (by decide) (by decide) horder (by decide)

end Reassembler

end Canboat
