import Mathlib.Data.List.Basic

/-!
# Round robin

A ring of slots. The first slot that is due is served, and the ring is turned behind it. A slot
that is due keeps its place before the slots behind it, so these wait until it is served.
-/

namespace Canboat.RoundRobin

variable {α : Type} {due : α → Bool} {ring turned : List α} {x e d : α}

/-- The slot is the first that is due, and the turned ring begins behind it. -/
def Serves (due : α → Bool) (ring : List α) (x : α) (turned : List α) : Prop :=
  ∃ skipped rest, ring = skipped ++ x :: rest ∧ (∀ y ∈ skipped, due y = false) ∧
    due x = true ∧ turned = rest ++ (skipped ++ [x])

theorem serves_of_find? (h : ring.find? due = some x) : ∃ turned, Serves due ring x turned := by
  obtain ⟨hx, skipped, rest, hring, hskipped⟩ := List.find?_eq_some_iff_append.mp h
  refine ⟨_, skipped, rest, hring, ?_, hx, rfl⟩
  intro y hy
  simpa using hskipped y hy

/-- Whoever is in the ring is before the one that was served. -/
theorem Serves.before_served (h : Serves due ring x turned) (he : e ∈ ring) (hne : e ≠ x) :
    [e, x].Sublist turned := by
  obtain ⟨skipped, rest, rfl, -, -, rfl⟩ := h
  have hmem : e ∈ rest ++ skipped := by
    rw [List.mem_append, List.mem_cons] at he
    rw [List.mem_append]
    rcases he with he | rfl | he
    · exact Or.inr he
    · exact absurd rfl hne
    · exact Or.inl he
  rw [← List.append_assoc]
  exact List.Sublist.append (List.singleton_sublist.mpr hmem) (List.Sublist.refl [x])

/-- The pair is behind the slot that is served, where its first slot is due. -/
theorem Serves.pair_behind {skipped rest : List α} (hskipped : ∀ y ∈ skipped, due y = false)
    (hdue : due e = true) (hne : e ≠ x) (h : [e, d].Sublist (skipped ++ x :: rest)) :
    [e, d].Sublist rest := by
  induction skipped with
  | nil =>
      cases h with
      | cons _ h => exact h
      | cons_cons _ h => exact absurd rfl hne
  | cons y ys ih =>
      have htail : ∀ z ∈ ys, due z = false := fun z hz => hskipped z (List.mem_cons_of_mem y hz)
      cases h with
      | cons _ h => exact ih htail h
      | cons_cons _ h =>
          have hy := hskipped e List.mem_cons_self
          rw [hdue] at hy
          cases hy

theorem Serves.before (h : Serves due ring x turned) (hdue : due e = true) (hne : e ≠ x)
    (hbefore : [e, d].Sublist ring) : [e, d].Sublist turned := by
  obtain ⟨skipped, rest, rfl, hskipped, -, rfl⟩ := h
  have hrest := Serves.pair_behind hskipped hdue hne hbefore
  exact hrest.trans (List.sublist_append_left rest _)

/-- A slot behind one that is due is not served. -/
theorem Serves.ne_of_before (h : Serves due ring x turned) (hnodup : ring.Nodup)
    (hdue : due e = true) (hne : e ≠ x) (hbefore : [e, d].Sublist ring) : x ≠ d := by
  obtain ⟨skipped, rest, rfl, hskipped, -, rfl⟩ := h
  have hrest := Serves.pair_behind hskipped hdue hne hbefore
  have hd : d ∈ rest := hrest.subset (List.mem_cons_of_mem e List.mem_cons_self)
  rintro rfl
  exact (List.nodup_cons.mp (List.nodup_append.mp hnodup).2.1).1 hd

end Canboat.RoundRobin
