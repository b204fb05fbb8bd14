import Mathlib.Data.List.Induction
import Mathlib.Data.Nat.Notation
import Mathlib.Logic.Function.Basic

/-!
# A gate

For each key it lets one through, and then none until the gap is over. Who comes to it comes at a
time, with a key or past the gate.
-/

namespace Canboat.Gate

variable {K : Type} [DecidableEq K] (gap : ℕ)

/-- Nothing was let through within the gap. -/
def passes (slots : K → Option ℕ) (now : ℕ) (k : K) : Bool :=
  !(slots k).any fun t => now - t < gap

/-- Who passes is taken down. -/
def step (slots : K → Option ℕ) (call : ℕ × Option K) : K → Option ℕ :=
  match call.2 with
  | none => slots
  | some k => if passes gap slots call.1 k then Function.update slots k (some call.1) else slots

def after (calls : List (ℕ × Option K)) : K → Option ℕ := calls.foldl (step gap) fun _ => none

variable {gap} {slots : K → Option ℕ} {calls first rest : List (ℕ × Option K)} {now t s : ℕ} {k : K}
  {call : ℕ × Option K}

theorem after_append : after gap (calls ++ [call]) = step gap (after gap calls) call := by
  rw [after, List.foldl_append]
  rfl

omit [DecidableEq K] in
theorem passes_iff : passes gap slots now k = true ↔ ∀ t, slots k = some t → gap ≤ now - t := by
  rw [passes, Bool.not_eq_true']
  cases hslot : slots k with
  | none => exact iff_of_true rfl nofun
  | some t =>
      rw [Option.any_some, decide_eq_false_iff_not, Nat.not_lt]
      constructor
      · rintro h t' ht'
        cases ht'
        exact h
      · exact fun h => h t rfl

/-- A slot is as it was, or it holds the time of the call that passed it. -/
theorem step_cases (slots : K → Option ℕ) (call : ℕ × Option K) (k : K) :
    step gap slots call k = slots k ∨
      call.2 = some k ∧ passes gap slots call.1 k = true ∧ step gap slots call k = some call.1 := by
  rcases call with ⟨t, _ | k'⟩
  · exact Or.inl rfl
  · rw [step]
    by_cases hpass : passes gap slots t k' = true
    · simp only [if_pos hpass]
      by_cases hk : k = k'
      · subst hk
        exact Or.inr ⟨rfl, hpass, Function.update_self ..⟩
      · exact Or.inl (Function.update_of_ne hk ..)
    · refine Or.inl ?_
      simp only [if_neg hpass]

/-- What a slot holds is the time of one who passed. -/
theorem passed_of_slot (h : after gap calls k = some s) :
    ∃ first rest, calls = first ++ (s, some k) :: rest ∧ passes gap (after gap first) s k = true := by
  induction calls using List.reverseRecOn with
  | nil => cases h
  | append_singleton calls call ih =>
      rw [after_append] at h
      rcases step_cases (after gap calls) call k with heq | ⟨hkey, hpass, heq⟩
      · rw [heq] at h
        obtain ⟨first, rest, rfl, hfirst⟩ := ih h
        exact ⟨first, rest ++ [call], by rw [List.append_assoc, List.cons_append], hfirst⟩
      · rw [heq] at h
        cases h
        rcases call with ⟨t, key⟩
        cases hkey
        exact ⟨calls, [], rfl, hpass⟩

/-- From the time that one has passed the slot is not earlier. -/
theorem slot_of_passed (hclock : (first ++ (t, some k) :: rest).Pairwise fun a b => a.1 ≤ b.1)
    (hpass : passes gap (after gap first) t k = true) :
    ∃ s, after gap (first ++ (t, some k) :: rest) k = some s ∧ t ≤ s := by
  induction rest using List.reverseRecOn with
  | nil =>
      rw [after_append, step]
      simp only [if_pos hpass, Function.update_self]
      exact ⟨t, rfl, Nat.le_refl t⟩
  | append_singleton rest call ih =>
      rw [← List.cons_append, ← List.append_assoc] at hclock ⊢
      rw [List.pairwise_append] at hclock
      obtain ⟨s, hs, hle⟩ := ih hclock.1
      rw [after_append]
      rcases step_cases (after gap (first ++ (t, some k) :: rest)) call k with heq | ⟨-, -, heq⟩
      · exact ⟨s, heq.trans hs, hle⟩
      · refine ⟨call.1, heq, ?_⟩
        have hmem : (t, some k) ∈ first ++ (t, some k) :: rest :=
          List.mem_append_right _ List.mem_cons_self
        exact hclock.2.2 (t, some k) hmem call List.mem_cons_self

/-- Two who pass with one key are the gap apart. -/
theorem gap_le (hclock : (first ++ (t, some k) :: rest).Pairwise fun a b => a.1 ≤ b.1)
    (hpass : passes gap (after gap first) t k = true)
    (hnow : passes gap (after gap (first ++ (t, some k) :: rest)) now k = true) :
    gap ≤ now - t := by
  obtain ⟨s, hs, hle⟩ := slot_of_passed hclock hpass
  exact Nat.le_trans (passes_iff.mp hnow s hs) (Nat.sub_le_sub_left hle now)

/-- Who does not pass comes within the gap after one who did. -/
theorem blocked (h : passes gap (after gap calls) now k = false) :
    ∃ first t rest, calls = first ++ (t, some k) :: rest ∧
      passes gap (after gap first) t k = true ∧ now - t < gap := by
  have hslot : ∃ s, after gap calls k = some s ∧ now - s < gap := by
    by_contra hnot
    have hpass : passes gap (after gap calls) now k = true := by
      rw [passes_iff]
      intro s hs
      by_contra hlt
      exact hnot ⟨s, hs, Nat.not_le.mp hlt⟩
    rw [h] at hpass
    cases hpass
  obtain ⟨s, hs, hlt⟩ := hslot
  obtain ⟨first, rest, heq, hpass⟩ := passed_of_slot hs
  exact ⟨first, s, rest, heq, hpass, hlt⟩

/-- Whoever comes within the gap after one who passed does not. -/
theorem not_passes (hclock : (first ++ (t, some k) :: rest).Pairwise fun a b => a.1 ≤ b.1)
    (hpass : passes gap (after gap first) t k = true) (hlt : now - t < gap) :
    passes gap (after gap (first ++ (t, some k) :: rest)) now k = false := by
  by_contra hnot
  exact absurd (gap_le hclock hpass (Bool.not_eq_false _ ▸ hnot)) (Nat.not_le.mpr hlt)

end Canboat.Gate
