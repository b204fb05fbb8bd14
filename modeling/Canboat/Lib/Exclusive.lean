import Mathlib.Logic.Relation
import Mathlib.Data.Set.Basic

/-!
# Exclusive holding by announcement

Nodes hold at most one resource each and tell one another by messages, which
may be delayed and reordered. Whenever a node takes a resource it announces
this to everyone, and a message is consumed only by a node that the message
does not concern, or that answers it by announcing anew.

Under these rules two nodes never hold one resource unnoticed: a message about
it is on its way between the two. Once all messages have been delivered, what
the nodes hold is pairwise distinct.
-/

namespace Exclusive

variable {ι α : Type*}

/-- What each node holds, and the messages (sender, recipient, resource) in flight. -/
structure State (ι α : Type*) where
  holds : ι → Option α
  inFlight : Set (ι × ι × α)

/-- A step of node `i`. The others neither move nor lose a message; node `i` ends up with
nothing, or with a resource announced to every holder of it, or it keeps what it had and
loses no message about it. -/
structure Step (i : ι) (s s' : State ι α) : Prop where
  others : ∀ j, j ≠ i → s'.holds j = s.holds j
  kept : ∀ k j a, j ≠ i → (k, j, a) ∈ s.inFlight → (k, j, a) ∈ s'.inFlight
  own : s'.holds i = none ∨
    (∀ a j, s'.holds i = some a → j ≠ i → s'.holds j = some a → (i, j, a) ∈ s'.inFlight) ∨
    (s'.holds i = s.holds i ∧
      ∀ k a, k ≠ i → s.holds i = some a → (k, i, a) ∈ s.inFlight → (k, i, a) ∈ s'.inFlight)

/-- Two holders of one resource are about to hear of each other. -/
def Noticed (s : State ι α) : Prop :=
  ∀ i j a, i ≠ j → s.holds i = some a → s.holds j = some a →
    (i, j, a) ∈ s.inFlight ∨ (j, i, a) ∈ s.inFlight

/-- **Step.** -/
theorem Noticed.step {i : ι} {s s' : State ι α} (h : Noticed s) (hs : Step i s s') :
    Noticed s' := by
  -- by symmetry it is enough to look at pairs whose first node is the one that moved
  have hown : ∀ j a, j ≠ i → s'.holds i = some a → s'.holds j = some a →
      (i, j, a) ∈ s'.inFlight ∨ (j, i, a) ∈ s'.inFlight := by
    intro j a hji hi hj
    rcases hs.own with hnone | hann | ⟨hsame, hmsgs⟩
    · rw [hnone] at hi
      cases hi
    · exact Or.inl (hann a j hi hji hj)
    · rw [hsame] at hi
      rw [hs.others j hji] at hj
      rcases h i j a hji.symm hi hj with hm | hm
      · exact Or.inl (hs.kept i j a hji hm)
      · exact Or.inr (hmsgs j a hji hi hm)
  intro j k a hjk hj hk
  by_cases hji : j = i
  · subst hji
    exact hown k a hjk.symm hj hk
  · by_cases hki : k = i
    · subst hki
      exact (hown j a hji hk hj).symm
    · rw [hs.others j hji] at hj
      rw [hs.others k hki] at hk
      rcases h j k a hjk hj hk with hm | hm
      · exact Or.inl (hs.kept j k a hki hm)
      · exact Or.inr (hs.kept k j a hji hm)

/-- **Run.** -/
theorem Noticed.run {s s' : State ι α} (h : Noticed s)
    (hrun : Relation.ReflTransGen (fun s s' => ∃ i, Step i s s') s s') : Noticed s' := by
  induction hrun with
  | refl => exact h
  | tail _ hstep ih =>
      obtain ⟨i, hi⟩ := hstep
      exact ih.step hi

/-- With no message in flight, what the nodes hold is pairwise distinct. -/
theorem Noticed.distinct {s : State ι α} (h : Noticed s) (hquiet : s.inFlight = ∅) {i j : ι}
    {a : α} (hi : s.holds i = some a) (hj : s.holds j = some a) : i = j := by
  by_contra hij
  rcases h i j a hij hi hj with hm | hm
  · rw [hquiet] at hm
    exact hm
  · rw [hquiet] at hm
    exact hm

end Exclusive
