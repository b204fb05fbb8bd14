import Mathlib.Data.List.Basic
import Mathlib.Data.Nat.Notation

/-!
# Binary search for a partition point

`partitionPoint p l` is the number of leading elements of `l` that satisfy `p`,
found by halving, for a list on which `p` holds up to some position and nowhere
after it.
-/

namespace BinarySearch

variable {α : Type*}

/-- `p` holds exactly below position `k`. -/
structure Partitioned (p : α → Bool) (l : List α) (k : ℕ) : Prop where
  le : k ≤ l.length
  below : ∀ i x, l[i]? = some x → (p x = true ↔ i < k)

/-- Search in `[lo, hi)`. -/
def search (p : α → Bool) (l : List α) (lo hi : ℕ) : ℕ :=
  if _h : lo < hi then
    let mid := (lo + hi) / 2
    if (l[mid]?.map p).getD false then search p l (mid + 1) hi else search p l lo mid
  else lo
termination_by hi - lo

def partitionPoint (p : α → Bool) (l : List α) : ℕ := search p l 0 l.length

theorem search_eq {p : α → Bool} {l : List α} {k lo hi : ℕ} (h : Partitioned p l k)
    (hlo : lo ≤ k) (hhi : k ≤ hi) (hlen : hi ≤ l.length) : search p l lo hi = k := by
  induction lo, hi using search.induct p l with
  | case1 lo hi hlt mid hp ih =>
      have hmid : mid < l.length := by omega
      rw [search, dif_pos hlt]
      simp only
      rw [if_pos hp]
      rw [List.getElem?_eq_getElem hmid, Option.map_some, Option.getD_some] at hp
      have := (h.below mid _ (List.getElem?_eq_getElem hmid)).mp hp
      exact ih (by omega) hhi hlen
  | case2 lo hi hlt mid hp ih =>
      have hmid : mid < l.length := by omega
      rw [search, dif_pos hlt]
      simp only
      rw [if_neg hp]
      rw [List.getElem?_eq_getElem hmid, Option.map_some, Option.getD_some] at hp
      have := mt (h.below mid _ (List.getElem?_eq_getElem hmid)).mpr hp
      exact ih hlo (by omega) (by omega)
  | case3 lo hi hlt =>
      rw [search, dif_neg hlt]
      omega

/-- The search finds the partition point. -/
theorem partitionPoint_eq {p : α → Bool} {l : List α} {k : ℕ} (h : Partitioned p l k) :
    partitionPoint p l = k :=
  search_eq h (Nat.zero_le k) h.le (Nat.le_refl _)

/-- A predicate that, along the list, never holds again once it has failed partitions the
list into what it filters out and the rest. -/
theorem partitioned_filter {p : α → Bool} {l : List α}
    (hmono : l.Pairwise fun a b => p b = true → p a = true) :
    Partitioned p l (l.filter p).length ∧ l.take (l.filter p).length = l.filter p := by
  induction l with
  | nil =>
      refine ⟨⟨(Nat.le_refl _), ?_⟩, rfl⟩
      intro i x hx
      simp at hx
  | cons a l ih =>
      obtain ⟨hhead, htail⟩ := List.pairwise_cons.mp hmono
      obtain ⟨hpart, htake⟩ := ih htail
      cases ha : p a with
      | true =>
          rw [List.filter_cons_of_pos ha]
          refine ⟨⟨Nat.succ_le_succ hpart.le, ?_⟩, ?_⟩
          · intro i x hx
            cases i with
            | zero =>
                rw [List.getElem?_cons_zero, Option.some.injEq] at hx
                rw [← hx, ha]
                simp
            | succ i =>
                rw [List.getElem?_cons_succ] at hx
                rw [hpart.below i x hx, List.length_cons]
                omega
          · rw [List.length_cons, List.take_succ_cons, htake]
      | false =>
          have hnone : l.filter p = [] := by
            rw [List.filter_eq_nil_iff]
            intro b hb hpb
            rw [hhead b hb hpb] at ha
            cases ha
          rw [List.filter_cons_of_neg (by rw [ha]; exact Bool.false_ne_true), hnone]
          refine ⟨⟨Nat.zero_le _, ?_⟩, rfl⟩
          intro i x hx
          constructor
          · intro hpx
            cases i with
            | zero =>
                rw [List.getElem?_cons_zero, Option.some.injEq] at hx
                rw [← hx, ha] at hpx
                cases hpx
            | succ i =>
                rw [List.getElem?_cons_succ] at hx
                rw [hhead x (List.mem_of_getElem? hx) hpx] at ha
                cases ha
          · intro hi
            exact absurd hi (Nat.not_lt_zero i)

/-- The element before the partition point is the last one that satisfies `p`. -/
theorem getElem?_pred_partitionPoint {p : α → Bool} {l : List α}
    (hmono : l.Pairwise fun a b => p b = true → p a = true) (hne : partitionPoint p l ≠ 0) :
    l[partitionPoint p l - 1]? = (l.filter p).getLast? := by
  obtain ⟨hpart, htake⟩ := partitioned_filter hmono
  have hk := partitionPoint_eq hpart
  rw [hk] at hne ⊢
  rw [← htake, List.getLast?_eq_getElem?, List.length_take, Nat.min_eq_left hpart.le,
    List.getElem?_take_of_lt (by omega)]

theorem filter_eq_nil_of_partitionPoint {p : α → Bool} {l : List α}
    (hmono : l.Pairwise fun a b => p b = true → p a = true) (hz : partitionPoint p l = 0) :
    l.filter p = [] := by
  obtain ⟨hpart, -⟩ := partitioned_filter hmono
  rw [partitionPoint_eq hpart] at hz
  exact List.eq_nil_of_length_eq_zero hz

end BinarySearch
