import Mathlib.Data.List.Basic

/-!
# Byte buffers overwritten in place

`overwrite l off chunk` is the buffer `l` with `chunk` copied over it from
position `off` on: the slice assignment `l[off..off + chunk.len()] = chunk` of
an imperative program. The length never changes; what of `chunk` would fall
past the end is dropped, so a caller that never runs off the end reads it as
the exact copy.
-/

namespace Buffer

variable {α : Type*}

def overwrite (l : List α) (off : ℕ) (chunk : List α) : List α :=
  l.mapIdx fun i x => if off ≤ i then chunk.getD (i - off) x else x

@[simp] theorem length_overwrite (l : List α) (off : ℕ) (chunk : List α) :
    (overwrite l off chunk).length = l.length := by
  simp [overwrite]

theorem getElem?_overwrite (l : List α) (off : ℕ) (chunk : List α) (i : ℕ) :
    (overwrite l off chunk)[i]? =
      l[i]?.map fun x => if off ≤ i then chunk.getD (i - off) x else x := by
  simp [overwrite, List.getElem?_mapIdx]

/-- Outside the copied range the buffer is untouched. -/
theorem getElem?_overwrite_of_outside {l chunk : List α} {off i : ℕ}
    (h : i < off ∨ off + chunk.length ≤ i) :
    (overwrite l off chunk)[i]? = l[i]? := by
  rw [getElem?_overwrite]
  rcases h with h | h
  · simp [show ¬ off ≤ i by omega]
  · have hnone : chunk[i - off]? = none := List.getElem?_eq_none (by omega)
    simp [List.getD, hnone]

/-- Inside the copied range the buffer reads the chunk. -/
theorem getElem?_overwrite_of_inside {l chunk : List α} {off i : ℕ}
    (hlo : off ≤ i) (hhi : i < off + chunk.length) (hlen : i < l.length) :
    (overwrite l off chunk)[i]? = chunk[i - off]? := by
  have hc : i - off < chunk.length := by omega
  rw [getElem?_overwrite, List.getElem?_eq_getElem hlen, List.getElem?_eq_getElem hc]
  simp [hlo, List.getD, List.getElem?_eq_getElem hc]

/-- Copying over the front of the second part of a buffer. -/
theorem overwrite_append {a b chunk : List α} (h : chunk.length ≤ b.length) :
    overwrite (a ++ b) a.length chunk = a ++ (chunk ++ b.drop chunk.length) := by
  apply List.ext_getElem?
  intro i
  rcases Nat.lt_or_ge i a.length with hlt | hge
  · rw [getElem?_overwrite_of_outside (Or.inl hlt), List.getElem?_append_left hlt,
      List.getElem?_append_left hlt]
  · rw [List.getElem?_append_right hge]
    rcases Nat.lt_or_ge (i - a.length) chunk.length with hc | hc
    · rw [getElem?_overwrite_of_inside hge (by omega) (by rw [List.length_append]; omega),
        List.getElem?_append_left hc]
    · rw [getElem?_overwrite_of_outside (Or.inr (by omega)), List.getElem?_append_right hge,
        List.getElem?_append_right hc, List.getElem?_drop]
      congr 1
      omega

/-- Equal-sized blocks written one after the other: position `k` lies in block
`k / c`, at `k % c`. -/
theorem getElem?_flatMap_blocks {c n k : ℕ} {f : ℕ → List α}
    (hlen : ∀ i, i < n → (f i).length = c) (hk : k < n * c) :
    ((List.range n).flatMap f)[k]? = (f (k / c))[k % c]? := by
  induction n with
  | zero => exact absurd hk (by simp)
  | succ n ih =>
      have hprev : ((List.range n).flatMap f).length = n * c := by
        clear ih hk
        induction n with
        | zero => simp
        | succ n ih =>
            rw [List.range_succ, List.flatMap_append, List.length_append,
              ih fun i hi => hlen i (by omega), List.flatMap_singleton, hlen n (by omega),
              Nat.succ_mul]
      rw [List.range_succ, List.flatMap_append, List.flatMap_singleton]
      rcases Nat.lt_or_ge k (n * c) with hlt | hge
      · rw [List.getElem?_append_left (by omega)]
        exact ih (fun i hi => hlen i (by omega)) hlt
      · have hdiv : k / c = n := by
          rw [Nat.succ_mul] at hk
          exact Nat.div_eq_of_lt_le hge (by rw [Nat.succ_mul]; exact hk)
        have hmod : k % c = k - n * c := by
          have := Nat.div_add_mod k c
          rw [hdiv, Nat.mul_comm] at this
          omega
        rw [List.getElem?_append_right (by omega), hprev, hdiv, hmod]

end Buffer
