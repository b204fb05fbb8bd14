import Mathlib.Data.Finset.Card
import Mathlib.Data.List.Basic
import Mathlib.Tactic.Tauto

/-!
# Fixed tables of keyed slots with oldest-out eviction

A table is a list of slots. A slot is either free or in use under a key, and
carries the age at which it was claimed. Looking a key up takes the first slot
in use under it; claiming a slot for a new key takes the first free slot, and
the oldest slot in use when none is free.

As long as no two slots in use share a key (`KeyUnique`) the table is a finite
map from keys to slots (`lookup`). The lemmas below say what each update does
to that map, and `ne_key_of_victim` bounds how long an entry survives: while
fewer than `length - 1` other keys are at least as young, it is not evicted.
-/

namespace SlotTable

variable {α κ : Type*}

/-- How a slot is read: whether it is in use, its key and its age. -/
structure View (α κ : Type*) where
  used : α → Bool
  key : α → κ
  age : α → ℕ

namespace View

variable (V : View α κ)

/-- The slot a new key takes: the first free one, else the oldest. -/
def victim (l : List α) : Option ℕ :=
  match l.findIdx? fun s => !V.used s with
  | some i => some i
  | none => l.minIdxOn? V.age

/-- No two slots in use share a key. -/
def KeyUnique (l : List α) : Prop :=
  ∀ (i j : ℕ) (s t : α), l[i]? = some s → l[j]? = some t → V.used s = true → V.used t = true →
    V.key s = V.key t → i = j

variable {V} {l : List α} {k : κ} {i : ℕ} {s t : α}

/-! ## Unique keys and the victim slot -/

/-- Replacing slot `i` keeps keys unique when no other slot in use has the new
key. -/
theorem KeyUnique.set (hu : V.KeyUnique l)
    (hnew : ∀ (j : ℕ) (t : α), l[j]? = some t → V.used t = true → V.used s = true →
      V.key t = V.key s → j = i) :
    V.KeyUnique (l.set i s) := by
  intro a b x y ha hb hx hy hkey
  rw [List.getElem?_set] at ha hb
  by_cases hia : i = a
  · by_cases hib : i = b
    · exact hia.symm.trans hib
    · simp only [hia, if_true] at ha
      rw [if_neg hib] at hb
      split at ha
      · cases ha
        exact (hia.symm.trans (hnew b y hb hy hx hkey.symm).symm)
      · cases ha
  · rw [if_neg hia] at ha
    by_cases hib : i = b
    · simp only [hib, if_true] at hb
      split at hb
      · cases hb
        exact (hnew a x ha hx hy hkey).trans hib
      · cases hb
    · rw [if_neg hib] at hb
      exact hu a b x y ha hb hx hy hkey

theorem KeyUnique.replicate {n : ℕ} (hfree : V.used s = false) :
    V.KeyUnique (List.replicate n s) := by
  intro i j x y hx _ hux
  rw [List.getElem?_replicate] at hx
  split at hx
  · cases hx
    rw [hfree] at hux
    exact absurd hux (by simp)
  · cases hx

theorem victim_isSome (hl : l ≠ []) : ∃ i, V.victim l = some i ∧ i < l.length := by
  unfold victim
  split
  · rename_i i hi
    exact ⟨i, rfl, (List.findIdx?_eq_some_iff_getElem.mp hi).1⟩
  · cases l with
    | nil => exact absurd rfl hl
    | cons x xs =>
        exact ⟨(x :: xs).minIdxOn V.age (by simp), by simp [List.minIdxOn?],
          List.minIdxOn_lt_length (by simp)⟩

theorem minIdxOn?_map {β : Type*} (g : β → α) (age : α → ℕ) (l : List β) :
    (l.map g).minIdxOn? age = l.minIdxOn? (age ∘ g) := by
  by_cases hl : l = []
  · rw [hl]
    rfl
  · have hmap : l.map g ≠ [] := fun h => hl (List.map_eq_nil_iff.mp h)
    rw [List.minIdxOn?_eq_some_minIdxOn hl, List.minIdxOn?_eq_some_minIdxOn hmap]
    congr 1
    obtain ⟨hi, hle, hlt⟩ := (List.minIdxOn_eq_iff hl).mp (Eq.refl (l.minIdxOn (age ∘ g) hl))
    rw [List.minIdxOn_eq_iff]
    refine ⟨by rwa [List.length_map], fun j hj => ?_, fun j hj => ?_⟩
    · rw [List.getElem_map, List.getElem_map]
      exact hle j (by rwa [List.length_map] at hj)
    · rw [List.getElem_map, List.getElem_map]
      exact hlt j hj

/-- The victim is told from the uses and the ages. -/
theorem victim_map {β ι : Type*} {V : View α κ} {W : View β ι} {g : β → α}
    (hused : ∀ b, V.used (g b) = W.used b) (hage : ∀ b, V.age (g b) = W.age b) (l : List β) : V.victim (l.map g) = W.victim l := by
  have hfree : (fun s => !V.used s) ∘ g = fun s => !W.used s :=
    funext fun b => congrArg not (hused b)
  have hages : V.age ∘ g = W.age := funext hage
  rw [victim, victim, List.findIdx?_map, hfree, minIdxOn?_map, hages]

/-- A victim that is in use is the oldest slot of a full table. -/
theorem victim_oldest (h : V.victim l = some i) (hi : l[i]? = some s)
    (hused : V.used s = true) : ∀ t ∈ l, V.used t = true ∧ V.age s ≤ V.age t := by
  unfold victim at h
  split at h
  · rename_i j hj
    cases h
    obtain ⟨hlt, hp, -⟩ := List.findIdx?_eq_some_iff_getElem.mp hj
    rw [List.getElem?_eq_getElem hlt, Option.some.injEq] at hi
    subst hi
    simp [hused] at hp
  · rename_i hnone
    intro t ht
    refine ⟨by simpa using List.findIdx?_eq_none_iff.mp hnone t ht, ?_⟩
    obtain ⟨j, hj, rfl⟩ := List.mem_iff_getElem.mp ht
    cases l with
    | nil => simp at hj
    | cons x xs =>
        simp only [List.minIdxOn?, Option.some.injEq] at h
        subst h
        rw [List.getElem?_eq_getElem (List.minIdxOn_lt_length (by simp)), Option.some.injEq,
          List.getElem_minIdxOn] at hi
        subst hi
        exact List.apply_minOn_le_of_mem (List.getElem_mem hj)

variable [DecidableEq κ] (V)

/-! ## The table as a map -/

def holds (k : κ) (s : α) : Bool := V.used s && decide (V.key s = k)

/-- The slot in use under `k`. -/
def find (k : κ) (l : List α) : Option ℕ := l.findIdx? (V.holds k)

/-- The table as a map. -/
def lookup (k : κ) (l : List α) : Option α := l.find? (V.holds k)

variable {V}

theorem holds_iff : V.holds k s = true ↔ V.used s = true ∧ V.key s = k := by
  simp [holds]

/-! ## Looking up -/

theorem lookup_of_find (h : V.find k l = some i) :
    ∃ s, l[i]? = some s ∧ V.used s = true ∧ V.key s = k ∧ V.lookup k l = some s := by
  obtain ⟨hi, hp, hmin⟩ := List.findIdx?_eq_some_iff_getElem.mp h
  refine ⟨l[i], List.getElem?_eq_getElem hi, (holds_iff.mp hp).1, (holds_iff.mp hp).2, ?_⟩
  exact List.find?_eq_some_iff_getElem.mpr
    ⟨hp, i, hi, rfl, fun j hj => by simpa using hmin j hj⟩

theorem find_eq_none : V.find k l = none ↔ V.lookup k l = none := by
  simp [find, lookup, List.findIdx?_eq_none_iff, List.find?_eq_none]

theorem lookup_eq_none : V.lookup k l = none ↔
    ∀ s ∈ l, V.used s = true → V.key s ≠ k := by
  simp [lookup, List.find?_eq_none, holds]

/-- With unique keys, the slot in use under `k` is the one found. -/
theorem lookup_eq_some (hu : V.KeyUnique l) : V.lookup k l = some s ↔
    s ∈ l ∧ V.used s = true ∧ V.key s = k := by
  constructor
  · intro h
    exact ⟨List.mem_of_find?_eq_some h, holds_iff.mp (List.find?_some h)⟩
  · rintro ⟨hmem, hused, hkey⟩
    obtain ⟨j, hj⟩ := List.mem_iff_getElem?.mp hmem
    cases hf : V.find k l with
    | none =>
        have := lookup_eq_none.mp (find_eq_none.mp hf) s hmem hused
        exact absurd hkey this
    | some i =>
        obtain ⟨t, ht, htused, htkey, hl⟩ := lookup_of_find hf
        have hij := hu i j t s ht hj htused hused (htkey.trans hkey.symm)
        subst hij
        rw [hl, ← ht, hj]

theorem lookup_mem (h : V.lookup k l = some s) : s ∈ l :=
  List.mem_of_find?_eq_some h

theorem lookup_holds (h : V.lookup k l = some s) : V.used s = true ∧ V.key s = k :=
  holds_iff.mp (List.find?_some h)

/-- The keys some slot is in use under. -/
def keys (l : List α) : Finset κ := ((l.filter V.used).map V.key).toFinset

theorem mem_keys : k ∈ V.keys l ↔ V.lookup k l ≠ none := by
  rw [ne_eq, lookup_eq_none]
  simp only [keys, List.mem_toFinset, List.mem_map, List.mem_filter]
  constructor
  · rintro ⟨s, ⟨hmem, hused⟩, hkey⟩ hnone
    exact hnone s hmem hused hkey
  · intro h
    by_contra hno
    exact h fun s hmem hused hkey => hno ⟨s, ⟨hmem, hused⟩, hkey⟩

/-! ## Updating -/

omit [DecidableEq κ] in
theorem mem_set_iff (hi : i < l.length) :
    t ∈ l.set i s ↔ t = s ∨ ∃ j, j ≠ i ∧ l[j]? = some t := by
  rw [List.mem_iff_getElem?]
  constructor
  · rintro ⟨j, hj⟩
    rw [List.getElem?_set] at hj
    by_cases hij : i = j
    · subst hij
      simp only [if_true, hi, Option.some.injEq] at hj
      exact Or.inl hj.symm
    · rw [if_neg hij] at hj
      exact Or.inr ⟨j, Ne.symm hij, hj⟩
  · rintro (rfl | ⟨j, hne, hj⟩)
    · exact ⟨i, by simp [hi]⟩
    · exact ⟨j, by rw [List.getElem?_set, if_neg (Ne.symm hne)]; exact hj⟩

/-- Writing a slot `s` over slot `i`: under the new key the map holds `s` (if it
is in use), a different key of the old slot is forgotten, and every other key
reads as before. -/
theorem lookup_set (hu : V.KeyUnique l) (hu' : V.KeyUnique (l.set i s))
    (hold : l[i]? = some t) :
    V.lookup k (l.set i s) =
      if V.used s = true ∧ V.key s = k then some s
      else if V.used t = true ∧ V.key t = k then none
      else V.lookup k l := by
  obtain ⟨hi, -⟩ := List.getElem?_eq_some_iff.mp hold
  split
  · rename_i hs
    exact (lookup_eq_some hu').mpr ⟨(mem_set_iff hi).mpr (Or.inl rfl), hs⟩
  · rename_i hs
    split
    · rename_i ht
      refine lookup_eq_none.mpr fun x hx hux hkx => ?_
      rcases (mem_set_iff hi).mp hx with rfl | ⟨j, hne, hj⟩
      · exact hs ⟨hux, hkx⟩
      · exact hne (hu j i x t hj hold hux ht.1 (hkx.trans ht.2.symm))
    · rename_i ht
      cases hl : V.lookup k l with
      | none =>
          refine lookup_eq_none.mpr fun x hx hux hkx => ?_
          rcases (mem_set_iff hi).mp hx with rfl | ⟨j, -, hj⟩
          · exact hs ⟨hux, hkx⟩
          · exact lookup_eq_none.mp hl x (List.mem_of_getElem? hj) hux hkx
      | some x =>
          obtain ⟨hmem, hux, hkx⟩ := (lookup_eq_some hu).mp hl
          obtain ⟨j, hj⟩ := List.mem_iff_getElem?.mp hmem
          refine (lookup_eq_some hu').mpr ⟨(mem_set_iff hi).mpr (Or.inr ⟨j, ?_, hj⟩), hux, hkx⟩
          rintro rfl
          rw [hold, Option.some.injEq] at hj
          exact ht (hj ▸ ⟨hux, hkx⟩)

omit [DecidableEq κ] in
/-- Updating the slot held under `k` in place, or freeing it. -/
theorem KeyUnique.set_held (hu : V.KeyUnique l) (hi : l[i]? = some t) (hut : V.used t = true)
    (hs : V.used s = true → V.key s = V.key t) : V.KeyUnique (l.set i s) :=
  hu.set fun j x hj hux hus hkey => hu j i x t hj hi hux hut (hkey.trans (hs hus))

/-- Claiming a slot for a key that no slot holds. -/
theorem KeyUnique.set_new (hu : V.KeyUnique l) (hf : V.lookup k l = none)
    (hs : V.key s = k) : V.KeyUnique (l.set i s) :=
  hu.set fun _ t hj hut _ hkey =>
    absurd (hkey.trans hs) (lookup_eq_none.mp hf t (List.mem_of_getElem? hj) hut)

theorem find_lt (h : V.find k l = some i) : i < l.length :=
  (List.findIdx?_eq_some_iff_getElem.mp h).1

/-- **Survival bound.** Let `s` be held under `k`, and let every other key that
is at least as young lie in `N`. If `N` leaves a slot over besides the one of
`k`, claiming a slot does not evict `k`. -/
theorem ne_key_of_victim (hu : V.KeyUnique l) (hk : V.lookup k l = some s)
    {N : Finset κ}
    (hN : ∀ t ∈ l, V.used t = true → V.key t ≠ k → V.age s ≤ V.age t → V.key t ∈ N)
    (hcard : N.card + 1 < l.length) (hv : V.victim l = some i) (hi : l[i]? = some t) :
    ¬ (V.used t = true ∧ V.key t = k) := by
  rintro ⟨hut, hkt⟩
  have hall := victim_oldest hv hi hut
  have hts : t = s := by
    have := (lookup_eq_some hu).mpr ⟨List.mem_of_getElem? hi, hut, hkt⟩
    rw [hk, Option.some.injEq] at this
    exact this.symm
  -- every slot of the full table is keyed in `insert k N`, injectively
  have hnodup : (l.map V.key).Nodup := by
    rw [List.nodup_iff_injective_get]
    intro a b hab
    simp only [List.get_eq_getElem, List.getElem_map] at hab
    have ha : (a : ℕ) < l.length := by simpa using a.isLt
    have hb : (b : ℕ) < l.length := by simpa using b.isLt
    exact Fin.ext (hu a b _ _ (List.getElem?_eq_getElem ha) (List.getElem?_eq_getElem hb)
      (hall _ (List.getElem_mem ha)).1 (hall _ (List.getElem_mem hb)).1 hab)
  have hsub : (l.map V.key).toFinset ⊆ insert k N := by
    intro x hx
    obtain ⟨y, hy, rfl⟩ := List.mem_map.mp (List.mem_toFinset.mp hx)
    by_cases hyk : V.key y = k
    · exact Finset.mem_insert.mpr (Or.inl hyk)
    · refine Finset.mem_insert.mpr (Or.inr (hN y hy (hall y hy).1 hyk ?_))
      exact hts ▸ (hall y hy).2
  have hle := Finset.card_le_card hsub
  rw [List.toFinset_card_of_nodup hnodup, List.length_map] at hle
  have := Finset.card_insert_le k N
  omega

/-! ## Room -/

omit [DecidableEq κ] in
/-- A table with room evicts no slot. -/
theorem victim_unused (hroom : ∃ s ∈ l, V.used s = false) (hv : V.victim l = some i)
    (hi : l[i]? = some t) : V.used t = false := by
  unfold victim at hv
  split at hv
  · rename_i j hj
    cases hv
    obtain ⟨hlt, hp, -⟩ := List.findIdx?_eq_some_iff_getElem.mp hj
    rw [List.getElem?_eq_getElem hlt, Option.some.injEq] at hi
    rw [hi] at hp
    simpa using hp
  · rename_i hnone
    obtain ⟨s, hs, hused⟩ := hroom
    have hfull := List.findIdx?_eq_none_iff.mp hnone s hs
    rw [hused] at hfull
    cases hfull

/-- There is room as long as fewer keys than slots are in use. -/
theorem exists_unused_iff (hu : V.KeyUnique l) :
    (∃ s ∈ l, V.used s = false) ↔ (V.keys l).card < l.length := by
  constructor
  · rintro ⟨s, hs, hused⟩
    refine Nat.lt_of_le_of_lt (List.toFinset_card_le _) ?_
    rw [List.length_map]
    refine List.length_filter_lt_length_iff_exists.mpr ⟨s, hs, ?_⟩
    rw [hused]
    exact Bool.false_ne_true
  · intro hcard
    by_contra hfull
    push Not at hfull
    have hall : ∀ s ∈ l, V.used s = true := fun s hs => Bool.eq_true_of_not_eq_false (hfull s hs)
    have hnodup : (l.map V.key).Nodup := by
      rw [List.nodup_iff_injective_get]
      intro a b hab
      simp only [List.get_eq_getElem, List.getElem_map] at hab
      have ha : (a : ℕ) < l.length := by simpa using a.isLt
      have hb : (b : ℕ) < l.length := by simpa using b.isLt
      exact Fin.ext (hu a b _ _ (List.getElem?_eq_getElem ha) (List.getElem?_eq_getElem hb)
        (hall _ (List.getElem_mem ha)) (hall _ (List.getElem_mem hb)) hab)
    rw [keys, List.filter_eq_self.mpr hall, List.toFinset_card_of_nodup hnodup,
      List.length_map] at hcard
    exact Nat.lt_irrefl _ hcard

end View

end SlotTable
