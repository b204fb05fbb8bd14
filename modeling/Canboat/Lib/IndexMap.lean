import Mathlib.Data.List.Induction
import Mathlib.Data.List.Nodup

/-!
# Insertion-ordered maps

A map that iterates in the order its keys were first inserted. Writing to a key that
is present changes its value and leaves its position.
-/

/-- Key-value pairs in insertion order, no key twice. -/
structure IndexMap (K V : Type*) where
  entries : List (K × V)
  nodup : (entries.map Prod.fst).Nodup

namespace IndexMap

variable {K V : Type*}

def empty : IndexMap K V := ⟨[], List.nodup_nil⟩

def keys (m : IndexMap K V) : List K := m.entries.map Prod.fst

@[simp] theorem keys_empty : (empty : IndexMap K V).keys = [] := rfl

theorem mem_keys {m : IndexMap K V} {k : K} : k ∈ m.keys ↔ ∃ v, (k, v) ∈ m.entries := by
  rw [keys, List.mem_map]
  constructor
  · rintro ⟨⟨k', v⟩, hmem, rfl⟩
    exact ⟨v, hmem⟩
  · rintro ⟨v, hmem⟩
    exact ⟨(k, v), hmem, rfl⟩

/-- A key has one value. -/
theorem value_unique {m : IndexMap K V} {k : K} {v w : V} (hv : (k, v) ∈ m.entries)
    (hw : (k, w) ∈ m.entries) : v = w :=
  congrArg Prod.snd (List.inj_on_of_nodup_map m.nodup hv hw rfl)

section Upsert

variable [DecidableEq K]

def get? (m : IndexMap K V) (k : K) : Option V := m.entries.lookup k

/-- Write `f` of the old value in place, or `f none` at the end. -/
def upsertEntries (k : K) (f : Option V → V) : List (K × V) → List (K × V)
  | [] => [(k, f none)]
  | (k', v) :: l => if k' = k then (k', f (some v)) :: l else (k', v) :: upsertEntries k f l

theorem map_fst_upsertEntries (k : K) (f : Option V → V) (l : List (K × V)) :
    (upsertEntries k f l).map Prod.fst =
      if k ∈ l.map Prod.fst then l.map Prod.fst else l.map Prod.fst ++ [k] := by
  induction l with
  | nil => rfl
  | cons e l ih =>
      obtain ⟨k', v⟩ := e
      rw [upsertEntries]
      by_cases hk : k' = k
      · simp [hk]
      · rw [if_neg hk, List.map_cons, ih]
        by_cases hmem : k ∈ l.map Prod.fst
        · simp [hmem]
        · simp [hmem, Ne.symm hk]

def upsert (m : IndexMap K V) (k : K) (f : Option V → V) : IndexMap K V where
  entries := upsertEntries k f m.entries
  nodup := by
    rw [map_fst_upsertEntries]
    split
    · exact m.nodup
    · rename_i hk
      exact m.nodup.append (List.nodup_singleton k) (List.disjoint_singleton.mpr hk)

def insert (m : IndexMap K V) (k : K) (v : V) : IndexMap K V := m.upsert k fun _ => v

theorem keys_upsert (m : IndexMap K V) (k : K) (f : Option V → V) :
    (m.upsert k f).keys = if k ∈ m.keys then m.keys else m.keys ++ [k] :=
  map_fst_upsertEntries k f m.entries

/-- The other entries are unchanged. -/
theorem mem_upsert_of_ne {m : IndexMap K V} {k k' : K} {f : Option V → V} {v : V}
    (hne : k' ≠ k) : (k', v) ∈ (m.upsert k f).entries ↔ (k', v) ∈ m.entries := by
  change (k', v) ∈ upsertEntries k f m.entries ↔ _
  induction m.entries with
  | nil => simp [upsertEntries, hne]
  | cons e l ih =>
      obtain ⟨k₁, v₁⟩ := e
      rw [upsertEntries]
      by_cases heq : k₁ = k
      · simp [heq, hne]
      · rw [if_neg heq, List.mem_cons, List.mem_cons, ih]

theorem mem_upsertEntries_self (k : K) (f : Option V → V) (l : List (K × V)) :
    (k, f (l.lookup k)) ∈ upsertEntries k f l := by
  induction l with
  | nil => exact List.mem_singleton.mpr rfl
  | cons e l ih =>
      obtain ⟨k', v⟩ := e
      rw [upsertEntries, List.lookup_cons]
      by_cases hk : k' = k
      · rw [if_pos hk, hk, beq_self_eq_true]
        exact List.mem_cons_self
      · rw [if_neg hk, beq_false_of_ne (Ne.symm hk)]
        exact List.mem_cons_of_mem _ ih

/-- The entry written. -/
theorem mem_upsert_self (m : IndexMap K V) (k : K) (f : Option V → V) :
    (k, f (m.get? k)) ∈ (m.upsert k f).entries :=
  mem_upsertEntries_self k f m.entries

theorem mem_insert {m : IndexMap K V} {k k' : K} {v v' : V} :
    (k', v') ∈ (m.insert k v).entries ↔
      (k' = k ∧ v' = v) ∨ (k' ≠ k ∧ (k', v') ∈ m.entries) := by
  by_cases hk : k' = k
  · subst hk
    have hself := m.mem_upsert_self k' fun _ => v
    constructor
    · intro hmem
      exact Or.inl ⟨rfl, value_unique hmem hself⟩
    · rintro (⟨-, rfl⟩ | ⟨hne, -⟩)
      · exact hself
      · exact absurd rfl hne
  · rw [insert, mem_upsert_of_ne hk]
    simp [hk]

end Upsert

/-- Drop the entries that fail the test, keeping the order of the others. -/
def retain (m : IndexMap K V) (p : K → V → Bool) : IndexMap K V where
  entries := m.entries.filter fun e => p e.1 e.2
  nodup := m.nodup.sublist (List.filter_sublist.map _)

theorem mem_retain {m : IndexMap K V} {p : K → V → Bool} {k : K} {v : V} :
    (k, v) ∈ (m.retain p).entries ↔ (k, v) ∈ m.entries ∧ p k v = true :=
  List.mem_filter

theorem keys_retain_sublist (m : IndexMap K V) (p : K → V → Bool) :
    (m.retain p).keys.Sublist m.keys :=
  List.filter_sublist.map _

theorem mem_keys_retain {m : IndexMap K V} {p : K → V → Bool} {k : K} :
    k ∈ (m.retain p).keys ↔ ∃ v, (k, v) ∈ m.entries ∧ p k v = true := by
  simp only [mem_keys, mem_retain]

/-! ## Grouping

A map from a classifier to the list of the elements in each class, filled by
appending one element at a time.
-/

section Group

variable {α : Type*} [DecidableEq K]

def pushGroup (f : α → K) (m : IndexMap K (List α)) (a : α) : IndexMap K (List α) :=
  m.upsert (f a) fun group => group.getD [] ++ [a]

def groupBy (f : α → K) (l : List α) : IndexMap K (List α) :=
  l.foldl (pushGroup f) empty

theorem groupBy_append_singleton (f : α → K) (l : List α) (a : α) :
    groupBy f (l ++ [a]) = pushGroup f (groupBy f l) a := by
  rw [groupBy, List.foldl_append]
  rfl

theorem get?_eq_some {m : IndexMap K V} {k : K} {v : V} :
    m.get? k = some v ↔ (k, v) ∈ m.entries := by
  obtain ⟨entries, hnodup⟩ := m
  change entries.lookup k = some v ↔ (k, v) ∈ entries
  induction entries with
  | nil => simp
  | cons e l ih =>
      obtain ⟨k', v'⟩ := e
      rw [List.map_cons, List.nodup_cons] at hnodup
      rw [List.lookup_cons, List.mem_cons]
      by_cases hk : k = k'
      · rw [hk, beq_self_eq_true]
        constructor
        · intro h
          exact Or.inl (by rw [Option.some.inj h])
        · rintro (h | h)
          · rw [(Prod.mk.inj h).2]
          · exact absurd (List.mem_map_of_mem h) hnodup.1
      · rw [beq_false_of_ne hk]
        simp only [ih hnodup.2, Prod.mk.injEq, hk, false_and, false_or]

theorem get?_eq_none {m : IndexMap K V} {k : K} : m.get? k = none ↔ k ∉ m.keys := by
  rw [mem_keys]
  constructor
  · rintro h ⟨v, hv⟩
    rw [get?_eq_some.mpr hv] at h
    cases h
  · intro h
    cases hget : m.get? k with
    | none => rfl
    | some v => exact absurd ⟨v, get?_eq_some.mp hget⟩ h

theorem filter_own_class (f : α → K) (a : α) :
    ([a].filter fun b => decide (f b = f a)) = [a] :=
  List.filter_cons_of_pos (decide_eq_true rfl)

/-- A group holds the elements of its class, in order, and no group is empty. -/
theorem mem_groupBy {f : α → K} {l : List α} {k : K} {group : List α} :
    (k, group) ∈ (groupBy f l).entries ↔
      group = l.filter (fun a => f a = k) ∧ group ≠ [] := by
  induction l using List.reverseRecOn generalizing k group with
  | nil =>
      constructor
      · intro h
        cases h
      · rintro ⟨rfl, h⟩
        exact absurd rfl h
  | append_singleton l a ih =>
      rw [groupBy_append_singleton, pushGroup, List.filter_append]
      by_cases hk : k = f a
      · have hself := mem_upsert_self (groupBy f l) (f a) fun group => group.getD [] ++ [a]
        have hold : ((groupBy f l).get? (f a)).getD [] = l.filter fun b => f b = f a := by
          cases hget : (groupBy f l).get? (f a) with
          | some group => exact (ih.mp (get?_eq_some.mp hget)).1
          | none =>
              by_contra hne
              exact get?_eq_none.mp hget (mem_keys.mpr ⟨_, ih.mpr ⟨rfl, Ne.symm hne⟩⟩)
        rw [hold] at hself
        rw [hk, filter_own_class]
        constructor
        · intro h
          refine ⟨value_unique h hself, ?_⟩
          rw [value_unique h hself]
          exact List.append_ne_nil_of_right_ne_nil _ (List.cons_ne_nil _ _)
        · rintro ⟨rfl, -⟩
          exact hself
      · rw [mem_upsert_of_ne hk, ih, List.filter_cons_of_neg (by simpa using Ne.symm hk),
          List.filter_nil, List.append_nil]

theorem mem_keys_groupBy {f : α → K} {l : List α} {k : K} :
    k ∈ (groupBy f l).keys ↔ l.filter (fun a => f a = k) ≠ [] := by
  rw [mem_keys]
  constructor
  · rintro ⟨group, hgroup⟩
    obtain ⟨rfl, hne⟩ := mem_groupBy.mp hgroup
    exact hne
  · intro hne
    exact ⟨_, mem_groupBy.mpr ⟨rfl, hne⟩⟩

/-- Groups come in the order of their first elements. -/
theorem pairwise_groupBy {R : α → α → Prop} {f : α → K} {l : List α} (hl : l.Pairwise R) :
    (groupBy f l).entries.Pairwise fun g g' =>
      ∀ a b, g.2.head? = some a → g'.2.head? = some b → R a b := by
  have hkeys : (groupBy f l).keys.Pairwise fun k k' =>
      ∀ a b, (l.filter fun a => f a = k).head? = some a →
        (l.filter fun a => f a = k').head? = some b → R a b := by
    induction l using List.reverseRecOn with
    | nil => exact List.Pairwise.nil
    | append_singleton l c ih =>
        obtain ⟨hpair, -, hlast⟩ := List.pairwise_append.mp hl
        have hhead : ∀ k ∈ (groupBy f l).keys,
            ((l ++ [c]).filter fun a => f a = k).head? = (l.filter fun a => f a = k).head? := by
          intro k hk
          rw [List.filter_append, List.head?_append_of_ne_nil _ (mem_keys_groupBy.mp hk)]
        have hold := (ih hpair).imp_of_mem (S := fun k k' =>
          ∀ a b, ((l ++ [c]).filter fun a => f a = k).head? = some a →
            ((l ++ [c]).filter fun a => f a = k').head? = some b → R a b) (by
          intro k k' hk hk' h
          rw [hhead k hk, hhead k' hk']
          exact h)
        rw [groupBy_append_singleton, pushGroup, keys_upsert]
        split
        · exact hold
        · rename_i hnew
          refine List.pairwise_append.mpr ⟨hold, List.pairwise_singleton _ _, ?_⟩
          intro k hk k' hk' a b ha hb
          rw [List.mem_singleton.mp hk', List.filter_append,
            not_not.mp (mt mem_keys_groupBy.mpr hnew), List.nil_append,
            filter_own_class] at hb
          rw [hhead k hk] at ha
          rw [← Option.some.inj hb]
          exact hlast a (List.mem_of_mem_filter (List.mem_of_head? ha)) c
            (List.mem_singleton.mpr rfl)
  rw [keys, List.pairwise_map] at hkeys
  refine hkeys.imp_of_mem ?_
  rintro ⟨k, group⟩ ⟨k', group'⟩ hg hg' h
  rw [(mem_groupBy.mp hg).1, (mem_groupBy.mp hg').1]
  exact h

end Group

/-! ## Looking up what was written -/

section Lookup

variable [DecidableEq K]

@[simp] theorem get?_empty (k : K) : (empty : IndexMap K V).get? k = none := rfl

theorem get?_upsert (m : IndexMap K V) (k k' : K) (f : Option V → V) :
    (m.upsert k f).get? k' = if k' = k then some (f (m.get? k)) else m.get? k' := by
  split_ifs with hk
  · rw [hk, get?_eq_some]
    exact m.mem_upsert_self k f
  · ext v
    rw [get?_eq_some, get?_eq_some, mem_upsert_of_ne hk]

@[simp] theorem get?_insert (m : IndexMap K V) (k k' : K) (v : V) :
    (m.insert k v).get? k' = if k' = k then some v else m.get? k' :=
  get?_upsert m k k' fun _ => v

/-- Without one key. -/
def remove (m : IndexMap K V) (k : K) : IndexMap K V := m.retain fun k' _ => k' ≠ k

@[simp] theorem get?_remove (m : IndexMap K V) (k k' : K) :
    (m.remove k).get? k' = if k' = k then none else m.get? k' := by
  ext v
  rw [get?_eq_some, remove, mem_retain, decide_eq_true_eq]
  split_ifs with hk
  · simp [hk]
  · rw [and_iff_left hk, get?_eq_some]

end Lookup

/-! ## Maps that agree

Two maps that hold the same values in the same order at the keys that both hold.
-/

section Agree

variable [DecidableEq K]

def Agree (m m' : IndexMap K V) : Prop :=
  m.entries.filter (fun e => e.1 ∈ m'.keys) = m'.entries.filter (fun e => e.1 ∈ m.keys)

theorem Agree.refl (m : IndexMap K V) : Agree m m := rfl

theorem Agree.symm {m m' : IndexMap K V} (h : Agree m m') : Agree m' m := Eq.symm h

/-- At a common key the value is the same. -/
theorem Agree.mem {m m' : IndexMap K V} (h : Agree m m') {k : K} {v : V}
    (hv : (k, v) ∈ m.entries) (hk : k ∈ m'.keys) : (k, v) ∈ m'.entries := by
  have hmem : (k, v) ∈ m.entries.filter fun e => e.1 ∈ m'.keys :=
    List.mem_filter.mpr ⟨hv, decide_eq_true hk⟩
  rw [h] at hmem
  exact List.mem_of_mem_filter hmem

theorem Agree.retain {m m' : IndexMap K V} (h : Agree m m') (p : K → V → Bool) :
    Agree (m.retain p) m' := by
  have hkeys : ∀ e ∈ m'.entries,
      (decide (e.1 ∈ (m.retain p).keys)) = (p e.1 e.2 && decide (e.1 ∈ m.keys)) := by
    rintro ⟨k, v⟩ hv
    rw [Bool.eq_iff_iff, Bool.and_eq_true, decide_eq_true_eq, decide_eq_true_eq, mem_keys_retain]
    constructor
    · rintro ⟨w, hw, hp⟩
      have hk : k ∈ m.keys := mem_keys.mpr ⟨w, hw⟩
      rw [value_unique hw (h.symm.mem hv hk)] at hp
      exact ⟨hp, hk⟩
    · rintro ⟨hp, hk⟩
      exact ⟨v, h.symm.mem hv hk, hp⟩
  have hright : m'.entries.filter (fun e => e.1 ∈ (m.retain p).keys) =
      (m'.entries.filter fun e => e.1 ∈ m.keys).filter fun e => p e.1 e.2 := by
    rw [List.filter_filter]
    exact List.filter_congr hkeys
  have hleft : (m.retain p).entries.filter (fun e => e.1 ∈ m'.keys) =
      (m.entries.filter fun e => e.1 ∈ m'.keys).filter fun e => p e.1 e.2 := by
    rw [IndexMap.retain, List.filter_filter, List.filter_filter]
    exact List.filter_congr fun e _ => Bool.and_comm _ _
  exact hleft.trans ((congrArg _ h).trans hright.symm)

/-- Where what only one map holds fails the test, the entries that pass it are the same. -/
theorem Agree.retain_eq {m m' : IndexMap K V} (h : Agree m m') {p : K → V → Bool}
    (hm : ∀ k v, (k, v) ∈ m.entries → k ∉ m'.keys → p k v = false)
    (hm' : ∀ k v, (k, v) ∈ m'.entries → k ∉ m.keys → p k v = false) :
    m.retain p = m'.retain p := by
  have hcommon : ∀ {m m' : IndexMap K V},
      (∀ k v, (k, v) ∈ m.entries → k ∉ m'.keys → p k v = false) →
      (m.retain p).entries = (m.entries.filter fun e => e.1 ∈ m'.keys).filter fun e => p e.1 e.2 := by
    intro m m' hm
    rw [List.filter_filter]
    apply List.filter_congr
    rintro ⟨k, v⟩ hv
    by_cases hk : k ∈ m'.keys
    · simp [hk]
    · simp [hk, hm k v hv hk]
  have hentries : (m.retain p).entries = (m'.retain p).entries := by
    rw [hcommon hm, hcommon hm', h]
  cases hr : m.retain p
  cases hr' : m'.retain p
  rw [hr, hr'] at hentries
  cases hentries
  rfl

theorem Agree.get? {m m' : IndexMap K V} (h : Agree m m') {k : K} (hk : k ∈ m.keys ↔ k ∈ m'.keys) :
    m.get? k = m'.get? k := by
  cases hget : m'.get? k with
  | none => exact get?_eq_none.mpr fun hmem => get?_eq_none.mp hget (hk.mp hmem)
  | some v =>
      have hv := get?_eq_some.mp hget
      exact get?_eq_some.mpr (h.symm.mem hv (hk.mpr (mem_keys.mpr ⟨v, hv⟩)))

/-- A write to a key that passes goes through a filter by keys. -/
theorem filter_upsertEntries {q : K → Bool} {k : K} (hk : q k = true) (f : V) (l : List (K × V)) :
    (upsertEntries k (fun _ => f) l).filter (fun e => q e.1) =
      upsertEntries k (fun _ => f) (l.filter fun e => q e.1) := by
  induction l with
  | nil => exact List.filter_cons_of_pos hk
  | cons e l ih =>
      obtain ⟨k', v⟩ := e
      rw [upsertEntries]
      by_cases heq : k' = k
      · rw [if_pos heq, List.filter_cons_of_pos (heq ▸ hk), List.filter_cons_of_pos (heq ▸ hk),
          upsertEntries, if_pos heq]
      · rw [if_neg heq]
        cases hq : q k' with
        | true => simp [hq, heq, upsertEntries, ih]
        | false => simp [hq, ih]

theorem mem_keys_insert {m : IndexMap K V} {k k' : K} {v : V} :
    k' ∈ (m.insert k v).keys ↔ k' ∈ m.keys ∨ k' = k := by
  rw [insert, keys_upsert]
  split
  · rename_i hmem
    exact ⟨Or.inl, fun h => h.elim id fun heq => heq ▸ hmem⟩
  · rw [List.mem_append, List.mem_singleton]

/-- The same write to a key that both hold, or neither. -/
theorem Agree.insert {m m' : IndexMap K V} (h : Agree m m') {k : K}
    (hk : k ∈ m.keys ↔ k ∈ m'.keys) (v : V) : Agree (m.insert k v) (m'.insert k v) := by
  have hside : ∀ {m m' : IndexMap K V}, (k ∈ m.keys ↔ k ∈ m'.keys) →
      (m.insert k v).entries.filter (fun e => e.1 ∈ (m'.insert k v).keys) =
        upsertEntries k (fun _ => v) (m.entries.filter fun e => e.1 ∈ m'.keys) := by
    intro m m' hk
    refine (filter_upsertEntries (q := fun k' => decide (k' ∈ (m'.insert k v).keys))
      (decide_eq_true (mem_keys_insert.mpr (Or.inr rfl))) v m.entries).trans ?_
    congr 1
    apply List.filter_congr
    rintro ⟨k', w⟩ hw
    rw [decide_eq_decide, mem_keys_insert, or_iff_left_iff_imp]
    rintro rfl
    exact hk.mp (mem_keys.mpr ⟨w, hw⟩)
  unfold Agree
  rw [hside hk, hside hk.symm, h]

end Agree

end IndexMap
