import Canboat.Snapshot.History

/-!
# Reads between the stores

Two runs that make the same stores and differ in their reads end in the same documents, unless
a key is stored again after its last record has expired and a read in only one of the runs has
dropped it in between.
-/

namespace Canboat

/-! ## Runs that differ in their reads -/

/-- Two histories with the same stores, built up call by call. -/
inductive SameStores : List Op → List Op → Prop
  | nil : SameStores [] []
  | readLeft {h₁ h₂ : List Op} {op : Op} (h : SameStores h₁ h₂) (hop : op.call = none) :
      SameStores (h₁ ++ [op]) h₂
  | readRight {h₁ h₂ : List Op} {op : Op} (h : SameStores h₁ h₂) (hop : op.call = none) :
      SameStores h₁ (h₂ ++ [op])
  | store {h₁ h₂ : List Op} {op₁ op₂ : Op} {c : StoreCall} (h : SameStores h₁ h₂)
      (hop₁ : op₁.call = some c) (hop₂ : op₂.call = some c) :
      SameStores (h₁ ++ [op₁]) (h₂ ++ [op₂])

theorem filterMap_snoc_read {h : List Op} {op : Op} (hop : op.call = none) :
    (h ++ [op]).filterMap Op.call = h.filterMap Op.call := by
  rw [List.filterMap_append, List.filterMap_cons_none hop, List.filterMap_nil, List.append_nil]

theorem filterMap_snoc_store {h : List Op} {op : Op} {c : StoreCall} (hop : op.call = some c) :
    (h ++ [op]).filterMap Op.call = h.filterMap Op.call ++ [c] := by
  rw [List.filterMap_append, List.filterMap_cons_some hop, List.filterMap_nil]

theorem SameStores.of_calls {h₁ h₂ : List Op}
    (h : h₁.filterMap Op.call = h₂.filterMap Op.call) : SameStores h₁ h₂ := by
  induction h₁ using List.reverseRecOn generalizing h₂ with
  | nil =>
      -- the other run has only reads
      induction h₂ using List.reverseRecOn with
      | nil => exact .nil
      | append_singleton h₂ op ih =>
          cases hop : op.call with
          | none => exact .readRight (ih (by rwa [filterMap_snoc_read hop] at h)) hop
          | some c => rw [filterMap_snoc_store hop] at h; simp at h
  | append_singleton h₁ op₁ ih₁ =>
      cases hop₁ : op₁.call with
      | none => exact .readLeft (ih₁ (by rwa [filterMap_snoc_read hop₁] at h)) hop₁
      | some c =>
          rw [filterMap_snoc_store hop₁] at h
          induction h₂ using List.reverseRecOn with
          | nil => simp at h
          | append_singleton h₂ op₂ ih₂ =>
              cases hop₂ : op₂.call with
              | none => exact .readRight (ih₂ (by rwa [filterMap_snoc_read hop₂] at h)) hop₂
              | some c' =>
                  rw [filterMap_snoc_store hop₂] at h
                  obtain ⟨hcalls, hlast⟩ := List.append_inj' h rfl
                  rw [List.singleton_inj] at hlast
                  exact .store (ih₁ hcalls) hop₁ (hlast ▸ hop₂)

theorem SameStores.calls {h₁ h₂ : List Op} (h : SameStores h₁ h₂) :
    h₁.filterMap Op.call = h₂.filterMap Op.call := by
  induction h with
  | nil => rfl
  | readLeft _ hop ih => rw [filterMap_snoc_read hop, ih]
  | readRight _ hop ih => rw [filterMap_snoc_read hop, ih]
  | store _ hop₁ hop₂ ih => rw [filterMap_snoc_store hop₁, filterMap_snoc_store hop₂, ih]

/-! ## Caches that a read will show alike -/

/-- The same entries in the same order where both hold a key, and what only one holds has
expired by then. -/
structure Alike (t : ℕ) (st₁ st₂ : SnapshotStore) : Prop where
  agree : st₁.cache.Agree st₂.cache
  left : ∀ k e, (k, e) ∈ st₁.cache.entries → k ∉ st₂.cache.keys → e.fresh t = false
  right : ∀ k e, (k, e) ∈ st₂.cache.entries → k ∉ st₁.cache.keys → e.fresh t = false
  epochInstant : st₁.epochInstant = st₂.epochInstant
  epochWallMs : st₁.epochWallMs = st₂.epochWallMs

theorem Alike.refl (t : ℕ) (st : SnapshotStore) : Alike t st st where
  agree := .refl st.cache
  left := fun _ e he hk => absurd (IndexMap.mem_keys.mpr ⟨e, he⟩) hk
  right := fun _ e he hk => absurd (IndexMap.mem_keys.mpr ⟨e, he⟩) hk
  epochInstant := rfl
  epochWallMs := rfl

theorem Alike.symm {t : ℕ} {st₁ st₂ : SnapshotStore} (h : Alike t st₁ st₂) : Alike t st₂ st₁ :=
  ⟨h.agree.symm, h.right, h.left, h.epochInstant.symm, h.epochWallMs.symm⟩

/-- Expired stays expired. -/
theorem CacheEntry.fresh_mono {e : CacheEntry} {r t : ℕ} (hrt : r ≤ t)
    (hr : e.fresh r = false) : e.fresh t = false := by
  unfold CacheEntry.fresh at *
  cases hexp : e.expiresAt with
  | none => rw [hexp] at hr; cases hr
  | some x =>
      rw [hexp] at hr
      exact decide_eq_false (Nat.not_lt.mpr (Nat.le_trans (Nat.not_lt.mp (of_decide_eq_false hr)) hrt))

/-- A read in one of the runs. -/
theorem Alike.prune {t r : ℕ} {st₁ st₂ : SnapshotStore} (h : Alike t st₁ st₂) (hrt : r ≤ t) :
    Alike t (st₁.prune r) st₂ where
  agree := h.agree.retain _
  left := fun k e he hk => h.left k e (IndexMap.mem_retain.mp he).1 hk
  right := by
    intro k e he hk
    by_cases hmem : k ∈ st₁.cache.keys
    · have he₁ := h.agree.symm.mem he hmem
      refine CacheEntry.fresh_mono hrt (Bool.eq_false_iff.mpr fun hfresh => hk ?_)
      exact IndexMap.mem_keys_retain.mpr ⟨e, he₁, hfresh⟩
    · exact h.right k e he hmem
  epochInstant := h.epochInstant
  epochWallMs := h.epochWallMs

/-- The same store in both, to a key that both hold or neither. -/
theorem Alike.storeEntry {t : ℕ} {st₁ st₂ : SnapshotStore} (h : Alike t st₁ st₂) (c : StoreCall)
    (hkey : c.key ∈ st₁.cache.keys ↔ c.key ∈ st₂.cache.keys) :
    Alike t (st₁.storeEntry c) (st₂.storeEntry c) := by
  have hentry : st₁.entryFor c = st₂.entryFor c := by
    unfold SnapshotStore.entryFor
    rw [h.agree.get? hkey, h.epochInstant, h.epochWallMs]
  have honly : ∀ {st₁ st₂ : SnapshotStore},
      (∀ k e, (k, e) ∈ st₁.cache.entries → k ∉ st₂.cache.keys → e.fresh t = false) →
      ∀ k e, (k, e) ∈ (st₁.storeEntry c).cache.entries → k ∉ (st₂.storeEntry c).cache.keys →
        e.fresh t = false := by
    intro st₁ st₂ hleft k e he hk
    rw [SnapshotStore.storeEntry, IndexMap.mem_keys_insert, not_or] at hk
    rcases IndexMap.mem_insert.mp he with ⟨rfl, -⟩ | ⟨-, hmem⟩
    · exact absurd rfl hk.2
    · exact hleft k e hmem hk.1
  refine ⟨?_, honly h.left, honly h.right, h.epochInstant, h.epochWallMs⟩
  unfold SnapshotStore.storeEntry
  rw [hentry]
  exact h.agree.insert hkey _

/-- What is left at the read is the same. -/
theorem Alike.prune_eq {t : ℕ} {st₁ st₂ : SnapshotStore} (h : Alike t st₁ st₂) :
    st₁.prune t = st₂.prune t := by
  have hcache := h.agree.retain_eq h.left h.right
  have hinstant := h.epochInstant
  have hwall := h.epochWallMs
  cases st₁
  cases st₂
  cases hinstant
  cases hwall
  exact congrArg (SnapshotStore.mk · _ _) hcache

/-! ## Runs -/

/-- The key has been stored, and no read since has dropped it. -/
def Held (h : List Op) (k : CacheKey) : Prop := ∃ i, Stays h k i

/-- At each store the two runs hold its key, or both have dropped it. -/
def DropsAlike (h₁ h₂ : List Op) : Prop :=
  ∀ i j op₁ op₂ c, h₁[i]? = some op₁ → h₂[j]? = some op₂ → op₁.call = some c → op₂.call = some c →
    ((h₁.take i).filterMap Op.call).length = ((h₂.take j).filterMap Op.call).length →
    (Held (h₁.take i) c.key ↔ Held (h₂.take j) c.key)

theorem DropsAlike.left {h₁ h₂ : List Op} {op : Op} (h : DropsAlike (h₁ ++ [op]) h₂) :
    DropsAlike h₁ h₂ := by
  intro i j op₁ op₂ c hi hj hop₁ hop₂ hlen
  have hlt : i < h₁.length := (List.getElem?_eq_some_iff.mp hi).1
  have hat := h i j op₁ op₂ c (by rwa [List.getElem?_append_left hlt]) hj hop₁ hop₂
  rw [List.take_append_of_le_length hlt.le] at hat
  exact hat hlen

theorem DropsAlike.symm {h₁ h₂ : List Op} (h : DropsAlike h₁ h₂) : DropsAlike h₂ h₁ :=
  fun i j op₁ op₂ c hi hj hop₁ hop₂ hlen => (h j i op₂ op₁ c hj hi hop₂ hop₁ hlen.symm).symm

theorem DropsAlike.right {h₁ h₂ : List Op} {op : Op} (h : DropsAlike h₁ (h₂ ++ [op])) :
    DropsAlike h₁ h₂ :=
  h.symm.left.symm

/-- At the last store of both. -/
theorem DropsAlike.last {h₁ h₂ : List Op} {op₁ op₂ : Op} {c : StoreCall}
    (h : DropsAlike (h₁ ++ [op₁]) (h₂ ++ [op₂])) (hop₁ : op₁.call = some c)
    (hop₂ : op₂.call = some c) (hcalls : h₁.filterMap Op.call = h₂.filterMap Op.call) :
    Held h₁ c.key ↔ Held h₂ c.key := by
  have hat := h h₁.length h₂.length op₁ op₂ c List.getElem?_concat_length
    List.getElem?_concat_length hop₁ hop₂
  rw [List.take_left, List.take_left, hcalls] at hat
  exact hat rfl

variable (pgnDescription : String → Option String)

theorem apply_read (st : SnapshotStore) {op : Op} (hop : op.call = none) :
    st.apply pgnDescription op = st.prune op.time := by
  cases op with
  | store input now => cases hop
  | storeLazy key isAis desc render now => cases hop
  | snapshot now => rfl
  | aisSnapshot now => rfl
  | statusSnapshot now => rfl

theorem apply_store (st : SnapshotStore) {op : Op} {c : StoreCall} (hop : op.call = some c) :
    st.apply pgnDescription op = st.storeEntry c := by
  cases op with
  | store input now => cases hop; rfl
  | storeLazy key isAis desc render now => cases hop; rfl
  | snapshot now => cases hop
  | aisSnapshot now => cases hop
  | statusSnapshot now => cases hop

theorem run_snoc (st : SnapshotStore) (h : List Op) (op : Op) :
    st.run pgnDescription (h ++ [op]) = (st.run pgnDescription h).apply pgnDescription op := by
  rw [SnapshotStore.run, List.foldl_append]
  rfl

/-- A run holds the keys that its history holds. -/
theorem mem_keys_run (epochInstant : ℕ) (epochWallMs : UInt64) (h : List Op) (k : CacheKey) :
    k ∈ ((SnapshotStore.new epochInstant epochWallMs).run pgnDescription h).cache.keys ↔ Held h k :=
  (Tracks.run pgnDescription epochInstant epochWallMs h).present k

/-- Runs with the same stores stay alike, by one call more in one of them or a store in both. -/
theorem SameStores.alike {h₁ h₂ : List Op} (h : SameStores h₁ h₂) (hdrops : DropsAlike h₁ h₂)
    (epochInstant : ℕ) (epochWallMs : UInt64) {t : ℕ} (htime₁ : ∀ op ∈ h₁, op.time ≤ t)
    (htime₂ : ∀ op ∈ h₂, op.time ≤ t) :
    Alike t ((SnapshotStore.new epochInstant epochWallMs).run pgnDescription h₁)
      ((SnapshotStore.new epochInstant epochWallMs).run pgnDescription h₂) := by
  induction h with
  | nil => exact .refl t _
  | readLeft _ hop ih =>
      rw [run_snoc, apply_read pgnDescription _ hop]
      have hstep := ih hdrops.left (fun op hmem => htime₁ op (List.mem_append_left _ hmem)) htime₂
      exact hstep.prune (htime₁ _ (List.mem_append_right _ List.mem_cons_self))
  | readRight _ hop ih =>
      rw [run_snoc, apply_read pgnDescription _ hop]
      have hstep := ih hdrops.right htime₁ fun op hmem => htime₂ op (List.mem_append_left _ hmem)
      exact (hstep.symm.prune (htime₂ _ (List.mem_append_right _ List.mem_cons_self))).symm
  | store hsame hop₁ hop₂ ih =>
      rw [run_snoc, run_snoc, apply_store pgnDescription _ hop₁, apply_store pgnDescription _ hop₂]
      have hstep := ih hdrops.left.right
        (fun op hmem => htime₁ op (List.mem_append_left _ hmem))
        fun op hmem => htime₂ op (List.mem_append_left _ hmem)
      apply hstep.storeEntry
      rw [mem_keys_run, mem_keys_run]
      exact hdrops.last hop₁ hop₂ hsame.calls

/-- What the three ports show at an instant, each from this state. -/
def SnapshotStore.documents (st : SnapshotStore) (t : ℕ) : String × String × String :=
  ((st.snapshot pgnDescription t).1, (st.aisSnapshot pgnDescription t).1, (st.statusSnapshot t).1)

theorem documents_of_prune {st₁ st₂ : SnapshotStore} {t : ℕ} (h : st₁.prune t = st₂.prune t) :
    st₁.documents pgnDescription t = st₂.documents pgnDescription t := by
  simp only [SnapshotStore.documents, SnapshotStore.snapshot, SnapshotStore.aisSnapshot,
    SnapshotStore.filteredSnapshot, SnapshotStore.statusSnapshot, h]

/-- Runs with the same stores show the same documents, where at each store both hold its key or
neither does. -/
theorem documents_eq_of_dropsAlike (epochInstant : ℕ) (epochWallMs : UInt64) (h₁ h₂ : List Op)
    (t : ℕ) (htime₁ : ∀ op ∈ h₁, op.time ≤ t) (htime₂ : ∀ op ∈ h₂, op.time ≤ t)
    (hstores : h₁.filterMap Op.call = h₂.filterMap Op.call) (hdrops : DropsAlike h₁ h₂) :
    ((SnapshotStore.new epochInstant epochWallMs).run pgnDescription h₁).documents
        pgnDescription t =
      ((SnapshotStore.new epochInstant epochWallMs).run pgnDescription h₂).documents
        pgnDescription t :=
  documents_of_prune pgnDescription ((SameStores.of_calls hstores).alike pgnDescription hdrops
    epochInstant epochWallMs htime₁ htime₂).prune_eq

def headingStore (now : ℕ) : Op :=
  .store ⟨127250, 1, none, false, "Vessel Heading", "\x7b\"pgn\":127250\x7d"⟩ now

/-- A read before the heading expires drops nothing. -/
theorem documents_eq_of_dropsAlike_heading :
    ((SnapshotStore.new 0 0).run (fun _ => none)
        [headingStore 0, .statusSnapshot (seconds 1), headingStore (seconds 2)]).documents
        (fun _ => none) (seconds 3) =
      ((SnapshotStore.new 0 0).run (fun _ => none)
        [headingStore 0, headingStore (seconds 2)]).documents (fun _ => none) (seconds 3) := by
  apply documents_eq_of_dropsAlike
  · decide
  · decide
  · rfl
  · intro i j op₁ op₂ c hi hj hop₁ hop₂ hlen
    have hkey : c.key = headingKey := by
      match i, hi with
      | 0, hi => cases hi; cases hop₁; rfl
      | 1, hi => cases hi; cases hop₁
      | 2, hi => cases hi; cases hop₁; rfl
    rw [← mem_keys_run (fun _ => none) 0 0, ← mem_keys_run (fun _ => none) 0 0, hkey]
    match i, j, hi, hj, hlen with
    | 0, 0, _, _, _ => decide
    | 2, 1, _, _, _ => decide
    | 0, 1, _, _, hlen => cases hlen
    | 1, _, hi, _, _ => cases hi; cases hop₁
    | 2, 0, _, _, hlen => cases hlen

/-- A read between a heading's expiry and its next store restarts its count. -/
theorem documents_ne_of_read :
    [headingStore 0, .statusSnapshot (seconds 200), headingStore (seconds 201)].filterMap Op.call =
      [headingStore 0, headingStore (seconds 201)].filterMap Op.call ∧
    ((SnapshotStore.new 0 0).run (fun _ => none)
        [headingStore 0, .statusSnapshot (seconds 200), headingStore (seconds 201)]).documents
        (fun _ => none) (seconds 202) ≠
      ((SnapshotStore.new 0 0).run (fun _ => none)
        [headingStore 0, headingStore (seconds 201)]).documents (fun _ => none) (seconds 202) := by
  refine ⟨rfl, fun h => ?_⟩
  have hstatus := congrArg (fun d => d.2.2) h
  revert hstatus
  decide +kernel

end Canboat
