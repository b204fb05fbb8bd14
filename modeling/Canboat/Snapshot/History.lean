import Canboat.Lib.Names
import Canboat.Snapshot.Store
import Mathlib.Order.Bounds.Basic
import Mathlib.Data.Nat.Find
import Mathlib.Tactic.Tauto

/-!
# The snapshot against its history

What a read shows is a function of the calls made so far: the latest store of each key, if
it is still alive, in the order in which the keys were first stored since a read last
dropped them.
-/

namespace Canboat

/-! ## The history's own account -/

/-- The latest store of a key. -/
def latest (h : List Op) (k : CacheKey) : Option StoreCall :=
  ((h.filterMap Op.call).filter fun c => c.key = k).getLast?

/-- A store has not expired at an instant. -/
def StoreCall.Live (c : StoreCall) (t : ℕ) : Prop :=
  ttlForPgn c.key.pgn c.isAis = none ∨ ∃ ttl, ttlForPgn c.key.pgn c.isAis = some ttl ∧ t < c.now + ttl

/-- Call `i` is a store of the key, and no read since has found the key expired. -/
def Stays (h : List Op) (k : CacheKey) (i : ℕ) : Prop :=
  (∃ op c, h[i]? = some op ∧ op.call = some c ∧ c.key = k) ∧
    ∀ j op, i < j → h[j]? = some op → op.call = none →
      ∃ c, latest (h.take j) k = some c ∧ c.Live op.time

/-- Call `i` is the first store of the key since it was last dropped. -/
def Born (h : List Op) (k : CacheKey) (i : ℕ) : Prop :=
  IsLeast {i | Stays h k i} i

structure DocEntry where
  key : CacheKey
  payload : String
deriving DecidableEq, Repr

structure DocGroup where
  pgn : UInt32
  description : String
  entries : List DocEntry
deriving DecidableEq, Repr

def DocGroup.text (g : DocGroup) : String :=
  groupText g.pgn.toNat.repr g.description (g.entries.map fun e => (e.key, e.payload))

/-- The document's layout: numeric group keys, payloads verbatim. -/
def documentOf (doc : List DocGroup) : String :=
  documentText true (doc.map DocGroup.text)

/-- The key is listed with the payload. -/
def Lists (doc : List DocGroup) (k : CacheKey) (payload : String) : Prop :=
  ∃ g ∈ doc, ⟨k, payload⟩ ∈ g.entries

/-- What a port's document at an instant is to be, after a history. -/
structure Faithful (h : List Op) (t : ℕ) (keep : StoreCall → Prop) (doc : List DocGroup) :
    Prop where
  lists : ∀ k payload, Lists doc k payload ↔
    ∃ c, latest h k = some c ∧ c.Live t ∧ keep c ∧ payload = c.payload.render
  onePgn : ∀ g ∈ doc, ∀ e ∈ g.entries, e.key.pgn = g.pgn
  oneGroup : (doc.map (·.pgn)).Nodup
  nonempty : ∀ g ∈ doc, g.entries ≠ []
  members : ∀ g ∈ doc, (g.entries.map fun e => e.key.member).Nodup
  ordered : ∀ g ∈ doc, g.entries.Pairwise fun a b =>
    ∃ i j, Born h a.key i ∧ Born h b.key j ∧ i < j
  groupsOrdered : doc.Pairwise fun g g' => ∀ a b, g.entries.head? = some a →
    g'.entries.head? = some b → ∃ i j, Born h a.key i ∧ Born h b.key j ∧ i < j

theorem StoreCall.Live.mono {c : StoreCall} {t t' : ℕ} (h : c.Live t) (ht : t' ≤ t) :
    c.Live t' := by
  rcases h with hnone | ⟨ttl, httl, hlt⟩
  · exact Or.inl hnone
  · exact Or.inr ⟨ttl, httl, Nat.lt_of_le_of_lt ht hlt⟩

/-! ## One more call -/

theorem latest_snoc_store {h : List Op} {op : Op} {c : StoreCall} (hop : op.call = some c)
    (k : CacheKey) :
    latest (h ++ [op]) k = if c.key = k then some c else latest h k := by
  rw [latest, List.filterMap_append, List.filterMap_cons_some hop, List.filterMap_nil,
    List.filter_append]
  by_cases hk : c.key = k
  · rw [if_pos hk, List.filter_cons_of_pos (by simpa using hk), List.filter_nil,
      List.getLast?_concat]
  · rw [if_neg hk, List.filter_cons_of_neg (by simpa using hk), List.filter_nil,
      List.append_nil, latest]

theorem latest_snoc_read {h : List Op} {op : Op} (hop : op.call = none) (k : CacheKey) :
    latest (h ++ [op]) k = latest h k := by
  rw [latest, List.filterMap_append, List.filterMap_cons_none hop, List.filterMap_nil,
    List.append_nil, latest]

theorem latest_mem {h : List Op} {k : CacheKey} {c : StoreCall} (hc : latest h k = some c) :
    c.key = k ∧ ∃ op ∈ h, op.call = some c := by
  obtain ⟨hmem, hk⟩ := List.mem_filter.mp (List.mem_of_getLast? hc)
  exact ⟨of_decide_eq_true hk, List.mem_filterMap.mp hmem⟩

/-- Earlier positions do not see the calls after them. -/
theorem stays_snoc_of_lt {h : List Op} {op : Op} {k : CacheKey} {i : ℕ} (hi : i < h.length) :
    Stays (h ++ [op]) k i ↔ Stays h k i ∧
      (op.call = none → ∃ c, latest h k = some c ∧ c.Live op.time) := by
  unfold Stays
  rw [List.getElem?_append_left hi]
  constructor
  · rintro ⟨hstore, hreads⟩
    refine ⟨⟨hstore, ?_⟩, ?_⟩
    · intro j op' hij hj hread
      have hlt : j < h.length := (List.getElem?_eq_some_iff.mp hj).1
      have := hreads j op' hij (by rw [List.getElem?_append_left hlt, hj]) hread
      rwa [List.take_append_of_le_length hlt.le] at this
    · intro hread
      have := hreads h.length op hi (by rw [List.getElem?_concat_length]) hread
      rwa [List.take_left] at this
  · rintro ⟨⟨hstore, hreads⟩, hlast⟩
    refine ⟨hstore, ?_⟩
    intro j op' hij hj hread
    rcases Nat.lt_or_ge j h.length with hlt | hge
    · rw [List.getElem?_append_left hlt] at hj
      rw [List.take_append_of_le_length hlt.le]
      exact hreads j op' hij hj hread
    · have hlen := (List.getElem?_eq_some_iff.mp hj).1
      rw [List.length_append, List.length_singleton] at hlen
      obtain rfl : j = h.length := by omega
      rw [List.getElem?_concat_length, Option.some.injEq] at hj
      rw [← hj] at hread ⊢
      rw [List.take_left]
      exact hlast hread

theorem stays_lt {h : List Op} {k : CacheKey} {i : ℕ} (hi : Stays h k i) : i < h.length := by
  obtain ⟨⟨op, c, hop, -⟩, -⟩ := hi
  exact (List.getElem?_eq_some_iff.mp hop).1

theorem stays_snoc_last {h : List Op} {op : Op} {k : CacheKey} :
    Stays (h ++ [op]) k h.length ↔ ∃ c, op.call = some c ∧ c.key = k := by
  constructor
  · rintro ⟨⟨op', c, hop, hc, hk⟩, -⟩
    rw [List.getElem?_concat_length, Option.some.injEq] at hop
    exact ⟨c, by rw [hop, hc], hk⟩
  · rintro ⟨c, hc, hk⟩
    refine ⟨⟨op, c, List.getElem?_concat_length, hc, hk⟩, ?_⟩
    intro j op' hij hj _
    have hlen := (List.getElem?_eq_some_iff.mp hj).1
    rw [List.length_append, List.length_singleton] at hlen
    omega

/-- A store keeps what stays and adds its own position. -/
theorem stays_snoc_store {h : List Op} {op : Op} {c : StoreCall} (hop : op.call = some c)
    {k : CacheKey} {i : ℕ} :
    Stays (h ++ [op]) k i ↔ Stays h k i ∨ (i = h.length ∧ c.key = k) := by
  constructor
  · intro hi
    have hlen := stays_lt hi
    rw [List.length_append, List.length_singleton] at hlen
    rcases Nat.lt_or_ge i h.length with hlt | hge
    · exact Or.inl ((stays_snoc_of_lt hlt).mp hi).1
    · obtain rfl : i = h.length := by omega
      obtain ⟨c', hc', hk⟩ := stays_snoc_last.mp hi
      rw [hop, Option.some.injEq] at hc'
      exact Or.inr ⟨rfl, hc' ▸ hk⟩
  · rintro (hi | ⟨rfl, hk⟩)
    · refine (stays_snoc_of_lt (stays_lt hi)).mpr ⟨hi, ?_⟩
      intro hread
      rw [hop] at hread
      cases hread
    · exact stays_snoc_last.mpr ⟨c, hop, hk⟩

/-- A read keeps what stays of the keys that are alive. -/
theorem stays_snoc_read {h : List Op} {op : Op} (hop : op.call = none) {k : CacheKey} {i : ℕ} :
    Stays (h ++ [op]) k i ↔ Stays h k i ∧ ∃ c, latest h k = some c ∧ c.Live op.time := by
  constructor
  · intro hi
    have hlen := stays_lt hi
    rw [List.length_append, List.length_singleton] at hlen
    rcases Nat.lt_or_ge i h.length with hlt | hge
    · obtain ⟨hstays, hlive⟩ := (stays_snoc_of_lt hlt).mp hi
      exact ⟨hstays, hlive hop⟩
    · obtain rfl : i = h.length := by omega
      obtain ⟨c, hc, -⟩ := stays_snoc_last.mp hi
      rw [hop] at hc
      cases hc
  · rintro ⟨hi, hlive⟩
    exact (stays_snoc_of_lt (stays_lt hi)).mpr ⟨hi, fun _ => hlive⟩

theorem Born.snoc_store {h : List Op} {op : Op} {c : StoreCall} (hop : op.call = some c)
    {k : CacheKey} {i : ℕ} (hi : Born h k i) : Born (h ++ [op]) k i := by
  refine ⟨(stays_snoc_store hop).mpr (Or.inl hi.1), ?_⟩
  intro j hj
  rcases (stays_snoc_store hop).mp hj with hj | ⟨rfl, -⟩
  · exact hi.2 hj
  · exact (stays_lt hi.1).le

theorem born_snoc_new {h : List Op} {op : Op} {c : StoreCall} (hop : op.call = some c)
    (hnew : ¬∃ i, Stays h c.key i) : Born (h ++ [op]) c.key h.length := by
  refine ⟨(stays_snoc_store hop).mpr (Or.inr ⟨rfl, rfl⟩), ?_⟩
  intro j hj
  rcases (stays_snoc_store hop).mp hj with hj | ⟨rfl, -⟩
  · exact absurd ⟨j, hj⟩ hnew
  · exact Nat.le_refl _

theorem born_snoc_read {h : List Op} {op : Op} (hop : op.call = none) {k : CacheKey} {i : ℕ}
    (hi : Born h k i) (hlive : ∃ c, latest h k = some c ∧ c.Live op.time) :
    Born (h ++ [op]) k i := by
  refine ⟨(stays_snoc_read hop).mpr ⟨hi.1, hlive⟩, ?_⟩
  intro j hj
  exact hi.2 ((stays_snoc_read hop).mp hj).1

theorem exists_born {h : List Op} {k : CacheKey} (hex : ∃ i, Stays h k i) : ∃ i, Born h k i := by
  classical
  exact ⟨Nat.find hex, Nat.find_spec hex, fun _ hj => Nat.find_min' hex hj⟩

/-- While the latest store is alive, every position from it on has seen the key alive. -/
theorem exists_stays {h : List Op} {k : CacheKey} {c : StoreCall} {t : ℕ}
    (hc : latest h k = some c) (hlive : c.Live t) (htime : ∀ op ∈ h, op.time ≤ t) :
    ∃ i, Stays h k i := by
  induction h using List.reverseRecOn with
  | nil => cases hc
  | append_singleton h op ih =>
      have hrest : ∀ op ∈ h, op.time ≤ t := fun op hop => htime op (List.mem_append_left _ hop)
      cases hop : op.call with
      | none =>
          rw [latest_snoc_read hop] at hc
          obtain ⟨i, hi⟩ := ih hc hrest
          refine ⟨i, (stays_snoc_read hop).mpr ⟨hi, c, hc, ?_⟩⟩
          exact hlive.mono (htime op (List.mem_append_right _ (List.mem_singleton.mpr rfl)))
      | some c' =>
          rw [latest_snoc_store hop] at hc
          by_cases hk : c'.key = k
          · exact ⟨h.length, (stays_snoc_store hop).mpr (Or.inr ⟨rfl, hk⟩)⟩
          · rw [if_neg hk] at hc
            obtain ⟨i, hi⟩ := ih hc hrest
            exact ⟨i, (stays_snoc_store hop).mpr (Or.inl hi)⟩

/-! ## The cache follows -/

/-- The entry holds what the call stored. -/
structure CacheEntry.Holds (e : CacheEntry) (c : StoreCall) : Prop where
  payload : e.payload = c.payload
  description : e.pgnShortDescription = shortDescription c.pgnDescription
  expiry : e.expiresAt = (ttlForPgn c.key.pgn c.isAis).map (c.now + ·)

theorem CacheEntry.Holds.fresh {e : CacheEntry} {c : StoreCall} (h : e.Holds c) (t : ℕ) :
    e.fresh t = true ↔ c.Live t := by
  rw [CacheEntry.fresh, h.expiry, StoreCall.Live]
  cases ttlForPgn c.key.pgn c.isAis <;> simp

/-- The cache holds the latest store of every key that stays, oldest key first. -/
structure Tracks (h : List Op) (st : SnapshotStore) : Prop where
  entry : ∀ k e, (k, e) ∈ st.cache.entries → ∃ c, latest h k = some c ∧ e.Holds c
  present : ∀ k, k ∈ st.cache.keys ↔ ∃ i, Stays h k i
  order : st.cache.keys.Pairwise fun a b => ∃ i j, Born h a i ∧ Born h b j ∧ i < j

theorem Tracks.new (epochInstant : ℕ) (epochWallMs : UInt64) :
    Tracks [] (SnapshotStore.new epochInstant epochWallMs) where
  entry := by
    intro k e hmem
    cases hmem
  present := by
    intro k
    constructor
    · intro hmem
      cases hmem
    · rintro ⟨i, hi⟩
      exact absurd (stays_lt hi) (Nat.not_lt_zero i)
  order := List.Pairwise.nil

theorem entryFor_holds (st : SnapshotStore) (c : StoreCall) : (st.entryFor c).Holds c :=
  ⟨rfl, rfl, rfl⟩

/-- A store writes its key in place, or after all the others. -/
theorem Tracks.store {h : List Op} {st : SnapshotStore} (ht : Tracks h st) {op : Op}
    {c : StoreCall} (hop : op.call = some c) : Tracks (h ++ [op]) (st.storeEntry c) where
  entry := by
    intro k e hmem
    rw [latest_snoc_store hop]
    rcases IndexMap.mem_insert.mp hmem with ⟨rfl, rfl⟩ | ⟨hne, hmem⟩
    · exact ⟨c, if_pos rfl, entryFor_holds st c⟩
    · rw [if_neg (Ne.symm hne)]
      exact ht.entry k e hmem
  present := by
    intro k
    rw [SnapshotStore.storeEntry, IndexMap.insert, IndexMap.keys_upsert]
    simp only [stays_snoc_store hop, exists_or, exists_and_right, exists_eq, true_and,
      ← ht.present k]
    split
    · rename_i hold
      constructor
      · exact Or.inl
      · rintro (hk | rfl)
        · exact hk
        · exact hold
    · rw [List.mem_append, List.mem_singleton, eq_comm]
  order := by
    have hold : st.cache.keys.Pairwise fun a b =>
        ∃ i j, Born (h ++ [op]) a i ∧ Born (h ++ [op]) b j ∧ i < j := by
      refine ht.order.imp ?_
      rintro a b ⟨i, j, hi, hj, hij⟩
      exact ⟨i, j, hi.snoc_store hop, hj.snoc_store hop, hij⟩
    rw [SnapshotStore.storeEntry, IndexMap.insert, IndexMap.keys_upsert]
    split
    · exact hold
    · rename_i hnew
      refine List.pairwise_append.mpr ⟨hold, List.pairwise_singleton _ _, ?_⟩
      intro a ha b hb
      obtain ⟨i, hi⟩ := exists_born ((ht.present a).mp ha)
      rw [List.mem_singleton.mp hb]
      exact ⟨i, h.length, hi.snoc_store hop, born_snoc_new hop (mt (ht.present c.key).mpr hnew),
        stays_lt hi.1⟩

/-- A read drops the keys that are no longer alive. -/
theorem Tracks.read {h : List Op} {st : SnapshotStore} (ht : Tracks h st) {op : Op}
    (hop : op.call = none) : Tracks (h ++ [op]) (st.prune op.time) where
  entry := by
    intro k e hmem
    rw [latest_snoc_read hop]
    exact ht.entry k e (IndexMap.mem_retain.mp hmem).1
  present := by
    intro k
    simp only [stays_snoc_read hop, exists_and_right, ← ht.present k]
    rw [SnapshotStore.prune, IndexMap.mem_keys, IndexMap.mem_keys]
    constructor
    · rintro ⟨e, he⟩
      obtain ⟨hmem, hfresh⟩ := IndexMap.mem_retain.mp he
      obtain ⟨c, hc, hholds⟩ := ht.entry k e hmem
      exact ⟨⟨e, hmem⟩, c, hc, (hholds.fresh _).mp hfresh⟩
    · rintro ⟨⟨e, hmem⟩, c, hc, hlive⟩
      obtain ⟨c', hc', hholds⟩ := ht.entry k e hmem
      rw [hc, Option.some.injEq] at hc'
      exact ⟨e, IndexMap.mem_retain.mpr ⟨hmem, (hholds.fresh _).mpr (hc' ▸ hlive)⟩⟩
  order := by
    have hsub := IndexMap.keys_retain_sublist st.cache fun _ e => e.fresh op.time
    refine (ht.order.sublist hsub).imp_of_mem ?_
    have hlive : ∀ k ∈ (st.prune op.time).cache.keys,
        ∃ c, latest h k = some c ∧ c.Live op.time := by
      intro k hk
      obtain ⟨e, he⟩ := IndexMap.mem_keys.mp hk
      obtain ⟨hmem, hfresh⟩ := IndexMap.mem_retain.mp he
      obtain ⟨c, hc, hholds⟩ := ht.entry k e hmem
      exact ⟨c, hc, (hholds.fresh _).mp hfresh⟩
    rintro a b ha hb ⟨i, j, hi, hj, hij⟩
    exact ⟨i, j, born_snoc_read hop hi (hlive a ha), born_snoc_read hop hj (hlive b hb), hij⟩

theorem Tracks.apply {h : List Op} {st : SnapshotStore} (ht : Tracks h st)
    (pgnDescription : String → Option String) (op : Op) :
    Tracks (h ++ [op]) (st.apply pgnDescription op) := by
  cases op with
  | store input now => exact ht.store (show (Op.store input now).call = _ from rfl)
  | storeLazy key isAis desc render now =>
      exact ht.store (show (Op.storeLazy key isAis desc render now).call = _ from rfl)
  | snapshot now => exact ht.read (show (Op.snapshot now).call = _ from rfl)
  | aisSnapshot now => exact ht.read (show (Op.aisSnapshot now).call = _ from rfl)
  | statusSnapshot now => exact ht.read (show (Op.statusSnapshot now).call = _ from rfl)

/-- Every run is tracked by its history. -/
theorem Tracks.run (pgnDescription : String → Option String) (epochInstant : ℕ)
    (epochWallMs : UInt64) (h : List Op) :
    Tracks h ((SnapshotStore.new epochInstant epochWallMs).run pgnDescription h) := by
  induction h using List.reverseRecOn with
  | nil => exact Tracks.new epochInstant epochWallMs
  | append_singleton h op ih =>
      rw [SnapshotStore.run, List.foldl_append]
      exact ih.apply pgnDescription op

/-! ## Documents -/

def LinePayload.Plain (p : LinePayload) : Prop := camelWrapperId p.render = none

def CacheGroup.doc (g : CacheGroup) : DocGroup where
  pgn := g.1
  description := g.description
  entries := g.2.map fun e => ⟨e.1, e.2.payload.render⟩

/-- A group of plain lines is written with its number, its lines verbatim. -/
theorem CacheGroup.text_plain (pgnDescription : String → Option String) {g : CacheGroup}
    (hplain : ∀ e ∈ g.2, e.2.payload.Plain) : g.text pgnDescription = g.doc.text := by
  have hid : ((g.2.map fun e => (e.1, e.2.payload.render)).head?.bind fun m =>
      camelWrapperId m.2) = none := by
    rw [List.head?_map]
    cases hhead : g.2.head? with
    | none => rfl
    | some e => exact hplain e (List.mem_of_head? hhead)
  rw [CacheGroup.text]
  simp only [hid]
  rw [DocGroup.text, CacheGroup.doc, List.map_map]
  rfl

theorem member_injective {a b : CacheKey} (hpgn : a.pgn = b.pgn) (h : a.member = b.member) :
    a = b := by
  obtain ⟨pgn, src, sec⟩ := a
  obtain ⟨pgn', src', sec'⟩ := b
  have hnone : ∀ (m n : ℕ) (s : String), m.repr ≠ n.repr ++ ("_" ++ s) := by
    intro m n s heq
    refine Names.digits m ?_
    rw [heq, String.toList_append, String.toList_append]
    exact List.mem_append_right _ (List.mem_append_left _ (by decide))
  rw [CacheKey.mk.injEq]
  refine ⟨hpgn, ?_⟩
  cases sec with
  | none =>
      cases sec' with
      | none =>
          simp only [CacheKey.member, Option.map_none, Option.getD_none, String.append_empty] at h
          exact ⟨UInt8.toNat_inj.mp (Nat.repr_injective h), rfl⟩
      | some s =>
          simp only [CacheKey.member, Option.map_none, Option.getD_none, String.append_empty,
            Option.map_some, Option.getD_some] at h
          exact absurd h (hnone _ _ _)
  | some s =>
      cases sec' with
      | none =>
          simp only [CacheKey.member, Option.map_none, Option.getD_none, String.append_empty,
            Option.map_some, Option.getD_some] at h
          exact absurd h.symm (hnone _ _ _)
      | some s' =>
          simp only [CacheKey.member, Option.map_some, Option.getD_some] at h
          obtain ⟨hsrc, hs⟩ := Names.split (Names.digits _) (Names.digits _) h
          exact ⟨UInt8.toNat_inj.mp (Nat.repr_injective hsrc), by rw [hs]⟩

/-- The groups of a tracked cache, after a read's pruning, are what the history calls for. -/
theorem Tracks.faithful {h : List Op} {st : SnapshotStore} (ht : Tracks h st) {t : ℕ}
    (htime : ∀ op ∈ h, op.time ≤ t) {keep : UInt32 → CacheEntry → Bool}
    {kept : StoreCall → Prop}
    (hkeep : ∀ e c, CacheEntry.Holds e c → (keep c.key.pgn e = true ↔ kept c)) :
    Faithful h t kept (((st.prune t).groups keep).map CacheGroup.doc) := by
  have hmem : ∀ g ∈ (st.prune t).groups keep, ∀ e, e ∈ g.2 ↔
      e ∈ st.cache.entries ∧ e.2.fresh t = true ∧ keep e.1.pgn e.2 = true ∧ e.1.pgn = g.1 := by
    rintro ⟨pgn, es⟩ hg e
    rw [(IndexMap.mem_groupBy.mp hg).1, List.mem_filter, List.mem_filter, decide_eq_true_eq,
      SnapshotStore.prune, IndexMap.mem_retain]
    tauto
  have hpair : ((st.prune t).cache.entries.filter fun e => keep e.1.pgn e.2).Pairwise fun a b =>
      ∃ i j, Born h a.1 i ∧ Born h b.1 j ∧ i < j :=
    ((List.pairwise_map.mp ht.order).sublist List.filter_sublist).sublist List.filter_sublist
  constructor
  case lists =>
    intro k payload
    constructor
    · rintro ⟨d, hd, hentry⟩
      obtain ⟨g, hg, rfl⟩ := List.mem_map.mp hd
      obtain ⟨⟨k', e⟩, he, heq⟩ := List.mem_map.mp hentry
      obtain ⟨rfl, rfl⟩ := DocEntry.mk.inj heq
      obtain ⟨hcache, hfresh, hk, -⟩ := (hmem g hg _).mp he
      obtain ⟨c, hc, hholds⟩ := ht.entry k' e hcache
      rw [← (latest_mem hc).1] at hk
      exact ⟨c, hc, (hholds.fresh t).mp hfresh, (hkeep e c hholds).mp hk, by rw [hholds.payload]⟩
    · rintro ⟨c, hc, hlive, hk, rfl⟩
      obtain ⟨e, he⟩ := IndexMap.mem_keys.mp
        ((ht.present k).mpr (exists_stays hc hlive htime))
      obtain ⟨c', hc', hholds⟩ := ht.entry k e he
      obtain rfl : c = c' := Option.some.inj (hc.symm.trans hc')
      have hkeepe : keep k.pgn e = true := by
        rw [← (latest_mem hc).1]
        exact (hkeep e c hholds).mpr hk
      have hfiltered : (k, e) ∈ (st.prune t).cache.entries.filter fun e => keep e.1.pgn e.2 :=
        List.mem_filter.mpr
          ⟨IndexMap.mem_retain.mpr ⟨he, (hholds.fresh t).mpr hlive⟩, hkeepe⟩
      have hown : (k, e) ∈ ((st.prune t).cache.entries.filter fun e => keep e.1.pgn e.2).filter
          fun a => a.1.pgn = k.pgn :=
        List.mem_filter.mpr ⟨hfiltered, decide_eq_true rfl⟩
      refine ⟨CacheGroup.doc (k.pgn, _), List.mem_map_of_mem
        (IndexMap.mem_groupBy.mpr ⟨rfl, List.ne_nil_of_mem hown⟩), ?_⟩
      exact List.mem_map.mpr ⟨(k, e), hown, by rw [hholds.payload]⟩
  case onePgn =>
    intro d hd entry hentry
    obtain ⟨g, hg, rfl⟩ := List.mem_map.mp hd
    obtain ⟨e, he, rfl⟩ := List.mem_map.mp hentry
    exact ((hmem g hg e).mp he).2.2.2
  case oneGroup =>
    rw [List.map_map]
    exact IndexMap.nodup _
  case nonempty =>
    intro d hd
    obtain ⟨g, hg, rfl⟩ := List.mem_map.mp hd
    rw [CacheGroup.doc, ne_eq, List.map_eq_nil_iff]
    exact (IndexMap.mem_groupBy.mp hg).2
  case members =>
    intro d hd
    obtain ⟨g, hg, rfl⟩ := List.mem_map.mp hd
    have hnodup : (g.2.map (·.1)).Nodup := by
      rw [(IndexMap.mem_groupBy.mp hg).1]
      exact (st.prune t).cache.nodup.sublist
        ((List.filter_sublist.trans List.filter_sublist).map _)
    rw [CacheGroup.doc, List.map_map]
    rw [List.Nodup, List.pairwise_map] at hnodup ⊢
    refine hnodup.imp_of_mem ?_
    intro a b ha hb hne heq
    exact hne (member_injective
      (((hmem g hg a).mp ha).2.2.2.trans ((hmem g hg b).mp hb).2.2.2.symm) heq)
  case ordered =>
    intro d hd
    obtain ⟨g, hg, rfl⟩ := List.mem_map.mp hd
    rw [CacheGroup.doc, List.pairwise_map, (IndexMap.mem_groupBy.mp hg).1]
    exact hpair.sublist List.filter_sublist
  case groupsOrdered =>
    rw [List.pairwise_map]
    refine (IndexMap.pairwise_groupBy hpair).imp ?_
    intro g g' hgg a b ha hb
    rw [CacheGroup.doc, List.head?_map, Option.map_eq_some_iff] at ha hb
    obtain ⟨a, ha, rfl⟩ := ha
    obtain ⟨b, hb, rfl⟩ := hb
    exact hgg a b ha hb

/-- The record goes to both ports. -/
def BothPorts (c : StoreCall) : Prop := c.key.pgn = 129026 ∨ c.key.pgn = 129029

def AisDescription (c : StoreCall) : Prop :=
  startsWithAis (shortDescription c.pgnDescription) = true

theorem keepSnapshot_iff (e : CacheEntry) (c : StoreCall) (h : e.Holds c) :
    keepSnapshot c.key.pgn e = true ↔ BothPorts c ∨ ¬AisDescription c := by
  rw [keepSnapshot, h.description, BothPorts, AisDescription]
  simp

theorem keepAis_iff (e : CacheEntry) (c : StoreCall) (h : e.Holds c) :
    keepAis c.key.pgn e = true ↔ BothPorts c ∨ AisDescription c := by
  rw [keepAis, h.description, BothPorts, AisDescription]
  simp

/-- A read of plain records writes a faithful document. -/
theorem Tracks.read_text {h : List Op} {st : SnapshotStore} (ht : Tracks h st) {t : ℕ}
    (htime : ∀ op ∈ h, op.time ≤ t)
    (hplain : ∀ op ∈ h, ∀ c, op.call = some c → c.payload.Plain)
    (pgnDescription : String → Option String) {keep : UInt32 → CacheEntry → Bool}
    {kept : StoreCall → Prop}
    (hkeep : ∀ e c, CacheEntry.Holds e c → (keep c.key.pgn e = true ↔ kept c)) :
    ∃ doc, (st.filteredSnapshot pgnDescription keep t).1 = documentOf doc ∧
      Faithful h t kept doc := by
  refine ⟨_, ?_, ht.faithful htime hkeep⟩
  rw [SnapshotStore.filteredSnapshot, documentOf, List.map_map]
  have htexts : ∀ g ∈ (st.prune t).groups keep,
      g.text pgnDescription = (DocGroup.text ∘ CacheGroup.doc) g := by
    intro g hg
    apply CacheGroup.text_plain
    intro e he
    rw [(IndexMap.mem_groupBy.mp hg).1] at he
    have hcache := List.mem_of_mem_filter (List.mem_of_mem_filter he)
    obtain ⟨c, hc, hholds⟩ := ht.entry e.1 e.2 (IndexMap.mem_retain.mp hcache).1
    obtain ⟨-, op, hop, hcall⟩ := latest_mem hc
    rw [LinePayload.Plain, hholds.payload]
    exact hplain op hop c hcall
  exact congrArg (documentText true) (List.map_congr_left htexts)

/-- The cache is a faithful last-value cache. After any calls whose clocks are not past the
read's, both documents list exactly the live keys of their port, each under its latest
payload, one group for each PGN, keys and groups in the order of birth. -/
theorem snapshot_faithful (pgnDescription : String → Option String) (epochInstant : ℕ)
    (epochWallMs : UInt64) (h : List Op) (t : ℕ) (htime : ∀ op ∈ h, op.time ≤ t)
    (hplain : ∀ op ∈ h, ∀ c, op.call = some c → c.payload.Plain) :
    ∃ doc ais,
      (((SnapshotStore.new epochInstant epochWallMs).run pgnDescription h).snapshot
        pgnDescription t).1 = documentOf doc ∧
      (((SnapshotStore.new epochInstant epochWallMs).run pgnDescription h).aisSnapshot
        pgnDescription t).1 = documentOf ais ∧
      Faithful h t (fun c => BothPorts c ∨ ¬AisDescription c) doc ∧
      Faithful h t (fun c => BothPorts c ∨ AisDescription c) ais ∧
      ∀ k payload, Lists doc k payload ∨ Lists ais k payload ↔
        ∃ c, latest h k = some c ∧ c.Live t ∧ payload = c.payload.render := by
  have ht := Tracks.run pgnDescription epochInstant epochWallMs h
  obtain ⟨doc, hdoc, hfaithful⟩ :=
    ht.read_text htime hplain pgnDescription keepSnapshot_iff
  obtain ⟨ais, hais, hfaithfulAis⟩ := ht.read_text htime hplain pgnDescription keepAis_iff
  refine ⟨doc, ais, hdoc, hais, hfaithful, hfaithfulAis, ?_⟩
  intro k payload
  rw [hfaithful.lists, hfaithfulAis.lists]
  constructor
  · rintro (⟨c, hc, hlive, -, hp⟩ | ⟨c, hc, hlive, -, hp⟩)
    · exact ⟨c, hc, hlive, hp⟩
    · exact ⟨c, hc, hlive, hp⟩
  · rintro ⟨c, hc, hlive, hp⟩
    by_cases hais : AisDescription c
    · exact Or.inr ⟨c, hc, hlive, Or.inr hais, hp⟩
    · exact Or.inl ⟨c, hc, hlive, Or.inr hais, hp⟩

def headingKey : CacheKey := ⟨127250, 1, none⟩

/-- A heading stored twice, around a read. -/
def headingHistory : List Op :=
  [ .store ⟨127250, 1, none, false, "Vessel Heading", "\x7b\"pgn\":127250,\"a\":1\x7d"⟩ 0,
    .snapshot (seconds 1),
    .storeLazy headingKey false "Vessel Heading" (fun _ => "\x7b\"pgn\":127250,\"a\":2\x7d")
      (seconds 2) ]

theorem snapshot_faithful_heading :
    ∃ doc, (((SnapshotStore.new 0 0).run (fun _ => none) headingHistory).snapshot
        (fun _ => none) (seconds 3)).1 = documentOf doc ∧
      Lists doc headingKey "\x7b\"pgn\":127250,\"a\":2\x7d" := by
  have hplain : ∀ op ∈ headingHistory, ∀ c, op.call = some c → c.payload.Plain := by
    have hall : ∀ op ∈ headingHistory, (op.call.map fun c => camelWrapperId c.payload.render) ≠
        some none → op.call = none := by
      decide
    intro op hop c hc
    by_contra hcamel
    have := hall op hop
    rw [hc, Option.map_some, ne_eq, Option.some.injEq] at this
    exact absurd (this hcamel) (Option.some_ne_none c)
  obtain ⟨doc, -, hdoc, -, hfaithful, -, -⟩ := snapshot_faithful (fun _ => none) 0 0
    headingHistory (seconds 3) (by decide) hplain
  refine ⟨doc, hdoc, (hfaithful.lists _ _).mpr ⟨_, rfl, Or.inr ⟨_, rfl, by decide⟩,
    Or.inr ?_, rfl⟩⟩
  change ¬startsWithAis (shortDescription "Vessel Heading") = true
  decide

end Canboat
