import Mathlib.Algebra.BigOperators.Group.List.Basic
import Mathlib.Algebra.Ring.Nat

/-!
# Draining a queue

Work that makes more work. Each item is taken from the front of a queue, and what comes of it goes
to the end. Where the state has enough to pay for what it puts in, the queue runs empty.
-/

namespace Canboat.Drain

variable {State Item Tick : Type}

/-- An item for each tick, until there is none. -/
def drain (step : Tick → State → Item → State × List Item) :
    List Tick → State → List Item → State × List Item
  | tick :: ticks, s, item :: queue =>
      drain step ticks (step tick s item).1 (queue ++ (step tick s item).2)
  | _, s, queue => (s, queue)

/-- What the items of a queue weigh. -/
def load (weight : Item → ℕ) (queue : List Item) : ℕ := (queue.map weight).sum

@[simp] theorem load_nil (weight : Item → ℕ) : load weight [] = 0 := rfl

@[simp] theorem load_cons (weight : Item → ℕ) (item : Item) (queue : List Item) :
    load weight (item :: queue) = weight item + load weight queue := by
  rw [load, List.map_cons, List.sum_cons, load]

@[simp] theorem load_append (weight : Item → ℕ) (a b : List Item) :
    load weight (a ++ b) = load weight a + load weight b := by
  rw [load, List.map_append, List.sum_append, load, load]

/-- Items that weigh one each. -/
theorem load_eq_length {weight : Item → ℕ} {queue : List Item} (h : ∀ item ∈ queue, weight item = 1) :
    load weight queue = queue.length := by
  induction queue with
  | nil => rfl
  | cons item queue ih =>
      obtain ⟨hitem, hqueue⟩ := List.forall_mem_cons.mp h
      rw [load_cons, List.length_cons, ih hqueue, hitem, Nat.add_comm]

/-- Items of the same weights. -/
theorem load_map {weight : Item → ℕ} {f : Item → Item} (h : ∀ item, weight (f item) = weight item)
    (queue : List Item) : load weight (queue.map f) = load weight queue := by
  rw [load, load, List.map_map]
  congr 1
  exact List.map_congr_left fun item _ => h item

/-- What comes of a step is fine, and paid for by the state and the share that the step is given. -/
structure Spends (Fine : Item → Prop) (potential : State → ℕ) (weight : Item → ℕ) (s : State)
    (share : ℕ) (res : State × List Item) : Prop where
  fine : ∀ out ∈ res.2, Fine out
  pays : potential res.1 + load weight res.2 ≤ potential s + share

namespace Spends

variable {Fine : Item → Prop} {potential : State → ℕ} {weight : Item → ℕ} {s s' : State}
  {share : ℕ} {res : State × List Item}

/-- A step without output that costs nothing. -/
theorem idle (hpays : potential s' ≤ potential s) (share : ℕ) :
    Spends Fine potential weight s share (s', []) :=
  ⟨nofun, Nat.add_le_add hpays (Nat.zero_le _)⟩

theorem mono (h : Spends Fine potential weight s share res) {share' : ℕ} (hle : share ≤ share') :
    Spends Fine potential weight s share' res :=
  ⟨h.fine, Nat.le_trans h.pays (Nat.add_le_add_left hle _)⟩

theorem trans (h : Spends Fine potential weight s share res) {share' : ℕ}
    {res' : State × List Item} (h' : Spends Fine potential weight res.1 share' res') :
    Spends Fine potential weight s (share + share') (res'.1, res.2 ++ res'.2) := by
  constructor
  · intro out hout
    rcases List.mem_append.mp hout with hout | hout
    · exact h.fine out hout
    · exact h'.fine out hout
  · have hfirst := h.pays
    have hsecond := h'.pays
    rw [load_append]
    dsimp only
    omega

/-- The output in another form. -/
theorem map (h : Spends Fine potential weight s share res) {f : Item → Item}
    (hfine : ∀ item, Fine item → Fine (f item)) (hweight : ∀ item, weight (f item) = weight item) :
    Spends Fine potential weight s share (res.1, res.2.map f) := by
  constructor
  · intro out hout
    obtain ⟨item, hitem, rfl⟩ := List.mem_map.mp hout
    exact hfine item (h.fine item hitem)
  · rw [load_map hweight]
    exact h.pays

end Spends

/-- A step on an item gives less than it takes: the potential of the state and the weights of the
items go down by one at least. It keeps what holds of the states and of the items. -/
structure Pays (step : Tick → State → Item → State × List Item) (tick : Tick)
    (Good : State → Prop) (Fine : Item → Prop) (potential : State → ℕ) (weight : Item → ℕ) : Prop where
  good : ∀ s item, Good s → Fine item → Good (step tick s item).1
  fine : ∀ s item, Good s → Fine item → ∀ out ∈ (step tick s item).2, Fine out
  pays : ∀ s item, Good s → Fine item →
    potential (step tick s item).1 + load weight (step tick s item).2 + 1 ≤
      potential s + weight item

/-- **The queue runs empty**, in no more steps than the potential and the weights add up to. -/
theorem drain_eq_nil {step : Tick → State → Item → State × List Item} {Good : State → Prop}
    {Fine : Item → Prop} {potential : State → ℕ} {weight : Item → ℕ} {ticks : List Tick}
    (hweight : ∀ item, 1 ≤ weight item)
    (hpays : ∀ tick ∈ ticks, Pays step tick Good Fine potential weight) {s : State}
    {queue : List Item} (hs : Good s) (hqueue : ∀ item ∈ queue, Fine item)
    (hmany : potential s + load weight queue ≤ ticks.length) :
    (drain step ticks s queue).2 = [] := by
  induction ticks generalizing s queue with
  | nil =>
      cases queue with
      | nil => rfl
      | cons item queue =>
          have := hweight item
          rw [load_cons, List.length_nil] at hmany
          omega
  | cons tick ticks ih =>
      cases queue with
      | nil => rfl
      | cons item queue =>
          obtain ⟨hpay, hpays⟩ := List.forall_mem_cons.mp hpays
          obtain ⟨hitem, hqueue⟩ := List.forall_mem_cons.mp hqueue
          have hless := hpay.pays s item hs hitem
          rw [load_cons, List.length_cons] at hmany
          rw [drain]
          refine ih hpays (hpay.good s item hs hitem) ?_ ?_
          · intro out hout
            rcases List.mem_append.mp hout with hold | hnew
            · exact hqueue out hold
            · exact hpay.fine s item hs hitem out hnew
          · rw [load_append]
            omega

end Canboat.Drain
