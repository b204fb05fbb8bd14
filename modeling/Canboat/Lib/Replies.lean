/-!
# Machines that answer

A machine answers its inputs one by one, or faults. A protocol says which answer each input calls
for, from what it keeps of the inputs before it. A machine that keeps to the protocol on the good
inputs and on no other has followed it over a run exactly if all inputs of the run were good.
-/

variable {ε σ ι ω ρ τ : Type}

/-! ## Along a run -/

/-- Each input is as it should be in the state that the inputs before it lead to. -/
def Along (next : τ → ι → τ) (P : τ → ι → Prop) (t : τ) (inputs : List ι) : Prop :=
  ∀ before i later, inputs = before ++ i :: later → P (before.foldl next t) i

namespace Along

variable {next : τ → ι → τ} {P : τ → ι → Prop} {t : τ} {i : ι} {inputs : List ι}

@[simp] theorem nil : Along next P t [] := by
  intro before i later h
  cases before <;> cases h

theorem cons_iff : Along next P t (i :: inputs) ↔ P t i ∧ Along next P (next t i) inputs := by
  constructor
  · intro h
    refine ⟨h [] i inputs rfl, fun before j later hsplit => ?_⟩
    exact h (i :: before) j later (by rw [hsplit, List.cons_append])
  · rintro ⟨hhead, htail⟩ before j later hsplit
    cases before with
    | nil =>
        cases hsplit
        exact hhead
    | cons k before =>
        cases hsplit
        exact htail before j later rfl

theorem and_iff {Q : τ → ι → Prop} :
    Along next (fun t i => P t i ∧ Q t i) t inputs ↔
      Along next P t inputs ∧ Along next Q t inputs := by
  constructor
  · intro h
    exact ⟨fun before i later hsplit => (h before i later hsplit).1,
      fun before i later hsplit => (h before i later hsplit).2⟩
  · rintro ⟨hp, hq⟩ before i later hsplit
    exact ⟨hp before i later hsplit, hq before i later hsplit⟩

theorem congr {Q : τ → ι → Prop} (h : ∀ t i, P t i ↔ Q t i) :
    Along next P t inputs ↔ Along next Q t inputs := by
  constructor
  · intro hp before i later hsplit
    exact (h _ i).mp (hp before i later hsplit)
  · intro hq before i later hsplit
    exact (h _ i).mpr (hq before i later hsplit)

/-- What does not depend on the inputs before. -/
theorem forall_iff {P : ι → Prop} : Along next (fun _ i => P i) t inputs ↔ ∀ i ∈ inputs, P i := by
  constructor
  · intro h i hi
    obtain ⟨before, later, hsplit⟩ := List.append_of_mem hi
    exact h before i later hsplit
  · rintro h before i later rfl
    exact h i (List.mem_append_right before List.mem_cons_self)

/-- The run lemma in one direction: good inputs keep the invariant, and steps on them are right. -/
theorem of_step {Inv : τ → Prop} {Good : τ → ι → Prop}
    (hstep : ∀ t i, Inv t → Good t i → P t i)
    (hkeep : ∀ t i, Inv t → Good t i → Inv (next t i)) (h : Inv t)
    (hgood : Along next Good t inputs) : Along next P t inputs := by
  induction inputs generalizing t with
  | nil => exact nil
  | cons i inputs ih =>
      obtain ⟨hnow, hlater⟩ := cons_iff.mp hgood
      exact cons_iff.mpr ⟨hstep t i h hnow, ih (hkeep t i h hnow) hlater⟩

/-- The run lemma: if each step in a state of the invariant is right exactly for the good inputs,
and these keep the invariant, then a run is right exactly if its inputs are good. -/
theorem iff_of_step {Inv : τ → Prop} {Good : τ → ι → Prop}
    (hstep : ∀ t i, Inv t → (P t i ↔ Good t i))
    (hkeep : ∀ t i, Inv t → Good t i → Inv (next t i)) (h : Inv t) :
    Along next P t inputs ↔ Along next Good t inputs := by
  induction inputs generalizing t with
  | nil => exact iff_of_true nil nil
  | cons i inputs ih =>
      rw [cons_iff, cons_iff, hstep t i h]
      exact and_congr_right fun hgood => ih (hkeep t i h hgood)

/-- What good inputs keep holds at the end of a run of them. -/
theorem invariant {Inv : τ → Prop} {Good : τ → ι → Prop}
    (hkeep : ∀ t i, Inv t → Good t i → Inv (next t i)) (h : Inv t)
    (hgood : Along next Good t inputs) : Inv (inputs.foldl next t) := by
  induction inputs generalizing t with
  | nil => exact h
  | cons i inputs ih =>
      obtain ⟨hnow, hlater⟩ := cons_iff.mp hgood
      exact ih (hkeep t i h hnow) hlater

end Along

/-! ## Answers -/

/-- The answers to all inputs. -/
def answers (step : σ → ι → Except ε (σ × ω)) : σ → List ι → Except ε (List ω)
  | _, [] => .ok []
  | s, i :: inputs => do
      let (s, w) ← step s i
      let rest ← answers step s inputs
      .ok (w :: rest)

theorem answers_cons_eq_ok {step : σ → ι → Except ε (σ × ω)} {s : σ} {i : ι} {inputs : List ι}
    {ws : List ω} :
    answers step s (i :: inputs) = .ok ws ↔
      ∃ s' w rest, step s i = .ok (s', w) ∧ answers step s' inputs = .ok rest ∧ ws = w :: rest := by
  rw [answers]
  cases hstep : step s i with
  | error e =>
      constructor
      · rintro ⟨⟩
      · rintro ⟨s', w, rest, ⟨⟩, -, -⟩
  | ok out =>
      obtain ⟨s', w⟩ := out
      dsimp only [bind, Except.bind]
      cases hrest : answers step s' inputs with
      | error e =>
          constructor
          · rintro ⟨⟩
          · rintro ⟨_, _, rest, ⟨⟩, hrest', -⟩
            cases hrest.symm.trans hrest'
      | ok rest =>
          constructor
          · rintro ⟨⟩
            exact ⟨s', w, rest, rfl, hrest, rfl⟩
          · rintro ⟨_, _, rest', ⟨⟩, hrest', rfl⟩
            cases hrest.symm.trans hrest'
            rfl

structure Protocol (τ ι ρ : Type) where
  /-- What is kept of an input. -/
  next : τ → ι → τ
  reply : τ → ι → ρ

namespace Protocol

variable (p : Protocol τ ι ρ)

def replies : τ → List ι → List ρ
  | _, [] => []
  | t, i :: inputs => p.reply t i :: replies (p.next t i) inputs

/-- The protocol of what inputs are signs of. -/
def comap {κ : Type} (f : κ → ι) : Protocol τ κ ρ where
  next t k := p.next t (f k)
  reply t k := p.reply t (f k)

variable {p} {Good : τ → ι → Prop}

/-- The run lemma: the machine keeps a relation to what the protocol keeps for as long as the
inputs are good, and the first that is not shows in the answers. -/
theorem answers_eq_replies_iff {step : σ → ι → Except ε (σ × ω)} {view : ω → ρ}
    (Keeps : σ → τ → Prop)
    (hgood : ∀ s t i, Keeps s t → Good t i →
      ∃ s' w, step s i = .ok (s', w) ∧ view w = p.reply t i ∧ Keeps s' (p.next t i))
    (hbad : ∀ s t i, Keeps s t → ¬Good t i →
      ∀ s' w, step s i = .ok (s', w) → view w ≠ p.reply t i)
    {s : σ} {t : τ} (h : Keeps s t) (inputs : List ι) :
    (∃ ws, answers step s inputs = .ok ws ∧ ws.map view = p.replies t inputs) ↔
      Along p.next Good t inputs := by
  induction inputs generalizing s t with
  | nil => exact iff_of_true ⟨[], rfl, rfl⟩ Along.nil
  | cons i inputs ih =>
      rw [Along.cons_iff]
      by_cases hi : Good t i
      · obtain ⟨s', w, hstep, hview, hkeeps⟩ := hgood s t i h hi
        rw [and_iff_right hi, ← ih hkeeps]
        constructor
        · rintro ⟨ws, hws, hmap⟩
          obtain ⟨_, _, rest, hstep', hrest, rfl⟩ := answers_cons_eq_ok.mp hws
          cases hstep.symm.trans hstep'
          exact ⟨rest, hrest, (List.cons.inj hmap).2⟩
        · rintro ⟨rest, hrest, hmap⟩
          refine ⟨w :: rest, answers_cons_eq_ok.mpr ⟨s', w, rest, hstep, hrest, rfl⟩, ?_⟩
          rw [List.map_cons, hview, hmap, replies]
      · refine iff_of_false ?_ fun hall => hi hall.1
        rintro ⟨ws, hws, hmap⟩
        obtain ⟨s', w, rest, hstep, -, rfl⟩ := answers_cons_eq_ok.mp hws
        exact hbad s t i h hi s' w hstep (List.cons.inj hmap).1

end Protocol
