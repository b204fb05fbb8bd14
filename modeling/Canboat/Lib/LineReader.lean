import Canboat.Lib.Replies
import Mathlib.Data.Nat.Notation

/-!
# Readers of lines

A reader puts the pieces of a stream together, hands out the lines that have ended and keeps the
line that has not. What it gives depends on the stream alone and not on its pieces.
-/

variable {α β γ ε σ τ : Type}

/-- Takes the lines that have ended off a text. What comes behind it does not change them. -/
structure LineCutter (α : Type) where
  cut : List α → List (List α) × List α
  cut_append : ∀ s t, cut (s ++ t) =
    ((cut s).1 ++ (cut ((cut s).2 ++ t)).1, (cut ((cut s).2 ++ t)).2)

/-- The lines one by one, with what each gives. -/
def runLines (line : σ → List α → Except ε (σ × List β)) :
    σ → List (List α) → Except ε (σ × List β)
  | s, [] => .ok (s, [])
  | s, l :: lines => do
      let (s, out) ← line s l
      let (s, later) ← runLines line s lines
      .ok (s, out ++ later)

theorem runLines_append {line : σ → List α → Except ε (σ × List β)} (s : σ)
    (lines later : List (List α)) :
    runLines line s (lines ++ later) = (do
      let (s, out) ← runLines line s lines
      let (s, out') ← runLines line s later
      .ok (s, out ++ out')) := by
  induction lines generalizing s with
  | nil =>
      rw [List.nil_append]
      change _ = runLines line s later >>= fun r => .ok (r.1, r.2)
      cases runLines line s later <;> rfl
  | cons l lines ih =>
      rw [List.cons_append, runLines, runLines]
      cases line s l with
      | error e => rfl
      | ok first =>
          change (runLines line first.1 (lines ++ later) >>= fun r => _) = _
          rw [ih]
          change _ = ((runLines line first.1 lines >>= fun r => .ok (r.1, first.2 ++ r.2)) >>= _)
          cases runLines line first.1 lines with
          | error e => rfl
          | ok second =>
              change ((runLines line second.1 later >>= fun r => .ok (r.1, second.2 ++ r.2)) >>=
                fun r => .ok (r.1, first.2 ++ r.2)) =
                runLines line second.1 later >>= fun r => .ok (r.1, (first.2 ++ second.2) ++ r.2)
              cases runLines line second.1 later with
              | error e => rfl
              | ok third =>
                  change Except.ok (third.1, first.2 ++ (second.2 ++ third.2)) =
                    Except.ok (third.1, (first.2 ++ second.2) ++ third.2)
                  rw [List.append_assoc]

/-- The state with the outputs as they are looked at. -/
def viewed (view : β → γ) (r : Except ε (σ × List β)) : Except ε (σ × List γ) :=
  r.map fun (s, out) => (s, out.map view)

theorem viewed_runLines {view : β → γ} {line : σ → List α → Except ε (σ × List β)}
    {plain : σ → List α → Except ε (σ × List γ)} (h : ∀ s l, viewed view (line s l) = plain s l)
    (s : σ) (lines : List (List α)) : viewed view (runLines line s lines) = runLines plain s lines := by
  induction lines generalizing s with
  | nil => rfl
  | cons l lines ih =>
      rw [runLines, runLines, ← h]
      cases line s l with
      | error e => rfl
      | ok first =>
          change viewed view (runLines line first.1 lines >>= fun r => .ok (r.1, first.2 ++ r.2)) =
            runLines plain first.1 lines >>= fun r => .ok (r.1, first.2.map view ++ r.2)
          rw [← ih]
          cases runLines line first.1 lines with
          | error e => rfl
          | ok second =>
              exact congrArg (fun out => Except.ok (second.1, out)) List.map_append

/-- A machine with other states and inputs that answers the same. -/
theorem answers_map {σ' ι ι' ω : Type} {step : σ → ι → Except ε (σ × ω)}
    {step' : σ' → ι' → Except ε (σ' × ω)} {f : σ → σ'} {g : ι' → ι}
    (h : ∀ s i, step' (f s) i = (step s (g i)).map fun (s, w) => (f s, w)) (s : σ)
    (inputs : List ι') : answers step' (f s) inputs = answers step s (inputs.map g) := by
  induction inputs generalizing s with
  | nil => rfl
  | cons i inputs ih =>
      rw [List.map_cons, answers, answers, h]
      cases step s (g i) with
      | error e => rfl
      | ok out =>
          change (answers step' (f out.1) inputs >>= fun rest => .ok (out.2 :: rest)) = _
          rw [ih]
          rfl

namespace LineCutter

variable (c : LineCutter α)

/-- The text holds no line that has ended. -/
def Unended (text : List α) : Prop := c.cut text = ([], text)

/-- What is kept holds no line. -/
theorem unended_rest (s : List α) : c.Unended (c.cut s).2 := by
  have h := c.cut_append s []
  rw [List.append_nil, List.append_nil] at h
  have hlines : (c.cut (c.cut s).2).1 = [] := List.append_right_eq_self.mp (congrArg Prod.fst h).symm
  exact Prod.ext hlines (congrArg Prod.snd h).symm

/-- One more piece, which comes with something of its own. -/
def read (line : τ → σ → List α → Except ε (σ × List β)) (d : σ × List α) (piece : τ × List α) :
    Except ε ((σ × List α) × List β) := do
  let (lines, rest) := c.cut (d.2 ++ piece.2)
  let (s, out) ← runLines (line piece.1) d.1 lines
  .ok ((s, rest), out)

variable {c} {view : β → γ} {line : τ → σ → List α → Except ε (σ × List β)}
  {plain : σ → List α → Except ε (σ × List γ)}

/-- **The stream decides.** What a reader gives is what the lines of the stream give, if what comes
with the pieces is not looked at. -/
theorem answers_read (hview : ∀ t s l, viewed view (line t s l) = plain s l) {s : σ}
    {acc : List α} (hacc : c.Unended acc) (pieces : List (τ × List α)) :
    (answers (c.read line) (s, acc) pieces).map (fun outs => outs.flatten.map view) =
      (runLines plain s (c.cut (acc ++ pieces.flatMap (·.2))).1).map (·.2) := by
  induction pieces generalizing s acc with
  | nil =>
      rw [List.flatMap_nil, List.append_nil, hacc]
      rfl
  | cons piece pieces ih =>
      have hrun := viewed_runLines (hview piece.1) s (c.cut (acc ++ piece.2)).1
      have hih := fun s' => ih (s := s') (c.unended_rest (acc ++ piece.2))
      rw [List.flatMap_cons, ← List.append_assoc, c.cut_append, runLines_append, ← hrun]
      change (answers (c.read line) (s, acc) (piece :: pieces)).map _ = _
      rw [answers, read]
      generalize c.cut (acc ++ piece.2) = parts at *
      dsimp only
      cases runLines (line piece.1) s parts.1 with
      | error e => rfl
      | ok out =>
          have hlater := hih out.1
          change (answers (c.read line) (out.1, parts.2) pieces >>= fun rest =>
            .ok (out.2 :: rest)).map _ =
            (runLines plain out.1 (c.cut (parts.2 ++ pieces.flatMap (·.2))).1 >>= fun r =>
              .ok (r.1, out.2.map view ++ r.2)).map (·.2)
          generalize answers (c.read line) (out.1, parts.2) pieces = outs at hlater ⊢
          generalize runLines plain out.1 (c.cut (parts.2 ++ pieces.flatMap (·.2))).1 = later at hlater ⊢
          cases outs with
          | error e =>
              cases later with
              | error e' => cases hlater; rfl
              | ok r => cases hlater
          | ok outs =>
              cases later with
              | error e' => cases hlater
              | ok r =>
                  have hout : outs.flatten.map view = r.2 := Except.ok.inj hlater
                  change Except.ok ((out.2 :: outs).flatten.map view) = Except.ok (out.2.map view ++ r.2)
                  rw [List.flatten_cons, List.map_append, hout]

end LineCutter

/-! ## Readers that hand out a text -/

/-- What a run of reads owes: no read is longer than asked for, the reads are a beginning of the
text, and the first empty one comes when the text is out. -/
structure HandsOut (text : List α) (sizes : List ℕ) (outs : List (List α)) : Prop where
  count : outs.length = sizes.length
  short : ∀ r ∈ sizes.zip outs, r.2.length ≤ r.1
  sofar : outs.flatten <+: text
  whole : [] ∈ outs → outs.flatten = text
  done : text.length < sizes.length → [] ∈ outs

/-- A read hands out a beginning of what is left, and nothing only if nothing is left. -/
structure Pulls (read : σ → ℕ → Except ε (σ × List α)) (Inv : σ → Prop) (left : σ → List α) :
    Prop where
  step : ∀ s n, Inv s → 0 < n → ∃ s' out, read s n = .ok (s', out) ∧ Inv s' ∧
    left s = out ++ left s' ∧ out.length ≤ n ∧ (out = [] → left s = [])

/-- **Any sizes.** However the reads are cut, they hand out what is left. -/
theorem Pulls.answers {read : σ → ℕ → Except ε (σ × List α)} {Inv : σ → Prop} {left : σ → List α}
    (h : Pulls read Inv left) {s : σ} (hs : Inv s) {sizes : List ℕ} (hpos : ∀ n ∈ sizes, 0 < n) :
    ∃ outs, answers read s sizes = .ok outs ∧ HandsOut (left s) sizes outs := by
  induction sizes generalizing s with
  | nil => exact ⟨[], rfl, rfl, nofun, List.nil_prefix, nofun, nofun⟩
  | cons n sizes ih =>
      obtain ⟨hn, hsizes⟩ := List.forall_mem_cons.mp hpos
      obtain ⟨s', out, hread, hs', hleft, hshort, hempty⟩ := h.step s n hs hn
      obtain ⟨outs, houts, hrest⟩ := ih hs' hsizes
      refine ⟨out :: outs, answers_cons_eq_ok.mpr ⟨s', out, outs, hread, houts, rfl⟩, ?_⟩
      rw [hleft]
      constructor
      · rw [List.length_cons, List.length_cons, hrest.count]
      · rw [List.zip_cons_cons, List.forall_mem_cons]
        exact ⟨hshort, hrest.short⟩
      · rw [List.flatten_cons]
        exact (List.prefix_append_right_inj out).mpr hrest.sofar
      · intro hmem
        rw [List.flatten_cons]
        rcases List.mem_cons.mp hmem with rfl | hlater
        · -- after an empty read nothing is left to hand out
          have hnone : left s' = [] := by rw [← List.nil_append (left s'), ← hleft, hempty rfl]
          have hsofar := hrest.sofar
          rw [hnone] at hsofar ⊢
          rw [List.prefix_nil.mp hsofar]
        · rw [hrest.whole hlater]
      · intro hlong
        rw [List.length_append, List.length_cons] at hlong
        cases out with
        | nil => exact List.mem_cons_self
        | cons a out =>
            rw [List.length_cons] at hlong
            exact List.mem_cons_of_mem _ (hrest.done (by omega))
