import Mathlib.Data.Nat.Notation

/-!
# Parsers of a stream that comes in pieces

A parser takes outcomes off the front of a buffer until it has to wait for more. Where an outcome
stays what it is whatever comes behind, it does not matter how the stream was cut into pieces.
-/

/-- Outcomes with the length of what they take; `next` is the state behind an outcome. -/
structure Incremental (σ β ε : Type) where
  parse : σ → List β → Option (ε × ℕ)
  next : σ → ε → σ
  consumes : ∀ {s b e n}, parse s b = some (e, n) → 0 < n ∧ n ≤ b.length
  stable : ∀ {s b e n} c, parse s b = some (e, n) → parse s (b ++ c) = some (e, n)

namespace Incremental

variable {σ β ε : Type} (p : Incremental σ β ε)

/-- Outcomes, and the state and the bytes they leave, of at most so many steps. -/
def drainWith : ℕ → σ → List β → List ε × σ × List β
  | 0, s, b => ([], s, b)
  | fuel + 1, s, b =>
      match p.parse s b with
      | none => ([], s, b)
      | some (e, n) =>
          let d := drainWith fuel (p.next s e) (b.drop n)
          (e :: d.1, d.2)

/-- Until more is needed: each outcome takes a byte at least. -/
def drain (s : σ) (b : List β) : List ε × σ × List β := p.drainWith b.length s b

/-- One more piece, behind what the pieces before left. -/
def read (d : List ε × σ × List β) (piece : List β) : List ε × σ × List β :=
  let d' := p.drain d.2.1 (d.2.2 ++ piece)
  (d.1 ++ d'.1, d'.2)

variable {p} {s : σ} {b : List β} {e : ε} {n : ℕ}

theorem drainWith_of_parse_none (h : p.parse s b = none) (fuel : ℕ) :
    p.drainWith fuel s b = ([], s, b) := by
  cases fuel with
  | zero => rfl
  | succ fuel => rw [drainWith, h]

/-- The length of the buffer is as good as any greater bound. -/
theorem drainWith_eq {fuel fuel' : ℕ} (h : b.length ≤ fuel) (h' : b.length ≤ fuel') :
    p.drainWith fuel s b = p.drainWith fuel' s b := by
  induction fuel generalizing s b fuel' with
  | zero =>
      rcases hparse : p.parse s b with - | ⟨e, n⟩
      · rw [drainWith_of_parse_none hparse, drainWith_of_parse_none hparse]
      · obtain ⟨hpos, hle⟩ := p.consumes hparse
        omega
  | succ fuel ih =>
      rcases hparse : p.parse s b with - | ⟨e, n⟩
      · rw [drainWith_of_parse_none hparse, drainWith_of_parse_none hparse]
      · obtain ⟨hpos, hle⟩ := p.consumes hparse
        cases fuel' with
        | zero => omega
        | succ fuel' =>
            have hrest := List.length_drop (i := n) (l := b)
            rw [drainWith, drainWith, hparse]
            dsimp only
            rw [@ih (p.next s e) (b.drop n) fuel' (by omega) (by omega)]

theorem drain_of_parse_none (h : p.parse s b = none) : p.drain s b = ([], s, b) :=
  drainWith_of_parse_none h _

theorem drain_of_parse (h : p.parse s b = some (e, n)) :
    p.drain s b =
      (e :: (p.drain (p.next s e) (b.drop n)).1, (p.drain (p.next s e) (b.drop n)).2) := by
  obtain ⟨hpos, hle⟩ := p.consumes h
  have hrest := List.length_drop (i := n) (l := b)
  have hone : p.drain s b = p.drainWith (b.length + 1) s b :=
    drainWith_eq (Nat.le_refl _) (Nat.le_succ _)
  rw [hone, drainWith, h]
  dsimp only
  rw [drain, drainWith_eq (by omega) (Nat.le_refl _)]

/-- What is drained later comes behind what is drained now. -/
theorem drain_append (s : σ) (b c : List β) : p.drain s (b ++ c) = p.read (p.drain s b) c := by
  generalize hlength : b.length = k
  induction k using Nat.strongRecOn generalizing s b with
  | ind k ih =>
      rcases hparse : p.parse s b with - | ⟨e, n⟩
      · rw [drain_of_parse_none hparse, read, List.nil_append]
      · obtain ⟨hpos, hle⟩ := p.consumes hparse
        rw [drain_of_parse (p.stable c hparse), drain_of_parse hparse, List.drop_append_of_le_length hle,
          ih _ (by rw [List.length_drop]; omega) _ _ rfl]
        rfl

theorem foldl_read (s : σ) (b : List β) (pieces : List (List β)) :
    pieces.foldl p.read (p.drain s b) = p.drain s (b ++ pieces.flatten) := by
  induction pieces generalizing b with
  | nil => rw [List.flatten_nil, List.append_nil, List.foldl_nil]
  | cons piece pieces ih =>
      rw [List.foldl_cons, ← drain_append, ih, List.flatten_cons, List.append_assoc]

theorem parse_nil (s : σ) : p.parse s [] = none := by
  rcases hparse : p.parse s [] with - | ⟨e, n⟩
  · rfl
  · obtain ⟨hpos, hle⟩ := p.consumes hparse
    exact absurd hpos (Nat.not_lt.mpr hle)

/-- A stream in pieces is the stream in one piece. -/
theorem read_pieces (s : σ) (pieces : List (List β)) :
    pieces.foldl p.read ([], s, []) = p.drain s pieces.flatten := by
  have hstart : p.drain s [] = ([], s, []) := drain_of_parse_none (parse_nil s)
  rw [← hstart, foldl_read, List.nil_append]

/-- The outcomes of a beginning of the stream are a beginning of the outcomes. -/
theorem drain_begins (s : σ) {a b : List β} (h : a <+: b) : (p.drain s a).1 <+: (p.drain s b).1 := by
  obtain ⟨c, rfl⟩ := h
  rw [drain_append]
  exact List.prefix_append _ _

/-- Pieces that are an outcome each, from states that stay. -/
theorem drain_flatten {α : Type} {wire : α → List β} {outcome : α → ε} {items : List α}
    (h : ∀ a ∈ items, ∀ c, p.parse s (wire a ++ c) = some (outcome a, (wire a).length))
    (hnext : ∀ a ∈ items, p.next s (outcome a) = s) :
    p.drain s (items.flatMap wire) = (items.map outcome, s, []) := by
  induction items with
  | nil => exact drain_of_parse_none (parse_nil s)
  | cons a items ih =>
      rw [List.forall_mem_cons] at h hnext
      rw [List.flatMap_cons, drain_of_parse (h.1 _), List.drop_left, hnext.1, ih h.2 hnext.2]
      rfl

end Incremental
