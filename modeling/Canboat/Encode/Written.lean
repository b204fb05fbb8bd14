import Canboat.Encode.Layout

/-!
# What a builder has written

The values that pushes leave in the builder, and the payload that it makes of them: the bits of
each field, one field after another.
-/

namespace Canboat

open LittleEndian BitBuffer

variable {F : Type} [Float64 F]

/-! ## Pushes -/

namespace PgnBuilder

/-- A value for the field of an order. -/
structure Push (F : Type) where
  order : UInt8
  id : Identifier
  value : EncodeValue F

/-- Pushes one after another, up to the first that is refused. -/
def pushAll (b : PgnBuilder F) : List (Push F) → Encoded F (PgnBuilder F)
  | [] => .ok b
  | p :: pushes => do pushAll (← b.push p.order p.id p.value) pushes

/-- The value that was pushed last for the field at an index. -/
def lastPushed (pushes : List (Push F)) (idx : ℕ) : Option (EncodeValue F) :=
  (pushes.reverse.find? fun p => p.order.toNat = idx + 1).map (·.value)

/-- A builder holds the values for its fields. -/
structure HoldsValues (b : PgnBuilder F) (values : ℕ → Option (EncodeValue F)) : Prop where
  unset : ∀ idx f, b.pgn.fields[idx]? = some f → values idx = none → b.staged[idx]? = some none
  set : ∀ idx f v, b.pgn.fields[idx]? = some f → values idx = some v →
    ∃ s, stageValue b.db f v = .ok s ∧ b.staged[idx]? = some (some s)

theorem holdsValues_forPgn (db : PgnDatabase F) (pgn : PgnInfo F) :
    (forPgn db pgn).HoldsValues fun _ => none where
  unset := by
    intro idx f hf _
    obtain ⟨hlt, -⟩ := List.getElem?_eq_some_iff.mp hf
    rw [forPgn, List.getElem?_replicate]
    exact if_pos hlt
  set := by
    intro idx f v _ h
    cases h

/-- **One push.** The field that it names holds its value, and the others what they held. -/
theorem HoldsValues.push {b b' : PgnBuilder F} {values : ℕ → Option (EncodeValue F)}
    (h : b.HoldsValues values) {order : UInt8} {id : Identifier} {v : EncodeValue F}
    (hpush : b.push order id v = .ok b') :
    b'.pgn = b.pgn ∧ b'.db = b.db ∧ 1 ≤ order.toNat ∧
      b'.HoldsValues (Function.update values (order.toNat - 1) (some v)) := by
  obtain ⟨f, hpos, hf, hstage⟩ : ∃ f, 1 ≤ order.toNat ∧ b.pgn.fields[order.toNat - 1]? = some f ∧
      b.stage (order.toNat - 1) f v = .ok b' := by
    unfold PgnBuilder.push at hpush
    split at hpush
    · cases hpush
    · cases hpush
    · next f hne hf =>
      refine ⟨f, Nat.one_le_iff_ne_zero.mpr ?_, hf, hpush⟩
      intro hzero
      exact hne (UInt8.toNat_inj.mp hzero)
  rw [stage] at hstage
  cases hs : stageValue b.db f v with
  | error e =>
      rw [hs] at hstage
      cases hstage
  | ok s =>
      rw [hs] at hstage
      cases hstage
      obtain ⟨hlt, -⟩ := List.getElem?_eq_some_iff.mp hf
      rw [← b.aligned] at hlt
      refine ⟨rfl, rfl, hpos, ⟨?_, ?_⟩⟩
      · intro idx g hg hnone
        by_cases hidx : idx = order.toNat - 1
        · rw [hidx, Function.update_self] at hnone
          cases hnone
        · rw [Function.update_of_ne hidx] at hnone
          show (b.staged.set _ _)[idx]? = _
          rw [List.getElem?_set_ne (Ne.symm hidx)]
          exact h.unset idx g hg hnone
      · intro idx g u hg hsome
        by_cases hidx : idx = order.toNat - 1
        · rw [hidx, Function.update_self] at hsome
          have hfield : b.pgn.fields[idx]? = some g := hg
          rw [hidx, hf] at hfield
          rw [← Option.some.inj hfield, ← Option.some.inj hsome]
          refine ⟨s, hs, ?_⟩
          show (b.staged.set _ _)[idx]? = _
          rw [hidx, List.getElem?_set_self hlt]
        · rw [Function.update_of_ne hidx] at hsome
          obtain ⟨t, ht, hstaged⟩ := h.set idx g u hg hsome
          refine ⟨t, ht, ?_⟩
          show (b.staged.set _ _)[idx]? = _
          rw [List.getElem?_set_ne (Ne.symm hidx), hstaged]

/-- **A run of pushes.** Each field holds what was pushed for it last. -/
theorem holdsValues_pushAll {db : PgnDatabase F} {pgn : PgnInfo F} {pushes : List (Push F)}
    {b : PgnBuilder F} (h : (forPgn db pgn).pushAll pushes = .ok b) :
    b.pgn = pgn ∧ b.db = db ∧ b.HoldsValues (lastPushed pushes) := by
  suffices hrun : ∀ (pushes : List (Push F)) (a : PgnBuilder F) (values : ℕ → Option (EncodeValue F)),
      a.HoldsValues values → a.pushAll pushes = .ok b →
      b.pgn = a.pgn ∧ b.db = a.db ∧
        b.HoldsValues fun idx => (lastPushed pushes idx).or (values idx) by
    obtain ⟨hpgn, hdb, hholds⟩ := hrun pushes _ _ (holdsValues_forPgn db pgn) h
    simp only [Option.or_none] at hholds
    exact ⟨hpgn, hdb, hholds⟩
  intro pushes
  induction pushes with
  | nil =>
      intro a values ha hrun
      cases hrun
      exact ⟨rfl, rfl, ha⟩
  | cons p pushes ih =>
      intro a values ha hrun
      rw [pushAll] at hrun
      cases hp : a.push p.order p.id p.value with
      | error e =>
          rw [hp] at hrun
          cases hrun
      | ok a' =>
          rw [hp] at hrun
          obtain ⟨hpgn, hdb, hpos, ha'⟩ := ha.push hp
          obtain ⟨hpgn', hdb', hb⟩ := ih a' _ ha' hrun
          refine ⟨hpgn'.trans hpgn, hdb'.trans hdb, ?_⟩
          have hvalues : (fun idx => (lastPushed (p :: pushes) idx).or (values idx)) =
              fun idx => (lastPushed pushes idx).or
                (Function.update values (p.order.toNat - 1) (some p.value) idx) := by
            funext idx
            rw [lastPushed, lastPushed, List.reverse_cons, List.find?_append, List.find?_singleton]
            cases (pushes.reverse.find? fun q => q.order.toNat = idx + 1) with
            | some q => rfl
            | none =>
                by_cases hidx : p.order.toNat = idx + 1
                · rw [if_pos (decide_eq_true hidx), show p.order.toNat - 1 = idx by omega,
                    Function.update_self]
                  rfl
                · rw [if_neg (by rwa [decide_eq_true_eq]),
                    Function.update_of_ne (by omega : idx ≠ p.order.toNat - 1)]
                  rfl
          rw [hvalues]
          exact hb

end PgnBuilder

/-! ## The payload -/

/-- What the builder writes for a field. -/
def FieldInfo.writes (f : FieldInfo F) : Option Staged → List (ℕ × UInt64)
  | some (.bytes bytes) => byteWrites bytes
  | some (.scalar v) => [((f.bitLength.getD 0).toNat, v)]
  | none =>
      match f.fieldType, f.bitLength with
      | some .stringFix, some bl | some .binary, some bl =>
          byteWrites (List.replicate (bl.toNat / 8) 0xff)
      | some .binary, none => []
      | some .stringLz, _ => [(8, 0)]
      | some .stringLau, _ => [(8, 2), (8, 1)]
      | _, bl => [((bl.getD 0).toNat, defaultRaw f)]

/-- The bits that the builder writes for a field. -/
def FieldInfo.written (f : FieldInfo F) (s : Option Staged) : ℕ := widthOf (f.writes s)

namespace PgnBuilder

variable {b b' : BitBuffer} {f : FieldInfo F}

omit [Float64 F] in
theorem writeField_ok {s : Option Staged} (h : writeField b f s = .ok b') :
    b' = b.writeAll (f.writes s) := by
  cases s with
  | some s =>
      cases s with
      | bytes bytes =>
          cases h
          exact writeBytes_eq bytes
      | scalar v =>
          rw [writeField] at h
          cases hbl : f.bitLength with
          | none =>
              rw [hbl] at h
              cases h
          | some bl =>
              rw [hbl] at h
              cases h
              rw [FieldInfo.writes, hbl]
              rfl
  | none =>
      rw [writeField] at h
      unfold writeUnset at h
      rw [FieldInfo.writes]
      generalize f.bitLength = bl at h ⊢
      generalize f.fieldType = t at h ⊢
      rcases t with - | t
      · cases bl with
        | none => cases h
        | some bl =>
            cases h
            rfl
      · -- each type is an arm of its own, or in the last ones
        cases t <;> cases bl <;>
          first | (cases h; rfl) | (cases h; exact writeBytes_eq _) | cases h

omit [Float64 F] in
/-- The fields are written one after another. -/
theorem writeFields_ok {fields : List (FieldInfo F)} {staged : List (Option Staged)}
    (h : writeFields b fields staged = .ok b') :
    b' = b.writeAll ((fields.zip staged).flatMap fun item => item.1.writes item.2) ∧
      ∀ item ∈ fields.zip staged, ∃ c c', writeField c item.1 item.2 = .ok c' := by
  induction fields generalizing b staged with
  | nil =>
      cases h
      exact ⟨rfl, by simp⟩
  | cons f fields ih =>
      cases staged with
      | nil =>
          cases h
          exact ⟨rfl, by simp⟩
      | cons s staged =>
          rw [writeFields] at h
          cases hfield : writeField b f s with
          | error e =>
              rw [hfield] at h
              cases h
          | ok c =>
              rw [hfield] at h
              obtain ⟨hrest, hitems⟩ := ih h
              refine ⟨?_, ?_⟩
              · rw [hrest, writeField_ok hfield, List.zip_cons_cons, List.flatMap_cons,
                  writeAll_append]
              · rw [List.zip_cons_cons, List.forall_mem_cons]
                exact ⟨⟨b, c, hfield⟩, hitems⟩

/-- Each field with what it holds. -/
def items (b : PgnBuilder F) : List (FieldInfo F × Option Staged) := b.pgn.fields.zip b.staged

/-- Ones to the end of the last byte. -/
def padding (width : ℕ) : List (ℕ × UInt64) :=
  if width % 8 ≠ 0 then [(8 - width % 8, 0xffffffffffffffff)] else []

/-- The writes of fields with what they hold. -/
def itemWrites (items : List (FieldInfo F × Option Staged)) : List (ℕ × UInt64) :=
  items.flatMap fun item => item.1.writes item.2

omit [Float64 F] in
/-- **The payload of a message** is the bits of its fields, and the padding. -/
theorem build_ok {b : PgnBuilder F} {frame : RawFrame} (h : b.build = .ok frame) :
    frame.data = payload (itemWrites b.items ++ padding (widthOf (itemWrites b.items))) ∧
      ∀ item ∈ b.items, ∃ c c', writeField c item.1 item.2 = .ok c' := by
  unfold build at h
  cases hpacked : writeFields .empty b.pgn.fields b.staged with
  | error e =>
      rw [hpacked] at h
      cases h
  | ok packed =>
      obtain ⟨hwrites, hitems⟩ := writeFields_ok hpacked
      change packed = empty.writeAll (itemWrites b.items) at hwrites
      have hnext : packed.nextBit = widthOf (itemWrites b.items) := by
        rw [hwrites, (packed_empty.writeAll_eq _).2.1]
        exact Nat.zero_add _
      rw [hpacked] at h
      dsimp only [bind, Except.bind] at h
      rw [hnext] at h
      refine ⟨?_, hitems⟩
      rw [payload, writeAll_append, ← hwrites, padding]
      by_cases hpart : widthOf (itemWrites b.items) % 8 ≠ 0
      · rw [if_pos hpart] at h ⊢
        split_ifs at h
        cases h
        rfl
      · rw [if_neg hpart] at h ⊢
        split_ifs at h
        cases h
        rfl

end PgnBuilder

end Canboat
