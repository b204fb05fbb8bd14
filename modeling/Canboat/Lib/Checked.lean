import Mathlib.Data.Int.Notation
import Mathlib.Data.List.Basic

/-!
# Computations that may fault

A program in a language with checked slices and checked arithmetic ends with a result, with an
error of its own, or by a fault. `Returns` says that it does not fault; the rules below take a
computation apart along its binds.
-/

inductive Fault
  | index
  | boundary
  | overflow
deriving DecidableEq, Repr

/-- Errors of type `ε` are results that the program means to give. -/
abbrev Checked (ε : Type) : Type → Type := ExceptT ε (Except Fault)

/-- A chain of steps comes to its end if each step does. -/
theorem Fault.ok_bind_iff {α β : Type} {x : Except Fault α} {f : α → Except Fault β} :
    (∃ b, (x >>= f) = .ok b) ↔ ∃ a, x = .ok a ∧ ∃ b, f a = .ok b := by
  cases x with
  | error e => exact iff_of_false nofun nofun
  | ok a =>
      constructor
      · intro h
        exact ⟨a, rfl, h⟩
      · rintro ⟨_, ⟨⟩, h⟩
        exact h

/-- A chain of steps has a result through a result of its first step. -/
theorem Fault.bind_ok_iff {α β : Type} {x : Except Fault α} {f : α → Except Fault β} {b : β} :
    (x >>= f) = .ok b ↔ ∃ a, x = .ok a ∧ f a = .ok b := by
  cases x with
  | error e => exact iff_of_false nofun nofun
  | ok a =>
      constructor
      · intro h
        exact ⟨a, rfl, h⟩
      · rintro ⟨_, ⟨⟩, h⟩
        exact h

theorem Fault.ok_ite {α : Type} {c : Prop} [Decidable c] {x y : Except Fault α}
    (hx : ∃ a, x = .ok a) (hy : ∃ a, y = .ok a) : ∃ a, (if c then x else y) = .ok a := by
  split_ifs
  · exact hx
  · exact hy

namespace Checked

variable {ε α β : Type}

/-- A step that may fault. -/
def check (x : Except Fault α) : Checked ε α := ExceptT.lift x

/-- An error where there is no value. -/
def orError (o : Option α) (e : ε) : Checked ε α :=
  match o with
  | some a => pure a
  | none => throw e

def Returns (x : Checked ε α) : Prop := ∃ r, x.run = .ok r

@[simp] theorem returns_pure (a : α) : Returns (pure a : Checked ε α) := ⟨.ok a, rfl⟩

@[simp] theorem returns_throw (e : ε) : Returns (throw e : Checked ε α) := ⟨.error e, rfl⟩

@[simp] theorem returns_orError (o : Option α) (e : ε) : Returns (orError o e) := by
  cases o with
  | none => exact returns_throw e
  | some a => exact returns_pure a

@[simp] theorem returns_check {x : Except Fault α} :
    Returns (check x : Checked ε α) ↔ ∃ a, x = .ok a := by
  cases x with
  | error f => exact iff_of_false nofun nofun
  | ok a => exact iff_of_true ⟨.ok a, rfl⟩ ⟨a, rfl⟩

/-- What comes after a step matters only for the results that the step has. -/
theorem returns_bind {x : Checked ε α} {f : α → Checked ε β} :
    Returns (x >>= f) ↔ Returns x ∧ ∀ a, x.run = .ok (.ok a) → Returns (f a) := by
  cases hx : x.run with
  | error e =>
      have hbind : (x >>= f).run = .error e := by
        rw [ExceptT.run_bind, hx]
        rfl
      refine iff_of_false ?_ ?_
      · rintro ⟨r, hr⟩
        cases hbind.symm.trans hr
      · rintro ⟨⟨r, hr⟩, -⟩
        cases hx.symm.trans hr
  | ok r =>
      have hreturns : Returns x := ⟨r, hx⟩
      cases r with
      | error e =>
          have hbind : (x >>= f).run = .ok (.error e) := by
            rw [ExceptT.run_bind, hx]
            rfl
          exact iff_of_true ⟨_, hbind⟩ ⟨hreturns, nofun⟩
      | ok a =>
          have hbind : (x >>= f).run = (f a).run := by
            rw [ExceptT.run_bind, hx]
            rfl
          rw [and_iff_right hreturns]
          constructor
          · rintro ⟨r, hr⟩ _ ⟨⟩
            exact ⟨r, hbind.symm.trans hr⟩
          · intro h
            obtain ⟨r, hr⟩ := h a rfl
            exact ⟨r, hbind.trans hr⟩

@[simp] theorem returns_map {x : Checked ε α} {f : α → β} : Returns (f <$> x) ↔ Returns x := by
  rw [map_eq_pure_bind, returns_bind, and_iff_left fun a _ => returns_pure (f a)]

@[simp] theorem returns_orError_bind {o : Option α} {e : ε} {f : α → Checked ε β} :
    Returns (orError o e >>= f) ↔ ∀ a ∈ o, Returns (f a) := by
  rw [returns_bind, and_iff_right (returns_orError o e)]
  cases o with
  | none => exact iff_of_true nofun nofun
  | some a =>
      constructor
      · rintro h _ ⟨⟩
        exact h a rfl
      · rintro h _ ⟨⟩
        exact h a rfl

@[simp] theorem returns_check_bind {x : Except Fault α} {f : α → Checked ε β} :
    Returns (check x >>= f) ↔ ∃ a, x = .ok a ∧ Returns (f a) := by
  rw [returns_bind, returns_check]
  constructor
  · rintro ⟨⟨a, rfl⟩, h⟩
    exact ⟨a, rfl, h a rfl⟩
  · rintro ⟨a, rfl, h⟩
    refine ⟨⟨a, rfl⟩, ?_⟩
    rintro _ ⟨⟩
    exact h

theorem returns_ite {c : Prop} [Decidable c] {x y : Checked ε α} :
    Returns (if c then x else y) ↔ (c → Returns x) ∧ (¬c → Returns y) := by
  split_ifs with hc
  · exact ⟨fun h => ⟨fun _ => h, fun hn => absurd hc hn⟩, fun h => h.1 hc⟩
  · exact ⟨fun h => ⟨fun hp => absurd hp hc, fun _ => h⟩, fun h => h.2 hc⟩

/-- An error before the rest. -/
theorem returns_ite_throw {c : Prop} [Decidable c] {e : ε} {x : Checked ε α} :
    Returns (if c then throw e else x) ↔ (¬c → Returns x) := by
  rw [returns_ite, and_iff_right fun _ => returns_throw e]

theorem returns_foldlM {f : β → α → Checked ε β} (h : ∀ b a, Returns (f b a)) (l : List α) (b : β) :
    Returns (l.foldlM f b) := by
  induction l generalizing b with
  | nil => exact returns_pure b
  | cons a l ih =>
      rw [List.foldlM_cons, returns_bind]
      exact ⟨h b a, fun b' _ => ih b'⟩

theorem returns_forM {f : α → Checked ε PUnit} (h : ∀ a, Returns (f a)) (l : List α) :
    Returns (l.forM f) := by
  induction l with
  | nil => exact returns_pure _
  | cons a l ih =>
      change Returns (f a >>= fun _ => l.forM f)
      rw [returns_bind]
      exact ⟨h a, fun _ _ => ih⟩

/-- Steps that do not fault may be skipped. -/
theorem returns_bind_of_left {x : Checked ε α} {f : α → Checked ε β} (hx : Returns x)
    (hf : ∀ a, Returns (f a)) : Returns (x >>= f) := returns_bind.mpr ⟨hx, fun a _ => hf a⟩

/-! ### Values -/

theorem pure_inj {a b : α} : (pure a : Checked ε α) = pure b ↔ a = b := by
  constructor
  · intro h
    exact Except.ok.inj (Except.ok.inj h)
  · rintro rfl
    rfl

theorem throw_ne_pure (e : ε) (a : α) : (throw e : Checked ε α) ≠ pure a := nofun

/-- A chain of steps has a value through the values of its steps. -/
theorem bind_eq_pure {x : Checked ε α} {f : α → Checked ε β} {b : β} :
    x >>= f = pure b ↔ ∃ a, x = pure a ∧ f a = pure b := by
  constructor
  · intro h
    match x, h with
    | .ok (.ok a), h => exact ⟨a, rfl, h⟩
    | .ok (.error e), h => cases h
    | .error e, h => cases h
  · rintro ⟨a, rfl, h⟩
    exact h

theorem orError_eq_pure {o : Option α} {e : ε} {a : α} :
    (orError o e = pure a) ↔ o = some a := by
  cases o with
  | none => exact iff_of_false nofun nofun
  | some b => rw [orError, pure_inj, Option.some.injEq]

theorem check_eq_pure {x : Except Fault α} {a : α} :
    (check x : Checked ε α) = pure a ↔ x = .ok a := by
  cases x with
  | error e => exact iff_of_false nofun nofun
  | ok b =>
      constructor
      · intro h
        exact congrArg Except.ok (Except.ok.inj (Except.ok.inj h))
      · rintro ⟨⟩
        rfl

theorem ite_throw_eq_pure {c : Prop} [Decidable c] {e : ε} {x : Checked ε α} {a : α} :
    (if c then throw e else x) = pure a ↔ ¬c ∧ x = pure a := by
  split_ifs with hc
  · exact iff_of_false (throw_ne_pure e a) fun h => h.1 hc
  · exact (and_iff_right hc).symm

/-- What does not fault ends with a value or with an error. -/
theorem Returns.cases {x : Checked ε α} (h : Returns x) :
    (∃ a, x = pure a) ∨ ∃ e, x = throw e := by
  obtain ⟨r, hr⟩ := h
  cases r with
  | ok a => exact .inl ⟨a, hr⟩
  | error e => exact .inr ⟨e, hr⟩

/-- Only the values of a step go on. -/
theorem bind_congr_pure {x : Checked ε α} {f g : α → Checked ε β}
    (h : ∀ a, x = pure a → f a = g a) : x >>= f = x >>= g := by
  match x, h with
  | .ok (.ok a), h => exact h a rfl
  | .ok (.error e), _ => rfl
  | .error e, _ => rfl

end Checked

/-! ## Arithmetic -/

/-- A result of unsigned arithmetic, up to the largest number of its type. -/
def checkedNat (max n : ℕ) : Except Fault ℕ := if n ≤ max then .ok n else .error .overflow

def checkedSub (a b : ℕ) : Except Fault ℕ := if b ≤ a then .ok (a - b) else .error .overflow

def checkedInt (lo hi n : ℤ) : Except Fault ℤ :=
  if lo ≤ n ∧ n ≤ hi then .ok n else .error .overflow

theorem checkedNat_of_le {max n : ℕ} (h : n ≤ max) : checkedNat max n = .ok n := if_pos h

theorem checkedNat_ok_iff {max n m : ℕ} : checkedNat max n = .ok m ↔ n ≤ max ∧ m = n := by
  rw [checkedNat]
  split_ifs with h
  · rw [Except.ok.injEq, eq_comm, and_iff_right h]
  · exact iff_of_false nofun fun hn => h hn.1

theorem checkedSub_ok_iff {a b c : ℕ} : checkedSub a b = .ok c ↔ b ≤ a ∧ c = a - b := by
  rw [checkedSub]
  split_ifs with h
  · rw [Except.ok.injEq, eq_comm, and_iff_right h]
  · exact iff_of_false nofun fun hn => h hn.1

theorem checkedInt_ok {lo hi n : ℤ} (hlo : lo ≤ n) (hhi : n ≤ hi) : checkedInt lo hi n = .ok n :=
  if_pos ⟨hlo, hhi⟩

/-! ## Slices of bytes -/

def byteAt {α : Type} (l : List α) (i : ℕ) : Except Fault α :=
  match l[i]? with
  | some b => .ok b
  | none => .error .index

def slice {α : Type} (l : List α) (lo hi : ℕ) : Except Fault (List α) :=
  if lo ≤ hi ∧ hi ≤ l.length then .ok ((l.take hi).drop lo) else .error .index

theorem byteAt_of_lt {α : Type} {l : List α} {i : ℕ} (h : i < l.length) :
    byteAt l i = .ok l[i] := by
  rw [byteAt, List.getElem?_eq_getElem h]

theorem slice_of_le {α : Type} {l : List α} {lo hi : ℕ} (hlo : lo ≤ hi) (hhi : hi ≤ l.length) :
    slice l lo hi = .ok ((l.take hi).drop lo) := if_pos ⟨hlo, hhi⟩

/-! ## Slices of text -/

/-- The length of text in UTF-8. -/
def byteLen : List Char → ℕ
  | [] => 0
  | c :: s => c.utf8Size + byteLen s

/-- So many bytes of the text end with a character. -/
def Boundary (s : List Char) (k : ℕ) : Prop := ∃ a b, s = a ++ b ∧ byteLen a = k

/-- The text before and after a byte position. -/
def splitAtByte : List Char → ℕ → Except Fault (List Char × List Char)
  | s, 0 => .ok ([], s)
  | [], _ + 1 => .error .index
  | c :: s, k + 1 =>
      if c.utf8Size ≤ k + 1 then
        match splitAtByte s (k + 1 - c.utf8Size) with
        | .ok (a, b) => .ok (c :: a, b)
        | .error e => .error e
      else .error .boundary

/-- `&s[lo..hi]`. -/
def sliceText (s : List Char) (lo hi : ℕ) : Except Fault (List Char) :=
  if hi < lo then .error .index
  else do
    let (before, _) ← splitAtByte s hi
    let (_, text) ← splitAtByte before lo
    pure text

theorem byteLen_append (a b : List Char) : byteLen (a ++ b) = byteLen a + byteLen b := by
  induction a with
  | nil => rw [List.nil_append, byteLen, Nat.zero_add]
  | cons c a ih => rw [List.cons_append, byteLen, byteLen, ih, Nat.add_assoc]

theorem splitAtByte_of_append (a b : List Char) : splitAtByte (a ++ b) (byteLen a) = .ok (a, b) := by
  induction a with
  | nil => rw [List.nil_append, byteLen, splitAtByte]
  | cons c a ih =>
      have hpos := c.utf8Size_pos
      obtain ⟨k, hk⟩ : ∃ k, byteLen (c :: a) = k + 1 :=
        ⟨c.utf8Size + byteLen a - 1, by rw [byteLen]; omega⟩
      have hrest : k + 1 - c.utf8Size = byteLen a := by rw [← hk, byteLen, Nat.add_sub_cancel_left]
      rw [hk, List.cons_append, splitAtByte, if_pos (by rw [← hk, byteLen]; omega), hrest, ih]

theorem splitAtByte_ok {s a b : List Char} {k : ℕ} (h : splitAtByte s k = .ok (a, b)) :
    s = a ++ b ∧ byteLen a = k := by
  induction s generalizing a b k with
  | nil =>
      cases k with
      | zero =>
          cases h
          exact ⟨rfl, rfl⟩
      | succ k => cases h
  | cons c s ih =>
      cases k with
      | zero =>
          cases h
          exact ⟨rfl, rfl⟩
      | succ k =>
          rw [splitAtByte] at h
          split_ifs at h with hsize
          cases hrest : splitAtByte s (k + 1 - c.utf8Size) with
          | error e =>
              rw [hrest] at h
              cases h
          | ok r =>
              rw [hrest] at h
              obtain ⟨a', b'⟩ := r
              cases h
              obtain ⟨rfl, hlen⟩ := ih hrest
              exact ⟨rfl, by rw [byteLen, hlen]; omega⟩

theorem splitAtByte_returns_iff {s : List Char} {k : ℕ} :
    (∃ r, splitAtByte s k = .ok r) ↔ Boundary s k := by
  constructor
  · rintro ⟨⟨a, b⟩, h⟩
    obtain ⟨hs, hk⟩ := splitAtByte_ok h
    exact ⟨a, b, hs, hk⟩
  · rintro ⟨a, b, rfl, rfl⟩
    exact ⟨(a, b), splitAtByte_of_append a b⟩

instance (s : List Char) (k : ℕ) : Decidable (Boundary s k) :=
  match h : splitAtByte s k with
  | .ok r => .isTrue (splitAtByte_returns_iff.mp ⟨r, h⟩)
  | .error _ => .isFalse fun hb => by
      obtain ⟨r, hr⟩ := splitAtByte_returns_iff.mpr hb
      cases h.symm.trans hr

theorem eq_nil_of_byteLen {s : List Char} (h : byteLen s = 0) : s = [] := by
  cases s with
  | nil => rfl
  | cons c s =>
      have hpos := c.utf8Size_pos
      rw [byteLen] at h
      omega

/-- A boundary of the text that lies before a part of it. -/
theorem Boundary.of_append {a b : List Char} {k : ℕ} (h : Boundary (a ++ b) k)
    (hk : k ≤ byteLen a) : Boundary a k := by
  obtain ⟨x, y, hxy, rfl⟩ := h
  obtain ⟨t, rfl, -⟩ | ⟨t, rfl, -⟩ := List.append_eq_append_iff.mp hxy
  · rw [byteLen_append] at hk
    have ht : t = [] := eq_nil_of_byteLen (by omega)
    exact ⟨a, [], by rw [List.append_nil], by rw [ht, List.append_nil]⟩
  · exact ⟨x, t, rfl, rfl⟩

theorem Boundary.append {a : List Char} {k : ℕ} (h : Boundary a k) (b : List Char) :
    Boundary (a ++ b) k := by
  obtain ⟨x, y, rfl, hk⟩ := h
  exact ⟨x, y ++ b, List.append_assoc x y b, hk⟩

theorem sliceText_returns_iff {s : List Char} {lo hi : ℕ} (hle : lo ≤ hi) :
    (∃ t, sliceText s lo hi = .ok t) ↔ Boundary s lo ∧ Boundary s hi := by
  rw [sliceText, if_neg (Nat.not_lt_of_le hle)]
  cases hhi : splitAtByte s hi with
  | error e =>
      refine iff_of_false (by rintro ⟨t, ⟨⟩⟩) fun h => ?_
      obtain ⟨r, hr⟩ := splitAtByte_returns_iff.mpr h.2
      cases hhi.symm.trans hr
  | ok r =>
      obtain ⟨before, after⟩ := r
      obtain ⟨rfl, hlen⟩ := splitAtByte_ok hhi
      have hbound : Boundary (before ++ after) hi := ⟨before, after, rfl, hlen⟩
      have hlo : Boundary (before ++ after) lo ↔ Boundary before lo :=
        ⟨fun h => h.of_append (hlen ▸ hle), fun h => h.append after⟩
      rw [and_iff_left hbound, hlo, ← splitAtByte_returns_iff]
      dsimp only [bind, Except.bind]
      cases splitAtByte before lo with
      | error e => exact iff_of_false (by rintro ⟨t, ⟨⟩⟩) (by rintro ⟨t, ⟨⟩⟩)
      | ok r => exact iff_of_true ⟨r.2, rfl⟩ ⟨r, rfl⟩

/-- From a boundary to the end. -/
theorem sliceText_append (a b : List Char) :
    sliceText (a ++ b) (byteLen a) (byteLen (a ++ b)) = .ok b := by
  have hall : splitAtByte (a ++ b) (byteLen (a ++ b)) = .ok (a ++ b, []) := by
    simpa only [List.append_nil] using splitAtByte_of_append (a ++ b) []
  rw [sliceText, if_neg (by rw [byteLen_append]; omega), hall]
  dsimp only [bind, Except.bind]
  rw [splitAtByte_of_append]
  rfl
