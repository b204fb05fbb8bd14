import Canboat.Build.Dispatch
import Canboat.Lib.Names
import Mathlib.Data.List.Induction

/-!
# The generated dispatch is its reference

The reference names no range, no variable and no table: it picks a definition straight
from the list. The generated program computes the same index for every payload, and the
generator produces a program unless a variable name cannot be written.
-/

namespace Canboat.Build

/-! ## The reference selection -/

/-- The Match field reads its match value out of the payload. -/
def RawField.matched (payload : List UInt8) (f : RawField) : Bool :=
  (f.range?.map fun r => r.extract payload == f.matchValue).getD false

/-- At least one Match field, and all of them match. -/
def RawPgn.selected (payload : List UInt8) (p : RawPgn) : Bool :=
  !p.matchFields.isEmpty && p.matchFields.all (·.matched payload)

/-- The definitions of one PGN number, in declaration order. -/
def variantsOf (pgns : List RawPgn) (pgn : UInt32) : List VariantEntry :=
  pgns.zipIdx.filter fun v => v.1.pgn == pgn

def specificOf (variants : List VariantEntry) : Option ℕ :=
  (variants.find? fun v => v.1.matchFields.isEmpty && !v.1.isFallback).map (·.2)

def catchallOf (variants : List VariantEntry) : Option ℕ :=
  (variants.find? fun v => v.1.matchFields.isEmpty && v.1.isFallback).map (·.2)

def matchOf (payload : List UInt8) (variants : List VariantEntry) : Option ℕ :=
  (variants.find? fun v => v.1.selected payload).map (·.2)

/-- The last fallback definition, in table order, whose PGN is at most `pgn`. -/
def rangeFallback (pgns : List RawPgn) (pgn : UInt32) : Option ℕ :=
  (pgns.zipIdx.filter fun v => v.1.isFallback && decide (v.1.pgn ≤ pgn)).getLast?.map (·.2)

/-- What the generated code is to select. -/
def reference (pgns : List RawPgn) (pgn : UInt32) (payload : List UInt8) : Option ℕ :=
  (matchOf payload (variantsOf pgns pgn)).or
    ((specificOf (variantsOf pgns pgn)).or
      ((catchallOf (variantsOf pgns pgn)).or (rangeFallback pgns pgn)))

/-- What the field reads, if it is read at all, has an offset with a negation. -/
def RawField.Nameable (f : RawField) : Prop :=
  ∀ r, f.range? = some r → r.offK ≠ Int64.minValue

def RawPgn.Nameable (p : RawPgn) : Prop :=
  ∀ f ∈ p.matchFields, f.Nameable

/-! ## Variable names -/

theorem offsetName_eq_none {k : Int64} : offsetName k = none ↔ k = Int64.minValue := by
  unfold offsetName
  constructor
  · intro h
    split at h
    · split at h
      · assumption
      · cases h
    · cases h
  · rintro rfl
    decide

theorem digits_no_n (n : ℕ) : 'n' ∉ n.repr.toList := by
  rw [Nat.toList_repr]
  intro h
  exact absurd (Nat.isDigit_of_mem_toDigits (by decide) (by decide) h) (by decide)

theorem offsetName_injective {a b : Int64} {k : String} (ha : offsetName a = some k)
    (hb : offsetName b = some k) : a = b := by
  have key : ∀ c : Int64, offsetName c = some k →
      (c.toInt < 0 ∧ k = "n" ++ (-c.toInt).toNat.repr) ∨
        (0 ≤ c.toInt ∧ k = c.toInt.toNat.repr) := by
    intro c hc
    unfold offsetName at hc
    have hlt : c < 0 ↔ c.toInt < 0 := Int64.lt_iff_toInt_lt
    split at hc
    · split at hc
      · cases hc
      · exact Or.inl ⟨hlt.mp ‹_›, (Option.some.inj hc).symm⟩
    · rename_i hneg
      exact Or.inr ⟨Int.not_lt.mp (mt hlt.mpr hneg), (Option.some.inj hc).symm⟩
  have mixed : ∀ m n : ℕ, "n" ++ m.repr ≠ n.repr := by
    intro m n h
    refine digits_no_n n ?_
    rw [← h, String.toList_append]
    exact List.mem_append_left _ (List.mem_singleton.mpr rfl)
  apply Int64.toInt_inj.mp
  rcases key a ha with ⟨hna, hka⟩ | ⟨hpa, hka⟩
  · rcases key b hb with ⟨hnb, hkb⟩ | ⟨-, hkb⟩
    · rw [hka, String.append_right_inj] at hkb
      have := Nat.repr_injective hkb
      omega
    · exact absurd (hka.symm.trans hkb) (mixed _ _)
  · rcases key b hb with ⟨-, hkb⟩ | ⟨hpb, hkb⟩
    · exact absurd (hkb.symm.trans hka) (mixed _ _)
    · have := Nat.repr_injective (hka.symm.trans hkb)
      omega

/-- A variable name determines the range it was made from. -/
theorem varName_injective {r s : Range} {name : String} (hr : r.varName = some name)
    (hs : s.varName = some name) : r = s := by
  obtain ⟨k, hk, hr⟩ := Option.map_eq_some_iff.mp hr
  obtain ⟨l, hl, hs⟩ := Option.map_eq_some_iff.mp hs
  have hsign : ∀ b : Bool, '_' ∉ (if b then "s" else "u").toList := by decide
  have letter : ∀ b c : Bool, (if b then "s" else "u") = (if c then "s" else "u") → b = c := by
    decide
  obtain ⟨hoff, h⟩ := Names.split (Names.digits _) (Names.digits _)
    (String.append_right_inj "m_" |>.mp (hr.trans hs.symm))
  obtain ⟨hlen, h⟩ := Names.split (Names.digits _) (Names.digits _) h
  obtain ⟨hsigned, h⟩ := Names.split (hsign _) (hsign _) h
  have hoffK := offsetName_injective (h ▸ hk) hl
  cases r with
  | mk off len signed offK =>
      cases s with
      | mk off' len' signed' offK' =>
          rw [Range.mk.injEq]
          exact ⟨Nat.repr_injective hoff, Nat.repr_injective hlen, letter _ _ hsigned, hoffK⟩

/-! ## Bindings -/

theorem emitLet_eq_some {r : Range} {l : Let} :
    emitLet r = some l ↔ r.varName = some l.name ∧ l.range = r := by
  unfold emitLet
  rw [Option.map_eq_some_iff]
  constructor
  · rintro ⟨name, hname, rfl⟩
    exact ⟨hname, rfl⟩
  · rintro ⟨hname, hrange⟩
    exact ⟨l.name, hname, by rw [← hrange]⟩

/-- The bindings are those of the ranges. -/
theorem emitLets_spec {rs : List Range} {ls : List Let} (h : emitLets rs = some ls) :
    (∀ l ∈ ls, ∃ r ∈ rs, emitLet r = some l) ∧ ∀ r ∈ rs, ∃ l ∈ ls, emitLet r = some l := by
  induction rs generalizing ls with
  | nil =>
      rw [emitLets, Option.some.injEq] at h
      rw [← h]
      constructor
      · intro l hl
        cases hl
      · intro r hr
        cases hr
  | cons r rs ih =>
      rw [emitLets] at h
      cases hl : emitLet r with
      | none => rw [hl] at h; cases h
      | some l =>
          cases hls : emitLets rs with
          | none => rw [hl, hls] at h; cases h
          | some ls' =>
              rw [hl, hls, Option.some.injEq] at h
              obtain ⟨hback, hforth⟩ := ih hls
              rw [← h]
              constructor
              · intro l' hl'
                rcases List.mem_cons.mp hl' with rfl | hl'
                · exact ⟨r, List.mem_cons_self, hl⟩
                · obtain ⟨r', hr', hlet⟩ := hback l' hl'
                  exact ⟨r', List.mem_cons_of_mem _ hr', hlet⟩
              · intro r' hr'
                rcases List.mem_cons.mp hr' with rfl | hr'
                · exact ⟨l, List.mem_cons_self, hl⟩
                · obtain ⟨l', hl', hlet⟩ := hforth r' hr'
                  exact ⟨l', List.mem_cons_of_mem _ hl', hlet⟩

/-- Under the bindings of the function, the name of an extracted range holds what the
range extracts. -/
theorem lookup_lets {payload : List UInt8} {r : Range} {name : String}
    (hname : r.varName = some name) {ls : List Let}
    (hls : ∀ l ∈ ls, l.range.varName = some l.name) (hmem : ∃ l ∈ ls, l.range = r) :
    (ls.foldl (Env.bind payload) []).lookup name = some (r.extract payload) := by
  induction ls using List.reverseRecOn with
  | nil =>
      obtain ⟨l, hl, -⟩ := hmem
      cases hl
  | append_singleton ls l ih =>
      rw [List.foldl_append, List.foldl_cons, List.foldl_nil, Env.bind, List.lookup_cons]
      have hl := hls l (List.mem_append_right _ (List.mem_singleton.mpr rfl))
      by_cases heq : name = l.name
      · rw [← heq] at hl
        rw [heq, beq_self_eq_true, varName_injective hl hname]
      · rw [beq_false_of_ne heq]
        apply ih
        · intro l' hl'
          exact hls l' (List.mem_append_left _ hl')
        · obtain ⟨l', hl', hr⟩ := hmem
          rcases List.mem_append.mp hl' with h | h
          · exact ⟨l', h, hr⟩
          · rw [List.mem_singleton.mp h] at hr
            rw [hr, hname, Option.some.injEq] at hl
            exact absurd hl heq

/-- The names of the ranges the fields read are bound to what these extract. -/
def Bound (env : Env) (payload : List UInt8) (fields : List RawField) : Prop :=
  ∀ f ∈ fields, ∀ r name, f.range? = some r → r.varName = some name →
    env.lookup name = some (r.extract payload)

/-! ## Conditions -/

theorem varName_isSome {r : Range} (h : r.offK ≠ Int64.minValue) :
    ∃ name, r.varName = some name := by
  obtain ⟨k, hk⟩ := Option.ne_none_iff_exists'.mp (mt offsetName_eq_none.mp h)
  exact ⟨_, by rw [Range.varName, hk]; rfl⟩

theorem emitOperand_spec {f : RawField} (hmatch : f.matchValue.isSome) (hname : f.Nameable) :
    ∃ o, emitOperand f = some o ∧
      ∀ env payload, Bound env payload [f] → o.eval env = some (f.matched payload) := by
  obtain ⟨v, hv⟩ := Option.isSome_iff_exists.mp hmatch
  cases hr : f.range? with
  | none =>
      refine ⟨.lit, by rw [emitOperand, hr], ?_⟩
      intro env payload _
      rw [RawField.matched, hr]
      rfl
  | some r =>
      obtain ⟨name, hn⟩ := varName_isSome (hname r hr)
      refine ⟨.eqSome name v, ?_, ?_⟩
      · rw [emitOperand, hr, hv]
        simp only
        rw [hn]
        rfl
      · intro env payload hbound
        rw [Operand.eval, hbound f (List.mem_singleton.mpr rfl) r name hr hn,
          RawField.matched, hr, hv]
        rfl

/-- After the first condition each one is written with the conjunction before it. -/
theorem emitConditions_false {f : RawField} {fs : List RawField} {tokens : List Token}
    (h : emitConditions true true (f :: fs) = some (tokens, true)) :
    emitConditions false true (f :: fs) = some (.andAnd :: tokens, true) := by
  rw [emitConditions] at h ⊢
  cases ho : emitOperand f with
  | none => rw [ho] at h; cases h
  | some o =>
      cases hfs : emitConditions false true fs with
      | none => rw [ho, hfs] at h; cases h
      | some rest =>
          rw [ho, hfs] at h
          simp only [if_true, List.nil_append, Option.some.injEq, Prod.mk.injEq] at h
          simp [← h.1, h.2]

/-- A conjunction is written, and it says that every Match field matches. -/
theorem emitConditions_spec {fields : List RawField} (hne : fields ≠ [])
    (hmatch : ∀ f ∈ fields, f.matchValue.isSome) (hname : ∀ f ∈ fields, f.Nameable)
    (e : Bool) :
    ∃ tokens, emitConditions true e fields = some (tokens, true) ∧
      ∀ env payload, Bound env payload fields →
        evalCondition env tokens = some (fields.all (·.matched payload)) := by
  induction fields generalizing e with
  | nil => exact absurd rfl hne
  | cons f fs ih =>
      obtain ⟨o, ho, heval⟩ := emitOperand_spec (hmatch f List.mem_cons_self)
        (hname f List.mem_cons_self)
      have hhead : ∀ env payload, Bound env payload (f :: fs) → Bound env payload [f] := by
        intro env payload hbound g hg
        rw [List.mem_singleton.mp hg]
        exact hbound f List.mem_cons_self
      cases fs with
      | nil =>
          refine ⟨[.operand o], by rw [emitConditions, ho, emitConditions]; rfl, ?_⟩
          intro env payload hbound
          rw [evalCondition, heval env payload hbound, List.all_cons, List.all_nil, Bool.and_true]
      | cons g gs =>
          obtain ⟨tokens, htokens, hrest⟩ := ih (List.cons_ne_nil _ _)
            (fun x hx => hmatch x (List.mem_cons_of_mem _ hx))
            (fun x hx => hname x (List.mem_cons_of_mem _ hx)) true
          refine ⟨.operand o :: .andAnd :: tokens, ?_, ?_⟩
          · rw [emitConditions, ho, emitConditions_false htokens]
            rfl
          · intro env payload hbound
            rw [evalCondition, heval env payload (hhead env payload hbound),
              hrest env payload fun x hx => hbound x (List.mem_cons_of_mem _ hx)]
            simp only [List.all_cons]

/-! ## Functions -/

theorem matchFields_isSome {p : RawPgn} : ∀ f ∈ p.matchFields, f.matchValue.isSome := by
  intro f hf
  exact (List.mem_filter.mp hf).2

theorem matchOf_cons (payload : List UInt8) (v : VariantEntry) (vs : List VariantEntry) :
    matchOf payload (v :: vs) = if v.1.selected payload then some v.2 else matchOf payload vs := by
  rw [matchOf, List.find?_cons]
  cases v.1.selected payload <;> rfl

theorem specificOf_cons (v : VariantEntry) (vs : List VariantEntry) :
    specificOf (v :: vs) =
      if v.1.matchFields.isEmpty && !v.1.isFallback then some v.2 else specificOf vs := by
  rw [specificOf, List.find?_cons]
  cases v.1.matchFields.isEmpty && !v.1.isFallback <;> rfl

theorem catchallOf_cons (v : VariantEntry) (vs : List VariantEntry) :
    catchallOf (v :: vs) =
      if v.1.matchFields.isEmpty && v.1.isFallback then some v.2 else catchallOf vs := by
  rw [catchallOf, List.find?_cons]
  cases v.1.matchFields.isEmpty && v.1.isFallback <;> rfl

theorem selected_of_matchFields {payload : List UInt8} {p : RawPgn}
    (h : p.matchFields.isEmpty = true) : p.selected payload = false := by
  rw [RawPgn.selected, h]
  rfl

/-- The arms find the first variant that matches; what is returned after them is what was
set aside before the loop or, failing that, what the loop sets aside. -/
theorem emitVariants_spec {vs : List VariantEntry} (hname : ∀ v ∈ vs, v.1.Nameable)
    (specific catchall : Option ℕ) :
    ∃ arms, emitVariants vs specific catchall =
        some (arms, (specific.or (specificOf vs)).or (catchall.or (catchallOf vs))) ∧
      ∀ env payload, (∀ v ∈ vs, Bound env payload v.1.matchFields) →
        ∀ result, runArms env arms result = some ((matchOf payload vs).or result) := by
  induction vs generalizing specific catchall with
  | nil =>
      refine ⟨[], ?_, ?_⟩
      · rw [emitVariants, specificOf, catchallOf]
        simp
      · intro env payload _ result
        rw [runArms, matchOf]
        rfl
  | cons v vs ih =>
      obtain ⟨p, idx⟩ := v
      have hrest : ∀ v ∈ vs, v.1.Nameable := fun v hv => hname v (List.mem_cons_of_mem _ hv)
      cases hempty : p.matchFields.isEmpty with
      | true =>
          have hskip : ∀ payload, matchOf payload ((p, idx) :: vs) = matchOf payload vs := by
            intro payload
            rw [matchOf_cons, selected_of_matchFields hempty]
            rfl
          cases hfb : p.isFallback with
          | true =>
              obtain ⟨arms, harms, hrun⟩ := ih hrest specific (catchall.or (some idx))
              refine ⟨arms, ?_, ?_⟩
              · rw [emitVariants, if_pos hempty, if_pos hfb, harms, specificOf_cons,
                  catchallOf_cons]
                simp [hempty, hfb]
              · intro env payload hbound result
                rw [hskip, hrun env payload fun v hv => hbound v (List.mem_cons_of_mem _ hv)]
          | false =>
              obtain ⟨arms, harms, hrun⟩ := ih hrest (specific.or (some idx)) catchall
              refine ⟨arms, ?_, ?_⟩
              · rw [emitVariants, if_pos hempty, if_neg (by simp [hfb]), harms,
                  specificOf_cons, catchallOf_cons]
                simp [hempty, hfb]
              · intro env payload hbound result
                rw [hskip, hrun env payload fun v hv => hbound v (List.mem_cons_of_mem _ hv)]
      | false =>
          obtain ⟨arms, harms, hrun⟩ := ih hrest specific catchall
          obtain ⟨tokens, htokens, heval⟩ := emitConditions_spec
            (fun h => by rw [h] at hempty; cases hempty) (matchFields_isSome (p := p))
            (hname _ List.mem_cons_self) false
          refine ⟨⟨tokens, some idx⟩ :: arms, ?_, ?_⟩
          · rw [emitVariants, if_neg (by rw [hempty]; exact Bool.false_ne_true), htokens, harms,
              specificOf_cons, catchallOf_cons]
            simp [hempty]
          · intro env payload hbound result
            rw [runArms, heval env payload (hbound _ List.mem_cons_self),
              hrun env payload fun v hv => hbound v (List.mem_cons_of_mem _ hv), matchOf_cons,
              RawPgn.selected, hempty]
            simp only [Bool.not_false, Bool.true_and]
            split <;> rfl

theorem mem_ranges {variants : List VariantEntry} {r : Range} :
    r ∈ ranges variants ↔ ∃ v ∈ variants, ∃ f ∈ v.1.matchFields, f.range? = some r := by
  rw [ranges, List.mem_mergeSort, List.mem_dedup, List.mem_flatMap]
  simp only [List.mem_filterMap]

theorem emitLets_isSome {rs : List Range} :
    (∃ ls, emitLets rs = some ls) ↔ ∀ r ∈ rs, r.offK ≠ Int64.minValue := by
  induction rs with
  | nil => simp [emitLets]
  | cons r rs ih =>
      rw [List.forall_mem_cons, ← ih, emitLets]
      have hlet : emitLet r = none ↔ r.offK = Int64.minValue := by
        rw [emitLet, Option.map_eq_none_iff, Range.varName, Option.map_eq_none_iff,
          offsetName_eq_none]
      cases hl : emitLet r with
      | none => simp [hlet.mp hl]
      | some l =>
          have hne : r.offK ≠ Int64.minValue := by
            rw [ne_eq, ← hlet, hl]
            exact Option.some_ne_none l
          cases emitLets rs <;> simp [hne]

/-- The bindings of the function give every range the variants read. -/
theorem bound_lets {variants : List VariantEntry} {ls : List Let}
    (hls : emitLets (ranges variants) = some ls) (payload : List UInt8) :
    ∀ v ∈ variants, Bound (ls.foldl (Env.bind payload) []) payload v.1.matchFields := by
  intro v hv f hf r name hr hname
  obtain ⟨hback, hforth⟩ := emitLets_spec hls
  apply lookup_lets hname
  · intro l hl
    obtain ⟨r', -, hlet⟩ := hback l hl
    rw [(emitLet_eq_some.mp hlet).2]
    exact (emitLet_eq_some.mp hlet).1
  · obtain ⟨l, hl, hlet⟩ := hforth r (mem_ranges.mpr ⟨v, hv, f, hf, hr⟩)
    exact ⟨l, hl, (emitLet_eq_some.mp hlet).2⟩

/-- A function is emitted exactly when every variable name can be written. -/
theorem emitPerPgnDispatch_isSome {variants : List VariantEntry} :
    (∃ f, emitPerPgnDispatch variants = some f) ↔ ∀ v ∈ variants, v.1.Nameable := by
  constructor
  · rintro ⟨f, hf⟩ v hv field hfield r hr
    rw [emitPerPgnDispatch] at hf
    cases hls : emitLets (ranges variants) with
    | none => rw [hls] at hf; cases hf
    | some ls =>
        exact emitLets_isSome.mp ⟨ls, hls⟩ r (mem_ranges.mpr ⟨v, hv, field, hfield, hr⟩)
  · intro hname
    obtain ⟨ls, hls⟩ := emitLets_isSome.mpr fun r hr => by
      obtain ⟨v, hv, f, hf, hfr⟩ := mem_ranges.mp hr
      exact hname v hv f hf r hfr
    obtain ⟨arms, harms, -⟩ := emitVariants_spec hname none none
    exact ⟨_, by rw [emitPerPgnDispatch, hls, harms]⟩

/-- What an emitted function selects. -/
theorem emitPerPgnDispatch_run {variants : List VariantEntry} {f : DispatchFn}
    (hf : emitPerPgnDispatch variants = some f) (payload : List UInt8) :
    f.run payload = some ((matchOf payload variants).or
      ((specificOf variants).or (catchallOf variants))) := by
  have hname := emitPerPgnDispatch_isSome.mp ⟨f, hf⟩
  obtain ⟨arms, harms, hrun⟩ := emitVariants_spec hname none none
  rw [emitPerPgnDispatch, harms] at hf
  cases hls : emitLets (ranges variants) with
  | none => rw [hls] at hf; cases hf
  | some ls =>
      rw [hls, Option.some.injEq] at hf
      rw [← hf, DispatchFn.run, hrun _ payload (bound_lets hls payload), Option.none_or,
        Option.none_or]

/-! ## The top level -/

theorem lookup_of_mem {α β : Type*} [BEq α] [LawfulBEq α] {l : List (α × β)}
    (hkeys : l.Pairwise fun a b => a.1 ≠ b.1) {k : α} {v : β} (h : (k, v) ∈ l) :
    l.lookup k = some v := by
  induction l with
  | nil => cases h
  | cons e l ih =>
      obtain ⟨hhead, htail⟩ := List.pairwise_cons.mp hkeys
      rw [List.lookup_cons]
      rcases List.mem_cons.mp h with rfl | hmem
      · rw [beq_self_eq_true]
      · rw [beq_false_of_ne (Ne.symm (hhead _ hmem))]
        exact ih htail hmem

/-- The positions of one PGN number among the definitions from position `i` on. -/
def positions (pgn : UInt32) (i : ℕ) (ps : List RawPgn) : List ℕ :=
  ((ps.zipIdx i).filter fun v => v.1.pgn == pgn).map (·.2)

theorem positions_cons (pgn : UInt32) (i : ℕ) (p : RawPgn) (ps : List RawPgn) :
    positions pgn i (p :: ps) =
      if p.pgn = pgn then i :: positions pgn (i + 1) ps else positions pgn (i + 1) ps := by
  rw [positions, List.zipIdx_cons, List.filter_cons]
  by_cases h : p.pgn = pgn
  · rw [if_pos (beq_iff_eq.mpr h), if_pos h]
    rfl
  · rw [if_neg (mt beq_iff_eq.mp h), if_neg h]
    rfl

/-- The index lists the positions of each PGN, in order, and nothing else. -/
theorem getElem?_pgnIndexFrom (pgn : UInt32) (ps : List RawPgn) (i : ℕ)
    (index : Std.TreeMap UInt32 (List ℕ)) :
    (pgnIndexFrom i index ps)[pgn]? =
      if positions pgn i ps = [] then index[pgn]?
      else some ((index[pgn]?).getD [] ++ positions pgn i ps) := by
  induction ps generalizing i index with
  | nil => rfl
  | cons p ps ih =>
      rw [pgnIndexFrom, ih, positions_cons, Std.TreeMap.getElem?_alter]
      obtain rfl | hp := eq_or_ne p.pgn pgn
      · rw [if_pos Std.ReflCmp.compare_self, if_pos rfl, if_neg (List.cons_ne_nil _ _),
          Option.getD_some, List.append_assoc, List.singleton_append]
        split
        · rw [‹positions _ _ _ = []›]
        · rfl
      · rw [if_neg (mt Std.compare_eq_iff_eq.mp hp), if_neg hp]

theorem variantsOf_eq_nil {pgns : List RawPgn} {pgn : UInt32} :
    positions pgn 0 pgns = [] ↔ variantsOf pgns pgn = [] :=
  List.map_eq_nil_iff

/-- Looking the positions up gives back the definitions. -/
theorem filterMap_positions (pgns : List RawPgn) (pgn : UInt32) :
    (positions pgn 0 pgns).filterMap (fun i => pgns[i]?.map fun p => (p, i)) =
      variantsOf pgns pgn := by
  rw [positions, List.filterMap_map, variantsOf]
  have hsome : ∀ v ∈ pgns.zipIdx.filter fun v => v.1.pgn == pgn,
      ((fun i => pgns[i]?.map fun p => (p, i)) ∘ fun v : VariantEntry => v.2) v = some v := by
    intro v hv
    have hget := List.mem_zipIdx_iff_getElem?.mp (List.mem_of_mem_filter hv)
    rw [Function.comp, hget]
    rfl
  rw [List.filterMap_congr hsome, List.filterMap_some]

theorem mem_multi {pgns : List RawPgn} {pgn : UInt32} {variants : List VariantEntry} :
    (pgn, variants) ∈ multi pgns ↔ variants = variantsOf pgns pgn ∧ variants ≠ [] := by
  have hget := getElem?_pgnIndexFrom pgn pgns 0 ∅
  rw [Std.TreeMap.getElem?_emptyc, Option.getD_none, List.nil_append] at hget
  rw [multi, List.mem_map]
  constructor
  · rintro ⟨⟨k, idxs⟩, hmem, heq⟩
    obtain ⟨rfl, hvs⟩ := Prod.mk.inj heq
    rw [Std.TreeMap.mem_toList_iff_getElem?_eq_some, pgnIndex, hget] at hmem
    split at hmem
    · cases hmem
    · rename_i hne
      rw [← Option.some.inj hmem, filterMap_positions] at hvs
      rw [← hvs]
      exact ⟨rfl, mt variantsOf_eq_nil.mpr hne⟩
  · rintro ⟨rfl, hne⟩
    refine ⟨(pgn, positions pgn 0 pgns), ?_, ?_⟩
    · rw [Std.TreeMap.mem_toList_iff_getElem?_eq_some, pgnIndex, hget,
        if_neg (mt variantsOf_eq_nil.mp hne)]
    · rw [filterMap_positions]

theorem multi_keys (pgns : List RawPgn) : (multi pgns).Pairwise fun a b => a.1 ≠ b.1 := by
  rw [multi, List.pairwise_map]
  refine (Std.TreeMap.distinct_keys_toList (t := pgnIndex pgns)).imp ?_
  intro a b h heq
  exact h (Std.compare_eq_iff_eq.mpr heq)

/-- The definitions of a PGN number, from the index. -/
theorem lookup_multi (pgns : List RawPgn) (pgn : UInt32) :
    (multi pgns).lookup pgn =
      if variantsOf pgns pgn = [] then none else some (variantsOf pgns pgn) := by
  split
  · rename_i hnil
    rw [List.lookup_eq_none_iff]
    intro e he
    rw [bne_iff_ne]
    rintro rfl
    obtain ⟨heq, hne⟩ := mem_multi.mp he
    exact hne (heq.trans hnil)
  · exact lookup_of_mem (multi_keys pgns) (mem_multi.mpr ⟨rfl, ‹_›⟩)

/-- The functions of the program are those of the PGN numbers that need one. -/
theorem emitFunctions_isSome {ms : List (UInt32 × List VariantEntry)} :
    (∃ fs, emitFunctions ms = some fs) ↔
      ∀ m ∈ ms, needsDispatchFn m.2 = true → ∃ f, emitPerPgnDispatch m.2 = some f := by
  induction ms with
  | nil => simp [emitFunctions]
  | cons m ms ih =>
      obtain ⟨pgn, variants⟩ := m
      rw [List.forall_mem_cons, ← ih, emitFunctions]
      split
      · rename_i hneeds
        cases emitPerPgnDispatch variants <;> cases emitFunctions ms <;> simp [hneeds]
      · rename_i hneeds
        simp [hneeds]

theorem lookup_emitFunctions {ms : List (UInt32 × List VariantEntry)}
    {fs : List (UInt32 × DispatchFn)} (h : emitFunctions ms = some fs) {pgn : UInt32}
    {variants : List VariantEntry} (hlookup : ms.lookup pgn = some variants)
    (hneeds : needsDispatchFn variants = true) :
    ∃ f, emitPerPgnDispatch variants = some f ∧ fs.lookup pgn = some f := by
  induction ms generalizing fs with
  | nil => cases hlookup
  | cons m ms ih =>
      obtain ⟨pgn', variants'⟩ := m
      rw [emitFunctions] at h
      rw [List.lookup_cons] at hlookup
      by_cases heq : pgn = pgn'
      · rw [beq_iff_eq.mpr heq] at hlookup
        obtain rfl := Option.some.inj hlookup
        rw [if_pos hneeds] at h
        cases hf : emitPerPgnDispatch variants' with
        | none => rw [hf] at h; cases h
        | some f =>
            cases hfs : emitFunctions ms with
            | none => rw [hf, hfs] at h; cases h
            | some fs' =>
                rw [hf, hfs, Option.some.injEq] at h
                refine ⟨f, rfl, ?_⟩
                rw [← h, List.lookup_cons, beq_iff_eq.mpr heq]
      · rw [beq_false_of_ne heq] at hlookup
        split at h
        · cases hf : emitPerPgnDispatch variants' with
          | none => rw [hf] at h; cases h
          | some f =>
              cases hfs : emitFunctions ms with
              | none => rw [hf, hfs] at h; cases h
              | some fs' =>
                  rw [hf, hfs, Option.some.injEq] at h
                  rw [← h, List.lookup_cons, beq_false_of_ne heq]
                  exact ih hfs hlookup
        · exact ih h hlookup

theorem topArm_isSome {variants : List VariantEntry} (hne : variants ≠ []) :
    ∃ arm, topArm variants = some arm := by
  obtain ⟨v, vs, rfl⟩ := List.exists_cons_of_ne_nil hne
  rw [topArm]
  split
  · exact ⟨_, rfl⟩
  · exact ⟨_, rfl⟩

/-- The `match` of the top level has the arms the index calls for. -/
theorem lookup_emitArms {ms : List (UInt32 × List VariantEntry)} (hne : ∀ m ∈ ms, m.2 ≠ [])
    (pgn : UInt32) :
    (emitArms ms).lookup pgn = (ms.lookup pgn).bind topArm := by
  induction ms with
  | nil => rfl
  | cons m ms ih =>
      obtain ⟨pgn', variants⟩ := m
      obtain ⟨arm, harm⟩ := topArm_isSome (hne _ List.mem_cons_self)
      rw [emitArms, harm, Option.map_some, Option.toList_some, List.singleton_append,
        List.lookup_cons, List.lookup_cons, ih fun m hm => hne m (List.mem_cons_of_mem _ hm)]
      by_cases heq : pgn = pgn'
      · rw [beq_iff_eq.mpr heq, Option.bind_some, harm]
      · rw [beq_false_of_ne heq]

/-- A PGN number with a single variant and no Match field has one candidate. -/
theorem direct_of_topArm {variants : List VariantEntry} {idx : ℕ}
    (h : topArm variants = some (.direct idx)) (payload : List UInt8) :
    (matchOf payload variants).or ((specificOf variants).or (catchallOf variants)) =
      some idx := by
  rw [topArm] at h
  split at h
  · cases h
  · rename_i hneeds
    cases variants with
    | nil => cases h
    | cons v vs =>
        have hidx : v.2 = idx := by simpa using h
        rw [needsDispatchFn, Bool.or_eq_true, not_or] at hneeds
        have hvs : vs = [] := by
          have := hneeds.1
          rw [decide_eq_true_eq, List.length_cons] at this
          exact List.eq_nil_of_length_eq_zero (by omega)
        have hempty : v.1.matchFields.isEmpty = true := by simpa using hneeds.2
        rw [hvs, matchOf_cons, specificOf_cons, catchallOf_cons,
          selected_of_matchFields hempty, hempty, ← hidx]
        cases v.1.isFallback <;> rfl

/-- What the generated `dispatch` selects. -/
theorem dispatch_eq {pgns : List RawPgn} {g : Generated} (hg : generate pgns = some g)
    (pgn : UInt32) (payload : List UInt8) :
    g.dispatch pgn payload = some ((matchOf payload (variantsOf pgns pgn)).or
      ((specificOf (variantsOf pgns pgn)).or (catchallOf (variantsOf pgns pgn)))) := by
  obtain ⟨fs, hfs, rfl⟩ := Option.map_eq_some_iff.mp hg
  have hlookup := lookup_multi pgns pgn
  rw [Generated.dispatch, lookup_emitArms (fun m hm => (mem_multi.mp hm).2), hlookup]
  split at hlookup
  · rename_i hnil
    rw [if_pos hnil, hnil]
    rfl
  · rename_i hne
    rw [if_neg hne, Option.bind_some]
    cases harm : topArm (variantsOf pgns pgn) with
    | none =>
        obtain ⟨arm, h⟩ := topArm_isSome hne
        rw [harm] at h
        cases h
    | some arm =>
        cases arm with
        | direct idx => rw [direct_of_topArm harm payload]
        | call =>
            have hneeds : needsDispatchFn (variantsOf pgns pgn) = true := by
              by_contra hcon
              rw [topArm, if_neg hcon] at harm
              obtain ⟨v, -, hv⟩ := Option.map_eq_some_iff.mp harm
              cases hv
            obtain ⟨f, hf, hlook⟩ := lookup_emitFunctions hfs hlookup hneeds
            simp only [hlook, Option.bind_some]
            exact emitPerPgnDispatch_run hf payload

/-! ## Range fallbacks -/

theorem fallbacks_eq (pgns : List RawPgn) :
    fallbacks pgns = (pgns.zipIdx.filter fun v => v.1.isFallback).map fun v => (v.1.pgn, v.2) := by
  rw [fallbacks]
  induction pgns.zipIdx with
  | nil => rfl
  | cons v vs ih =>
      rw [List.filterMap_cons, List.filter_cons, ih]
      cases v.1.isFallback <;> rfl

/-- The table is sorted as the fallback definitions are. -/
theorem fallbacks_sorted {pgns : List RawPgn}
    (hasc : (pgns.filter (·.isFallback)).Pairwise fun a b => a.pgn ≤ b.pgn) :
    (fallbacks pgns).Pairwise fun a b => a.1 ≤ b.1 := by
  have hfst : (pgns.zipIdx.filter fun v => v.1.isFallback).map (·.1) =
      pgns.filter (·.isFallback) := by
    conv_rhs => rw [← List.zipIdx_map_fst 0 pgns]
    rw [List.filter_map]
    rfl
  rw [fallbacks_eq, List.pairwise_map]
  rw [← hfst, List.pairwise_map] at hasc
  exact hasc

/-- The binary search finds the last fallback whose PGN is not above. -/
theorem findCatchall_eq {pgns : List RawPgn} {g : Generated} (hg : generate pgns = some g)
    (hasc : (pgns.filter (·.isFallback)).Pairwise fun a b => a.pgn ≤ b.pgn) (pgn : UInt32) :
    g.findCatchall pgn = rangeFallback pgns pgn := by
  obtain ⟨fs, -, rfl⟩ := Option.map_eq_some_iff.mp hg
  have hmono : (fallbacks pgns).Pairwise fun a b =>
      decide (b.1 ≤ pgn) = true → decide (a.1 ≤ pgn) = true := by
    refine (fallbacks_sorted hasc).imp ?_
    intro a b hab hb
    exact decide_eq_true (UInt32.le_trans hab (of_decide_eq_true hb))
  have hrange : rangeFallback pgns pgn =
      ((fallbacks pgns).filter fun e => decide (e.1 ≤ pgn)).getLast?.map (·.2) := by
    rw [rangeFallback, fallbacks_eq, List.filter_map, List.getLast?_map, Option.map_map,
      List.filter_filter]
    congr 2
    apply List.filter_congr
    intro v _
    exact Bool.and_comm _ _
  rw [Generated.findCatchall, hrange]
  simp only
  split
  · rename_i hz
    rw [BinarySearch.filter_eq_nil_of_partitionPoint hmono hz]
    rfl
  · rename_i hne
    rw [BinarySearch.getElem?_pred_partitionPoint hmono hne]

/-- A program is generated exactly when every variable name it would use can be written. -/
theorem generate_isSome (pgns : List RawPgn) :
    (generate pgns).isSome ↔ ∀ p ∈ pgns, p.Nameable := by
  rw [generate, Option.isSome_map, Option.isSome_iff_exists, emitFunctions_isSome]
  constructor
  · intro h p hp f hf
    obtain ⟨i, hi⟩ := List.mem_iff_getElem?.mp hp
    have hmem : (p, i) ∈ variantsOf pgns p.pgn :=
      List.mem_filter.mpr ⟨List.mem_zipIdx_iff_getElem?.mpr hi, beq_self_eq_true _⟩
    have hneeds : needsDispatchFn (variantsOf pgns p.pgn) = true := by
      rw [needsDispatchFn, Bool.or_eq_true, decide_eq_true_eq]
      by_cases hlen : 1 < (variantsOf pgns p.pgn).length
      · exact Or.inl hlen
      · obtain ⟨v, hv⟩ := List.length_eq_one_iff.mp
          (Nat.le_antisymm (Nat.not_lt.mp hlen) (List.length_pos_of_mem hmem))
        rw [hv, List.mem_singleton] at hmem
        rw [hv, ← hmem]
        refine Or.inr ?_
        cases hnil : p.matchFields with
        | nil => rw [hnil] at hf; cases hf
        | cons _ _ => simp [hnil]
    have := h _ (mem_multi.mpr ⟨rfl, List.ne_nil_of_mem hmem⟩) hneeds
    exact emitPerPgnDispatch_isSome.mp this _ hmem f hf
  · intro h m hm _
    rw [emitPerPgnDispatch_isSome]
    intro v hv
    rw [(mem_multi.mp hm).1] at hv
    have hget := List.mem_zipIdx_iff_getElem?.mp (List.mem_of_mem_filter hv)
    exact h _ (List.mem_of_getElem? hget)

/-- The generated selection is the reference, for every list of definitions whose fallbacks
ascend, every PGN number and every payload. -/
theorem dispatch_eq_reference (pgns : List RawPgn)
    (hasc : (pgns.filter (·.isFallback)).Pairwise fun a b => a.pgn ≤ b.pgn) :
    ((generate pgns).isSome ↔ ∀ p ∈ pgns, p.Nameable) ∧
      ∀ g, generate pgns = some g → ∀ pgn payload,
        g.pickVariant pgn payload = some (reference pgns pgn payload) := by
  refine ⟨generate_isSome pgns, ?_⟩
  intro g hg pgn payload
  rw [Generated.pickVariant, dispatch_eq hg, findCatchall_eq hg hasc, Option.map_some,
    Option.or_assoc, Option.or_assoc, reference]

/-- A range catch-all listed before the definition of its own PGN, and a PGN with a Match
field after its fallback. -/
def sampleDefinitions : List RawPgn :=
  [ { pgn := 59392, fallback := some true, fields := [] },
    { pgn := 59392, fallback := none, fields := [⟨some 0, some 8, none, none, none⟩] },
    { pgn := 126208, fallback := some true, fields := [] },
    { pgn := 126208, fallback := none, fields := [⟨some 0, some 8, none, none, some 3⟩] } ]

theorem dispatch_eq_reference_sample :
    (generate sampleDefinitions).bind (·.pickVariant 59392 [1]) = some (some 1) ∧
      (generate sampleDefinitions).bind (·.pickVariant 126208 [3]) = some (some 3) ∧
      (generate sampleDefinitions).bind (·.pickVariant 126208 []) = some (some 2) ∧
      (generate sampleDefinitions).bind (·.pickVariant 130000 [3]) = some (some 2) := by
  obtain ⟨hsome, heq⟩ := dispatch_eq_reference sampleDefinitions (by decide)
  have hnames : ∀ p ∈ sampleDefinitions, p.Nameable := by
    intro p hp f hf r hr
    have hzero : ∀ p ∈ sampleDefinitions, ∀ f ∈ p.matchFields, ∀ r ∈ f.range?, r.offK = 0 := by
      decide
    rw [hzero p hp f hf r hr]
    decide
  obtain ⟨g, hg⟩ := Option.isSome_iff_exists.mp (hsome.mpr hnames)
  rw [hg, Option.bind_some, Option.bind_some, Option.bind_some, Option.bind_some,
    heq g hg, heq g hg, heq g hg, heq g hg]
  decide

end Canboat.Build
