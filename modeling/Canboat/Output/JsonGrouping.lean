import Canboat.Output.Json

/-!
# The fields of a record as entries

The loop over the fields of a record, without its text: a field outside the repeating sets is an
entry, and so is a list with its objects.
-/

namespace Canboat

variable {F : Type} [Float64 F]

/-! ## Entries of the fields object -/

/-- A member of the object: a field, or a list with its iterations. -/
inductive Entry (F : Type)
  | field (f : DecodedField F)
  | list (set : UInt8) (elements : List (List (DecodedField F)))

/-- A list that is open, with the iteration it is in. -/
structure OpenList (F : Type) where
  set : UInt8
  iter : UInt32
  elements : List (List (DecodedField F))
  current : List (DecodedField F)

structure Grouping (F : Type) where
  entries : List (Entry F)
  openList : Option (OpenList F)

namespace Grouping

/-- With the open list closed. -/
def closed (g : Grouping F) : List (Entry F) :=
  match g.openList with
  | none => g.entries
  | some o => g.entries ++ [.list o.set (o.elements ++ [o.current])]

def push (g : Grouping F) (f : DecodedField F) : Grouping F :=
  if f.repeatSet = 0 then ⟨g.closed ++ [.field f], none⟩
  else
    let iter := f.repeatIndex.getD 0
    match g.openList with
    | none => ⟨g.entries, some ⟨f.repeatSet, iter, [], [f]⟩⟩
    | some o =>
        if o.set ≠ f.repeatSet then ⟨g.closed, some ⟨f.repeatSet, iter, [], [f]⟩⟩
        else if iter ≠ o.iter then
          ⟨g.entries, some ⟨o.set, iter, o.elements ++ [o.current], [f]⟩⟩
        else ⟨g.entries, some { o with current := o.current ++ [f] }⟩

def ofFields (fields : List (DecodedField F)) : Grouping F := fields.foldl push ⟨[], none⟩

end Grouping

/-- An empty object for each list that was reached and shows no field. -/
def emptyEntries (opts : JsonOptions) (d : DecodedPgn F) : List (Entry F) :=
  (if d.hasRepeatingSet.1 ∧ ¬sawSet opts d.fields 1 then [.list 1 [[]]] else []) ++
    if d.hasRepeatingSet.2 ∧ ¬sawSet opts d.fields 2 then [.list 2 [[]]] else []

/-- The fields that the record shows. -/
def DecodedPgn.shownFields (opts : JsonOptions) (d : DecodedPgn F) : List (DecodedField F) :=
  d.fields.filter (shown opts (payloadBits d.data))

def DecodedPgn.entries (opts : JsonOptions) (d : DecodedPgn F) : List (Entry F) :=
  (Grouping.ofFields (d.shownFields opts)).closed ++ emptyEntries opts d

/-! ## Every field in its place -/

def Entry.fields : Entry F → List (DecodedField F)
  | .field f => [f]
  | .list _ elements => elements.flatten

/-- A field outside the sets, or a list with the fields of one iteration in each object. -/
def Entry.Sorted : Entry F → Prop
  | .field f => f.repeatSet = 0
  | .list set elements => set ≠ 0 ∧
      ∀ fields ∈ elements, ∃ iter, ∀ f ∈ fields, f.repeatSet = set ∧ f.repeatIndex.getD 0 = iter

namespace Grouping

/-- The entries hold these fields. -/
structure Holds (g : Grouping F) (fields : List (DecodedField F)) : Prop where
  fields : g.closed.flatMap Entry.fields = fields
  sorted : ∀ e ∈ g.closed, e.Sorted
  current : ∀ o ∈ g.openList, ∀ f ∈ o.current,
    f.repeatSet = o.set ∧ f.repeatIndex.getD 0 = o.iter

variable {g : Grouping F} {fields : List (DecodedField F)}

omit [Float64 F] in
/-- A list begins behind these entries. -/
theorem Holds.newList {es : List (Entry F)} (hes : es.flatMap Entry.fields = fields)
    (hsorted : ∀ e ∈ es, e.Sorted) {f : DecodedField F} (hset : f.repeatSet ≠ 0) :
    Holds ⟨es, some ⟨f.repeatSet, f.repeatIndex.getD 0, [], [f]⟩⟩ (fields ++ [f]) where
  fields := by
    rw [closed, List.flatMap_append, hes]
    rfl
  sorted := by
    intro e he
    rw [closed, List.mem_append, List.mem_singleton] at he
    rcases he with he | rfl
    · exact hsorted e he
    · refine ⟨hset, fun elements helements => ⟨f.repeatIndex.getD 0, fun f' hf' => ?_⟩⟩
      rw [List.nil_append, List.mem_singleton] at helements
      subst helements
      rw [List.mem_singleton] at hf'
      subst hf'
      exact ⟨rfl, rfl⟩
  current := by
    rintro o ⟨⟩ f' hf'
    rw [List.mem_singleton] at hf'
    subst hf'
    exact ⟨rfl, rfl⟩

omit [Float64 F] in
theorem Holds.push (h : g.Holds fields) (f : DecodedField F) :
    (g.push f).Holds (fields ++ [f]) := by
  obtain ⟨hfields, hsorted, hcurrent⟩ := h
  rw [Grouping.push]
  by_cases htop : f.repeatSet = 0
  · rw [if_pos htop]
    constructor
    · show (g.closed ++ [Entry.field f]).flatMap Entry.fields = _
      rw [List.flatMap_append, hfields]
      rfl
    · intro e he
      rcases List.mem_append.mp he with he | he
      · exact hsorted e he
      · rw [List.mem_singleton.mp he]
        exact htop
    · rintro o ⟨⟩
  rw [if_neg htop]
  cases ho : g.openList with
  | none =>
      rw [closed, ho] at hfields hsorted
      exact .newList hfields hsorted htop
  | some o =>
      dsimp only
      by_cases hnew : o.set ≠ f.repeatSet
      · rw [if_pos hnew]
        exact .newList hfields hsorted htop
      rw [if_neg hnew]
      have hset : f.repeatSet = o.set := (not_not.mp hnew).symm
      have hof := hcurrent o ho
      rw [closed, ho] at hfields hsorted
      dsimp only at hfields hsorted
      have hbefore : ∀ e ∈ g.entries, e.Sorted := fun e he => hsorted e (List.mem_append_left _ he)
      obtain ⟨hne, helements⟩ := hsorted _ (List.mem_append_right _ (List.mem_singleton_self _))
      by_cases hnext : f.repeatIndex.getD 0 ≠ o.iter
      · -- another object of the list
        rw [if_pos hnext]
        constructor
        · rw [closed, ← hfields, List.flatMap_append, List.flatMap_append, List.append_assoc]
          simp [Entry.fields]
        · intro e he
          rcases List.mem_append.mp he with he | he
          · exact hbefore e he
          · rw [List.mem_singleton.mp he]
            refine ⟨hne, fun fields' hfields' => ?_⟩
            rcases List.mem_append.mp hfields' with hold | hlast
            · exact helements fields' hold
            · rw [List.mem_singleton.mp hlast]
              refine ⟨f.repeatIndex.getD 0, fun f' hf' => ?_⟩
              rw [List.mem_singleton.mp hf']
              exact ⟨hset, rfl⟩
        · rintro _ ⟨⟩ f' hf'
          rw [List.mem_singleton.mp hf']
          exact ⟨hset, rfl⟩
      · rw [if_neg hnext]
        have hsame : ∀ f' ∈ o.current ++ [f],
            f'.repeatSet = o.set ∧ f'.repeatIndex.getD 0 = o.iter := by
          intro f' hf'
          rcases List.mem_append.mp hf' with hold | hlast
          · exact hof f' hold
          · rw [List.mem_singleton.mp hlast]
            exact ⟨hset, not_not.mp hnext⟩
        constructor
        · rw [closed, ← hfields, List.flatMap_append, List.flatMap_append, List.append_assoc]
          simp [Entry.fields]
        · intro e he
          rcases List.mem_append.mp he with he | he
          · exact hbefore e he
          · rw [List.mem_singleton.mp he]
            refine ⟨hne, fun fields' hfields' => ?_⟩
            rcases List.mem_append.mp hfields' with hold | hlast
            · exact helements fields' (List.mem_append_left _ hold)
            · rw [List.mem_singleton.mp hlast]
              exact ⟨o.iter, hsame⟩
        · rintro _ ⟨⟩
          exact hsame

omit [Float64 F] in
theorem holds_ofFields (fields : List (DecodedField F)) : (ofFields fields).Holds fields := by
  have hstart : Holds (F := F) ⟨[], none⟩ [] := ⟨rfl, by rintro e ⟨⟩, by rintro o ⟨⟩⟩
  have hrun : ∀ (rest before : List (DecodedField F)) (g : Grouping F), g.Holds before →
      (rest.foldl push g).Holds (before ++ rest) := by
    intro rest
    induction rest with
    | nil =>
        intro before g h
        rw [List.append_nil]
        exact h
    | cons f rest ih =>
        intro before g h
        rw [List.append_cons]
        exact ih _ _ (h.push f)
  exact hrun fields [] _ hstart

end Grouping

omit [Float64 F] in
/-- Every field shown stands once, in order, and the lists have the fields of their sets. -/
theorem entries_sorted (opts : JsonOptions) (d : DecodedPgn F) :
    (d.entries opts).flatMap Entry.fields = d.shownFields opts ∧ ∀ e ∈ d.entries opts, e.Sorted := by
  obtain ⟨hfields, hsorted, -⟩ := Grouping.holds_ofFields (d.shownFields opts)
  have hempty : ∀ e ∈ emptyEntries opts d, e.fields = [] ∧ e.Sorted := by
    have hlist : ∀ set : UInt8, set ≠ 0 →
        (Entry.list set [[]] : Entry F).fields = [] ∧ (Entry.list set [[]] : Entry F).Sorted := by
      intro set hset
      refine ⟨rfl, hset, fun fields h => ⟨0, fun f hf => ?_⟩⟩
      rw [List.mem_singleton.mp h] at hf
      cases hf
    intro e he
    rw [emptyEntries, List.mem_append] at he
    split_ifs at he
    all_goals simp only [List.mem_singleton, List.not_mem_nil, or_false, false_or] at he
    · rcases he with rfl | rfl
      · exact hlist 1 (by decide)
      · exact hlist 2 (by decide)
    · rw [he]
      exact hlist 1 (by decide)
    · rw [he]
      exact hlist 2 (by decide)
  constructor
  · rw [DecodedPgn.entries, List.flatMap_append, hfields,
      List.flatMap_eq_nil_iff.mpr fun e he => (hempty e he).1, List.append_nil]
  · intro e he
    rcases List.mem_append.mp he with he | he
    · exact hsorted e he
    · exact (hempty e he).2

end Canboat
