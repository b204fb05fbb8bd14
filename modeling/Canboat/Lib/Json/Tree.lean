import Canboat.Lib.IndexMap

/-!
# JSON values

Values as a parser hands them over. The members of an object are in order, and no name stands
twice among them; numbers are of any type.
-/

namespace Json

inductive Tree (N : Type)
  | null
  | bool (b : Bool)
  | number (n : N)
  | string (s : String)
  | array (items : List (Tree N))
  | object (members : List (String × Tree N))

namespace Tree

variable {N : Type}

def asStr : Tree N → Option String
  | .string s => some s
  | _ => none

def asArray : Tree N → Option (List (Tree N))
  | .array items => some items
  | _ => none

/-- The member of that name. -/
def get (name : String) : Tree N → Option (Tree N)
  | .object members => members.lookup name
  | _ => none

/-- Along member names. -/
def pointer : List String → Tree N → Option (Tree N)
  | [], v => some v
  | name :: path, v => (v.get name).bind (pointer path)

end Tree

/-! ## Members of an object -/

variable {V : Type}

/-- In its place if the name is there, else at the end. -/
def insertMember (name : String) (v : V) (members : List (String × V)) : List (String × V) :=
  IndexMap.upsertEntries name (fun _ => v) members

/-- The last member takes the place of the one removed. -/
def swapRemove (name : String) (members : List (String × V)) : List (String × V) :=
  match members.findIdx? (·.1 = name), members.getLast? with
  | some i, some last => (members.set i last).dropLast
  | _, _ => members

/-- Under another name, at the end or in the place of the member of that name. -/
def renameMember (members : List (String × V)) (old new : String) : List (String × V) :=
  match members.lookup old with
  | none => members
  | some v => insertMember new v (swapRemove old members)

example : renameMember [("a", 1), ("b", 2), ("c", 3)] "a" "d" = [("c", 3), ("b", 2), ("d", 1)] := by
  decide

/-! ## Renamed members -/

theorem lookup_eq_some {members : List (String × V)} (hnodup : (members.map Prod.fst).Nodup)
    {name : String} {v : V} : members.lookup name = some v ↔ (name, v) ∈ members :=
  IndexMap.get?_eq_some (m := ⟨members, hnodup⟩)

/-- Members of distinct names are found in any order. -/
theorem lookup_perm {members members' : List (String × V)} (h : members.Perm members')
    (hnodup : (members.map Prod.fst).Nodup) (name : String) :
    members.lookup name = members'.lookup name := by
  have hnodup' : (members'.map Prod.fst).Nodup := (h.map Prod.fst).nodup_iff.mp hnodup
  ext v
  rw [lookup_eq_some hnodup, lookup_eq_some hnodup', h.mem_iff]

theorem insertMember_new {name : String} {members : List (String × V)}
    (hnew : name ∉ members.map Prod.fst) (v : V) :
    insertMember name v members = members ++ [(name, v)] := by
  rw [insertMember]
  induction members with
  | nil => rfl
  | cons m members ih =>
      rw [List.map_cons, List.mem_cons, not_or] at hnew
      rw [IndexMap.upsertEntries, if_neg (Ne.symm hnew.1), ih hnew.2, List.cons_append]

/-- A member goes, and the last takes its place. -/
theorem swapRemove_perm {before after : List (String × V)} {name : String} {v : V}
    (hbefore : name ∉ before.map Prod.fst) :
    (swapRemove name (before ++ (name, v) :: after)).Perm (before ++ after) := by
  have hindex : (before ++ (name, v) :: after).findIdx? (·.1 = name) = some before.length := by
    have hhead : ((name, v) :: after).findIdx? (·.1 = name) = some 0 := by
      rw [List.findIdx?_cons, decide_eq_true rfl]
      rfl
    rw [List.findIdx?_append, List.findIdx?_eq_none_iff.mpr, hhead]
    · simp
    · intro m hm
      rw [decide_eq_false_iff_not]
      rintro rfl
      exact hbefore (List.mem_map_of_mem hm)
  rw [swapRemove, hindex]
  induction after using List.reverseRecOn with
  | nil => simp
  | append_singleton after last _ =>
      have hlast : (before ++ (name, v) :: (after ++ [last])).getLast? = some last := by
        rw [← List.cons_append, ← List.append_assoc, List.getLast?_concat]
      simp only [hlast]
      rw [List.set_append_right _ _ (Nat.le_refl _), Nat.sub_self, List.set_cons_zero, ← List.cons_append,
        ← List.append_assoc, List.dropLast_concat]
      exact ((List.perm_append_singleton last after).symm).append_left before

theorem renameMember_perm {members rest : List (String × V)} {old new : String} {v : V}
    (h : members.Perm ((old, v) :: rest)) (hnodup : (members.map Prod.fst).Nodup)
    (hnew : new ∉ rest.map Prod.fst) : (renameMember members old new).Perm ((new, v) :: rest) := by
  have hmem : (old, v) ∈ members := h.mem_iff.mpr List.mem_cons_self
  obtain ⟨before, after, rfl⟩ := List.append_of_mem hmem
  have hbefore : old ∉ before.map Prod.fst := by
    rw [List.map_append, List.map_cons, List.nodup_append] at hnodup
    intro hin
    exact hnodup.2.2 old hin old List.mem_cons_self rfl
  have hrest : (before ++ after).Perm rest :=
    (List.perm_cons _).mp (List.perm_middle.symm.trans h)
  have hremoved : (swapRemove old (before ++ (old, v) :: after)).Perm rest :=
    (swapRemove_perm hbefore).trans hrest
  rw [renameMember, (lookup_eq_some hnodup).mpr hmem]
  simp only
  rw [insertMember_new fun hin => hnew ((hremoved.map Prod.fst).mem_iff.mp hin)]
  exact (List.perm_append_singleton _ _).trans (hremoved.cons _)

/-- Members renamed one after the other, to names that are new. -/
theorem foldl_renameMember_perm {α : Type} (old new : α → String) (value : α → V)
    (rs : List α) {members rest : List (String × V)}
    (h : members.Perm (rs.map (fun r => (old r, value r)) ++ rest))
    (hnodup : (rs.map new ++ rs.map old ++ rest.map Prod.fst).Nodup) :
    ((rs.map fun r => (old r, new r)).foldl (fun ms r => renameMember ms r.1 r.2) members).Perm
      (rs.map (fun r => (new r, value r)) ++ rest) := by
  induction rs generalizing members rest with
  | nil => exact h
  | cons r rs ih =>
      rw [List.map_cons, List.map_cons, List.cons_append, List.cons_append] at hnodup
      rw [List.map_cons, List.cons_append] at h
      obtain ⟨hnew, hnodup⟩ := List.nodup_cons.mp hnodup
      have hold : ((rs.map fun r => (old r, value r)) ++ rest).map Prod.fst =
          rs.map old ++ rest.map Prod.fst := by
        rw [List.map_append, List.map_map]
        rfl
      have hmembers : (members.map Prod.fst).Nodup := by
        rw [(h.map Prod.fst).nodup_iff, List.map_cons, hold]
        refine hnodup.sublist ?_
        rw [List.append_assoc, List.cons_append]
        exact List.sublist_append_right _ _
      have hnewRest : new r ∉ ((rs.map fun r => (old r, value r)) ++ rest).map Prod.fst := by
        rw [hold]
        intro hmem
        apply hnew
        simp only [List.mem_append, List.mem_cons] at hmem ⊢
        tauto
      have hrenamed := renameMember_perm h hmembers hnewRest
      have hnodup' : (rs.map new ++ rs.map old ++ (((new r, value r) :: rest).map Prod.fst)).Nodup := by
        rw [List.map_cons, List.perm_middle.nodup_iff, List.nodup_cons]
        constructor
        · intro hmem
          apply hnew
          simp only [List.mem_append, List.mem_cons] at hmem ⊢
          tauto
        · refine hnodup.sublist ?_
          rw [List.append_assoc, List.append_assoc, List.cons_append]
          exact (List.sublist_cons_self _ _).append_left _
      have hrest := ih (hrenamed.trans List.perm_middle.symm) hnodup'
      rw [List.map_cons, List.foldl_cons, List.map_cons, List.cons_append]
      exact hrest.trans List.perm_middle
end Json
