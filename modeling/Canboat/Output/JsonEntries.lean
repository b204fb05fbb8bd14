import Canboat.Lib.Json.Inside
import Canboat.Output.JsonGrouping
import Canboat.Output.JsonRead

/-!
# Records with lists as JSON values

What a parser makes of the line of any record: the fields outside the sets, and the lists with an
object for each iteration.
-/

namespace Canboat

open Json Json.Reader

variable {F N : Type} [Float64 F] {numeral : List Char → Option N}

/-! ## Entries as members -/

def listName (set : UInt8) : String := if set = 1 then "list" else "list2"

section

variable (label : DecodedField F → String) (tree : DecodedField F → Json.Tree N)

/-- Fields one after the other in an object. -/
def fieldMembers (fields : List (DecodedField F)) : List (String × Json.Tree N) :=
  gather [] (fields.map fun f => (label f, tree f))

def Entry.member : Entry F → String × Json.Tree N
  | .field f => (label f, tree f)
  | .list set elements =>
      (listName set, .array (elements.map fun fields => .object (fieldMembers label tree fields)))

def entryMembers (entries : List (Entry F)) : List (String × Json.Tree N) :=
  gather [] (entries.map (Entry.member label tree))

omit [Float64 F] in
theorem fieldMembers_append (fields : List (DecodedField F)) (f : DecodedField F) :
    fieldMembers label tree (fields ++ [f]) =
      insertMember (label f) (tree f) (fieldMembers label tree fields) := by
  rw [fieldMembers, List.map_append, gather, List.foldl_append]
  rfl

omit [Float64 F] in
theorem entryMembers_append (entries : List (Entry F)) (e : Entry F) :
    entryMembers label tree (entries ++ [e]) =
      insertMember (e.member label tree).1 (e.member label tree).2
        (entryMembers label tree entries) := by
  rw [entryMembers, List.map_append, gather, List.foldl_append]
  rfl

end

/-! ## Reading the fields -/

section

variable {opts : JsonOptions} {payload : List UInt8} {tree : DecodedField F → Json.Tree N}

/-- The name that a parser takes for a field. -/
def readLabel (opts : JsonOptions) (f : DecodedField F) : String :=
  String.ofList (fieldLabel opts f)

/-- What the loop has written is read as what it has grouped. -/
structure ReadsBuf (numeral : List Char → Option N) (opts : JsonOptions)
    (tree : DecodedField F → Json.Tree N) (b : FieldsBuf) (g : Grouping F) : Prop where
  sep : b.topSep = if b.buf = [] then [] else [',']
  set : b.currentSet = (g.openList.map OpenList.set).getD 0
  nonzero : ∀ o ∈ g.openList, o.set ≠ 0 ∧ b.currentIter = some o.iter ∧ b.buf ≠ []
  run : ∀ k, ∃ q, Reader.run numeral ⟨.firstName, .members [] :: k⟩ b.buf = some q ∧
    match g.openList with
    | none => Before numeral b.topSep (entryMembers (readLabel opts) tree g.entries) k q
    | some o =>
        Before numeral [','] (fieldMembers (readLabel opts) tree o.current)
          (.items (o.elements.map fun fields => .object (fieldMembers (readLabel opts) tree fields)) ::
            .member (entryMembers (readLabel opts) tree g.entries) (listName o.set) :: k) q

omit [Float64 F] in
theorem readsBuf_start : ReadsBuf numeral opts tree (F := F) ⟨[], [], 0, none⟩ ⟨[], none⟩ where
  sep := rfl
  set := rfl
  nonzero := nofun
  run k := ⟨_, rfl, .start k⟩

omit [Float64 F] in
/-- With its list closed the loop is at the top level. -/
theorem ReadsBuf.close {b : FieldsBuf} {g : Grouping F} (h : ReadsBuf numeral opts tree b g)
    (k : List (Reader.Frame N)) :
    ∃ q, Reader.run numeral ⟨.firstName, .members [] :: k⟩ (b.buf ++ b.close) = some q ∧
      Before numeral b.topSep (entryMembers (readLabel opts) tree g.closed) k q := by
  obtain ⟨q, hrun, hq⟩ := h.run k
  have hset := h.set
  cases ho : g.openList with
  | none =>
      rw [ho] at hq hset
      rw [Option.map_none, Option.getD_none] at hset
      rw [FieldsBuf.close, if_neg (not_not.mpr hset), Grouping.closed, ho, List.append_nil]
      exact ⟨q, hrun, hq⟩
  | some o =>
      obtain ⟨hne, -, hbuf⟩ := h.nonzero o ho
      have hsep := h.sep
      rw [if_neg hbuf] at hsep
      rw [ho] at hq hset
      obtain ⟨q', hrun', hq'⟩ := hq.closeList
      have hset' : b.currentSet ≠ 0 := by
        rw [hset]
        exact hne
      refine ⟨q', ?_, ?_⟩
      · rw [FieldsBuf.close, if_pos hset', run_append_of numeral hrun]
        exact hrun'
      · rw [hsep, Grouping.closed, ho]
        dsimp only
        rw [entryMembers_append, Entry.member, List.map_append]
        exact hq'

/-- A name as the writer escapes it. -/
theorem spells_name (numeral : List Char → Option N) (name : List Char) :
    Reader.Spells numeral (name.flatMap (escape false)) (String.ofList name).toList := by
  rw [String.toList_ofList]
  exact spells_flatMap numeral (spells_writerEscape numeral false) name

/-- A field behind what is read, in an object that has these members. -/
theorem run_writeMember_tree {f : DecodedField F}
    (hf : Reads numeral (fieldText opts payload f) (tree f)) {sep : List Char}
    {ms : List (String × Json.Tree N)} {k : List (Reader.Frame N)} {q : Reader.State N}
    (hq : Before numeral sep ms k q) :
    ∃ q', Reader.run numeral q (sep ++ writeMember opts payload f) = some q' ∧
      Before numeral [','] (insertMember (readLabel opts f) (tree f) ms) k q' := by
  obtain ⟨q', hrun, hq'⟩ := hq.member (spells_name numeral (fieldLabel opts f)) hf
  refine ⟨q', ?_, hq'⟩
  have htext : writeMember opts payload f = '"' :: ((fieldLabel opts f).flatMap (escape false) ++
      '"' :: ':' :: fieldText opts payload f) := by
    rw [writeMember, writeJsonString, writeJsonStringWithTable, List.cons_append,
      List.append_assoc]
    rfl
  rw [htext]
  exact hrun

/-- The first field of an object. -/
theorem run_firstMember {f : DecodedField F}
    (hf : Reads numeral (fieldText opts payload f) (tree f)) (k : List (Reader.Frame N)) :
    ∃ q, Reader.run numeral ⟨.firstName, .members [] :: k⟩ (writeMember opts payload f) = some q ∧
      Before numeral [','] [(readLabel opts f, tree f)] k q :=
  run_writeMember_tree hf (.start k)

theorem listOpening_eq (set : UInt8) :
    (if set = 1 then "\"list\":[\x7b".toList else "\"list2\":[\x7b".toList) =
      '"' :: ((listName set).toList ++ "\":[\x7b".toList) := by
  rw [listName]
  split_ifs
  · rfl
  · rfl

theorem listName_plain (set : UInt8) : ∀ c ∈ (listName set).toList, isPlain c = true := by
  rw [listName]
  split_ifs
  · decide
  · decide

/-- A field in a new list. -/
theorem ReadsBuf.push_newList {b : FieldsBuf} {g : Grouping F} (h : ReadsBuf numeral opts tree b g)
    {f : DecodedField F} (hf : Reads numeral (fieldText opts payload f) (tree f))
    (hset : f.repeatSet ≠ 0) (hnew : b.currentSet ≠ f.repeatSet) :
    ReadsBuf numeral opts tree (b.push opts payload f)
      ⟨g.closed, some ⟨f.repeatSet, f.repeatIndex.getD 0, [], [f]⟩⟩ := by
  have hbuf := push_buf opts payload b f
  have hne : (b.push opts payload f).buf ≠ [] := by
    rw [hbuf, writeMember, writeJsonString, writeJsonStringWithTable]
    simp
  have hsep : b.sepFor f = b.close ++ (b.topSep ++
      '"' :: ((listName f.repeatSet).toList ++ "\":[\x7b".toList)) := by
    rw [FieldsBuf.sepFor, if_neg hset, if_pos hnew, listOpening_eq, List.append_assoc]
  rw [FieldsBuf.push, if_neg hset] at hne
  rw [FieldsBuf.push, if_neg hset] at hbuf
  rw [FieldsBuf.push, if_neg hset]
  dsimp only at hne hbuf ⊢
  rw [if_pos hnew] at hne hbuf ⊢
  constructor
  · rw [if_neg hne]
  · rfl
  · rintro o ⟨⟩
    exact ⟨hset, rfl, hne⟩
  · intro k
    obtain ⟨q, hrun, hq⟩ := h.close k
    have hopen := hq.openList (listName f.repeatSet) (listName_plain _)
    obtain ⟨q', hrun', hq'⟩ := run_firstMember hf (.items [] ::
      .member (entryMembers (readLabel opts) tree g.closed) (listName f.repeatSet) :: k)
    refine ⟨q', ?_, hq'⟩
    rw [hbuf, hsep, List.append_assoc, ← List.append_assoc, run_append_of numeral hrun,
      run_append_of numeral hopen]
    exact hrun'

theorem ReadsBuf.push {b : FieldsBuf} {g : Grouping F} (h : ReadsBuf numeral opts tree b g)
    {f : DecodedField F} (hf : Reads numeral (fieldText opts payload f) (tree f)) :
    ReadsBuf numeral opts tree (b.push opts payload f) (g.push f) := by
  have hbuf := push_buf opts payload b f
  have hne : (b.push opts payload f).buf ≠ [] := by
    rw [hbuf, writeMember, writeJsonString, writeJsonStringWithTable]
    simp
  by_cases htop : f.repeatSet = 0
  · -- at the top level, with any list closed first
    rw [Grouping.push, if_pos htop]
    obtain ⟨-, hsep⟩ := push_top opts payload b htop
    constructor
    · rw [if_neg hne, hsep]
    · exact (push_top opts payload b htop).1
    · rintro _ ⟨⟩
    · intro k
      obtain ⟨q, hrun, hq⟩ := h.close k
      obtain ⟨q', hrun', hq'⟩ := run_writeMember_tree hf hq
      refine ⟨q', ?_, ?_⟩
      · rw [hbuf, FieldsBuf.sepFor, if_pos htop, List.append_assoc, ← List.append_assoc,
          run_append_of numeral hrun]
        exact hrun'
      · rw [hsep]
        dsimp only
        rw [entryMembers_append]
        exact hq'
  rw [Grouping.push, if_neg htop]
  dsimp only
  have hset := h.set
  cases ho : g.openList with
  | none =>
      rw [ho] at hset
      have hnew : b.currentSet ≠ f.repeatSet := by
        rw [hset]
        exact Ne.symm htop
      have hpushed := h.push_newList hf htop hnew
      rw [Grouping.closed, ho] at hpushed
      exact hpushed
  | some o =>
      dsimp only
      rw [ho, Option.map_some, Option.getD_some] at hset
      by_cases hnew : o.set ≠ f.repeatSet
      · rw [if_pos hnew]
        exact h.push_newList hf htop (by rw [hset]; exact hnew)
      rw [if_neg hnew]
      obtain ⟨-, hiter, hstarted⟩ := h.nonzero o ho
      have hsep := h.sep
      rw [if_neg hstarted] at hsep
      have hsame : ¬b.currentSet ≠ f.repeatSet := by
        rw [hset]
        exact hnew
      rw [FieldsBuf.push, if_neg htop] at hne
      rw [FieldsBuf.push, if_neg htop] at hbuf
      rw [FieldsBuf.push, if_neg htop]
      dsimp only at hne hbuf ⊢
      rw [if_neg hsame] at hne hbuf ⊢
      rw [FieldsBuf.sepFor, if_neg htop, if_neg hsame] at hbuf
      rw [hiter] at hne hbuf ⊢
      by_cases hnext : f.repeatIndex.getD 0 ≠ o.iter
      · -- the next iteration
        have hnext' : some (f.repeatIndex.getD 0) ≠ some o.iter := fun heq => hnext (Option.some.inj heq)
        rw [if_pos hnext'] at hne hbuf ⊢
        rw [if_pos hnext'] at hbuf
        rw [if_pos hnext]
        constructor
        · rw [if_neg hne]
          exact hsep
        · exact hset
        · rintro _ ⟨⟩
          exact ⟨(h.nonzero o ho).1, rfl, hne⟩
        · intro k
          obtain ⟨q, hrun, hq⟩ := h.run k
          rw [ho] at hq
          have hbegun := hq.nextElement
          obtain ⟨q', hrun', hq'⟩ := run_firstMember hf (.items (o.elements.map
              (fun fields => .object (fieldMembers (readLabel opts) tree fields)) ++
            [.object (fieldMembers (readLabel opts) tree o.current)]) ::
            .member (entryMembers (readLabel opts) tree g.entries) (listName o.set) :: k)
          refine ⟨q', ?_, ?_⟩
          · rw [hbuf, run_append_of numeral hrun, run_append_of numeral hbegun]
            exact hrun'
          · dsimp only
            rw [List.map_append]
            exact hq'
      · have hnext' : ¬some (f.repeatIndex.getD 0) ≠ some o.iter := fun hn =>
          hn (congrArg some (not_not.mp hnext))
        rw [if_neg hnext'] at hne hbuf ⊢
        rw [if_neg hnext'] at hbuf
        rw [if_neg hnext]
        constructor
        · rw [if_neg hne]
          exact hsep
        · exact hset
        · rintro _ ⟨⟩
          exact ⟨(h.nonzero o ho).1, rfl, hne⟩
        · intro k
          obtain ⟨q, hrun, hq⟩ := h.run k
          rw [ho] at hq
          obtain ⟨q', hrun', hq'⟩ := run_writeMember_tree hf hq
          refine ⟨q', ?_, ?_⟩
          · rw [hbuf, run_append_of numeral hrun]
            exact hrun'
          · dsimp only
            rw [fieldMembers_append]
            exact hq'

/-- All fields shown. -/
theorem readsBuf_ofFields {fields : List (DecodedField F)}
    (hfields : ∀ f ∈ fields, Reads numeral (fieldText opts payload f) (tree f)) :
    ReadsBuf numeral opts tree (fields.foldl (FieldsBuf.push opts payload) ⟨[], [], 0, none⟩)
      (Grouping.ofFields fields) := by
  have hrun : ∀ (fields : List (DecodedField F)) {b : FieldsBuf} {g : Grouping F},
      ReadsBuf numeral opts tree b g →
      (∀ f ∈ fields, Reads numeral (fieldText opts payload f) (tree f)) →
      ReadsBuf numeral opts tree (fields.foldl (FieldsBuf.push opts payload) b)
        (fields.foldl Grouping.push g) := by
    intro fields
    induction fields with
    | nil => exact fun h _ => h
    | cons f fields ih =>
        intro b g h hfields
        obtain ⟨hf, hfields⟩ := List.forall_mem_cons.mp hfields
        exact ih (h.push hf) hfields
  exact hrun fields readsBuf_start hfields

end

/-! ## The fields object -/

section

variable {opts : JsonOptions} {d : DecodedPgn F} {tree : DecodedField F → Json.Tree N}

/-- The fields as the loop has written them. -/
def DecodedPgn.written (opts : JsonOptions) (d : DecodedPgn F) : FieldsBuf :=
  (d.shownFields opts).foldl (FieldsBuf.push opts d.data) ⟨[], [], 0, none⟩

/-- The loop ends in a list, and the other list, which comes first, shows no field: nothing is
between the two. -/
def DecodedPgn.MissesComma (opts : JsonOptions) (d : DecodedPgn F) : Prop :=
  (d.hasRepeatingSet.1 = true ∧ ¬sawSet opts d.fields 1) ∧
    ∃ f ∈ (d.shownFields opts).getLast?, f.repeatSet ≠ 0

instance : Decidable (d.MissesComma opts) :=
  inferInstanceAs (Decidable ((_ ∧ _) ∧ ∃ f ∈ (d.shownFields opts).getLast?, f.repeatSet ≠ 0))

theorem currentSet_push (payload : List UInt8) (b : FieldsBuf) (f : DecodedField F) :
    (b.push opts payload f).currentSet = f.repeatSet := by
  by_cases htop : f.repeatSet = 0
  · rw [htop]
    exact (push_top opts payload b htop).1
  · rw [FieldsBuf.push, if_neg htop]
    dsimp only
    by_cases hnew : b.currentSet ≠ f.repeatSet
    · rw [if_pos hnew]
    · rw [if_neg hnew]
      split_ifs
      · exact not_not.mp hnew
      · exact not_not.mp hnew

theorem buf_push_ne_nil (payload : List UInt8) (b : FieldsBuf) (f : DecodedField F) :
    (b.push opts payload f).buf ≠ [] := by
  rw [push_buf, writeMember, writeJsonString, writeJsonStringWithTable]
  simp

omit [Float64 F] in
theorem closed_push_ne_nil (g : Grouping F) (f : DecodedField F) : (g.push f).closed ≠ [] := by
  rw [Grouping.push]
  split_ifs with htop
  · exact List.append_ne_nil_of_right_ne_nil _ (List.cons_ne_nil _ _)
  · cases g.openList with
    | none => exact List.append_ne_nil_of_right_ne_nil _ (List.cons_ne_nil _ _)
    | some o =>
        dsimp only
        split_ifs
        · exact List.append_ne_nil_of_right_ne_nil _ (List.cons_ne_nil _ _)
        · exact List.append_ne_nil_of_right_ne_nil _ (List.cons_ne_nil _ _)
        · exact List.append_ne_nil_of_right_ne_nil _ (List.cons_ne_nil _ _)

/-- The loop is in the list of the last field. -/
theorem currentSet_written :
    (d.written opts).currentSet ≠ 0 ↔ ∃ f ∈ (d.shownFields opts).getLast?, f.repeatSet ≠ 0 := by
  rw [DecodedPgn.written]
  rcases List.eq_nil_or_concat (d.shownFields opts) with hnil | ⟨fields, f, hfields⟩
  · rw [hnil]
    exact iff_of_false (fun h => h rfl) (by rintro ⟨f, ⟨⟩, -⟩)
  · rw [hfields, List.concat_eq_append, List.foldl_append, List.foldl_cons, List.foldl_nil,
      currentSet_push, List.getLast?_concat]
    simp

/-- Nothing is written for no fields. -/
theorem buf_written :
    (d.written opts).buf = [] ↔ (Grouping.ofFields (d.shownFields opts)).closed = [] := by
  rw [DecodedPgn.written, Grouping.ofFields]
  rcases List.eq_nil_or_concat (d.shownFields opts) with hnil | ⟨fields, f, hfields⟩
  · rw [hnil]
    exact iff_of_true rfl rfl
  · rw [hfields, List.concat_eq_append, List.foldl_append, List.foldl_append, List.foldl_cons,
      List.foldl_cons, List.foldl_nil, List.foldl_nil]
    exact iff_of_false (buf_push_ne_nil _ _ _) (closed_push_ne_nil _ _)

/-- A text that is read as these entries, with nothing for none. -/
structure ReadsEntries (numeral : List Char → Option N) (opts : JsonOptions)
    (tree : DecodedField F → Json.Tree N) (t : List Char) (es : List (Entry F)) : Prop where
  empty : t = [] ↔ es = []
  inside : ReadsInside numeral t (entryMembers (readLabel opts) tree es)

omit [Float64 F] in
/-- A list without a field. -/
theorem ReadsEntries.placeholder {t : List Char} {es : List (Entry F)}
    (h : ReadsEntries numeral opts tree t es) (set : UInt8) :
    ReadsEntries numeral opts tree
      (t ++ ((if t = [] then [] else [',']) ++
        '"' :: ((listName set).toList ++ "\":[\x7b\x7d]".toList)))
      (es ++ [.list set [[]]]) where
  empty := iff_of_false (by simp) (by simp)
  inside := by
    rw [entryMembers_append]
    exact h.inside.placeholder (listName_plain set)

/-- The fields with their last list closed. -/
theorem readsEntries_closed
    (hfields : ∀ f ∈ d.shownFields opts, Reads numeral (fieldText opts d.data f) (tree f)) :
    ReadsEntries numeral opts tree ((d.written opts).buf ++ (d.written opts).close)
      (Grouping.ofFields (d.shownFields opts)).closed ∧
    (d.written opts).topSep =
      if (d.written opts).buf ++ (d.written opts).close = [] then [] else [','] := by
  have h : ReadsBuf numeral opts tree (d.written opts) (Grouping.ofFields (d.shownFields opts)) :=
    readsBuf_ofFields hfields
  have hnil : (d.written opts).buf ++ (d.written opts).close = [] ↔ (d.written opts).buf = [] := by
    refine ⟨fun hall => (List.append_eq_nil_iff.mp hall).1, fun hbuf => ?_⟩
    have hset : (d.written opts).currentSet = 0 := by
      rw [h.set]
      cases ho : (Grouping.ofFields (d.shownFields opts)).openList with
      | none => rfl
      | some o => exact absurd hbuf (h.nonzero o ho).2.2
    rw [hbuf, List.nil_append, FieldsBuf.close, hset]
    rfl
  have hsep : (d.written opts).topSep =
      if (d.written opts).buf ++ (d.written opts).close = [] then [] else [','] := by
    rw [h.sep]
    exact if_congr hnil.symm rfl rfl
  refine ⟨⟨hnil.trans buf_written, fun k => ?_⟩, hsep⟩
  obtain ⟨q, hrun, hq⟩ := h.close k
  rw [hsep] at hq
  exact ⟨q, hrun, hq⟩

/-- With its comma, the list that shows no field is a member like the others. -/
theorem readsEntries_fieldsText
    (hfields : ∀ f ∈ d.shownFields opts, Reads numeral (fieldText opts d.data f) (tree f))
    (hcomma : ¬d.MissesComma opts) :
    ReadsEntries numeral opts tree (fieldsText opts d) (d.entries opts) := by
  obtain ⟨hclosed, hsep⟩ := readsEntries_closed hfields
  rw [fieldsText, show (d.fields.filter (shown opts (payloadBits d.data))).foldl
    (FieldsBuf.push opts d.data) ⟨[], [], 0, none⟩ = d.written opts from rfl, FieldsBuf.finish,
    show (if (d.written opts).currentSet ≠ 0 then "\x7d]".toList else []) = (d.written opts).close
      from rfl, DecodedPgn.entries, emptyEntries]
  generalize (d.written opts).buf ++ (d.written opts).close = t at hclosed hsep ⊢
  generalize (Grouping.ofFields (d.shownFields opts)).closed = es at hclosed ⊢
  have hsecond : ∀ (t : List Char) (es : List (Entry F)), ReadsEntries numeral opts tree t es →
      ReadsEntries numeral opts tree
        (if d.hasRepeatingSet.2 ∧ ¬sawSet opts d.fields 2 then
          t ++ (if t ≠ [] then [','] else []) ++ "\"list2\":[\x7b\x7d]".toList else t)
        (es ++ if d.hasRepeatingSet.2 ∧ ¬sawSet opts d.fields 2 then [.list 2 [[]]] else []) := by
    intro t es h
    by_cases h2 : d.hasRepeatingSet.2 = true ∧ ¬sawSet opts d.fields 2 = true
    · rw [if_pos h2, if_pos h2, ite_not, List.append_assoc]
      exact h.placeholder 2
    · rw [if_neg h2, if_neg h2, List.append_nil]
      exact h
  rw [← List.append_assoc]
  apply hsecond
  by_cases h1 : d.hasRepeatingSet.1 = true ∧ ¬sawSet opts d.fields 1 = true
  · have htop : (d.written opts).currentSet = 0 := by
      by_contra hset
      exact hcomma ⟨h1, currentSet_written.mp hset⟩
    have hwritten : (if t ≠ [] ∧ (d.written opts).currentSet = 0 then (d.written opts).topSep
        else []) = if t = [] then [] else [','] := by
      rw [hsep]
      by_cases ht : t = []
      · rw [if_pos ht, if_neg fun h => h.1 ht]
      · rw [if_neg ht, if_pos ⟨ht, htop⟩]
    rw [if_pos h1, if_pos h1, hwritten, List.append_assoc]
    exact hclosed.placeholder 1
  · rw [if_neg h1, if_neg h1, List.append_nil]
    exact hclosed

/-- Without the comma nothing is read. -/
theorem run_fieldsText
    (hfields : ∀ f ∈ d.shownFields opts, Reads numeral (fieldText opts d.data f) (tree f))
    (hcomma : d.MissesComma opts) (k : List (Reader.Frame N)) :
    Reader.run numeral ⟨.firstName, .members [] :: k⟩ (fieldsText opts d) = none := by
  obtain ⟨h1, hlast⟩ := hcomma
  have hset := currentSet_written.mpr hlast
  obtain ⟨hclosed, -⟩ := readsEntries_closed hfields
  have hne : (d.written opts).buf ++ (d.written opts).close ≠ [] := by
    rw [FieldsBuf.close, if_pos hset]
    simp
  obtain ⟨q, hrun, hq⟩ := hclosed.inside k
  rw [if_neg hne] at hq
  have htext : ∃ s, fieldsText opts d =
      (d.written opts).buf ++ (d.written opts).close ++ '"' :: s := by
    rw [fieldsText, show (d.fields.filter (shown opts (payloadBits d.data))).foldl
      (FieldsBuf.push opts d.data) ⟨[], [], 0, none⟩ = d.written opts from rfl, FieldsBuf.finish,
      show (if (d.written opts).currentSet ≠ 0 then "\x7d]".toList else []) =
        (d.written opts).close from rfl]
    have hsep : (if (d.written opts).buf ++ (d.written opts).close ≠ [] ∧
        (d.written opts).currentSet = 0 then (d.written opts).topSep else []) = [] :=
      if_neg fun h => hset h.2
    rw [if_pos h1, hsep, List.append_nil]
    split_ifs
    · exact ⟨_, by rw [List.append_assoc, List.append_assoc]; rfl⟩
    · exact ⟨_, by rw [List.append_assoc, List.append_assoc]; rfl⟩
    · exact ⟨_, rfl⟩
  obtain ⟨s, htext⟩ := htext
  rw [htext, run_append_of numeral hrun]
  exact hq.stuck s

end

/-! ## The record around the fields -/

section

variable (ofNat : ℕ → N) {opts : JsonOptions} {d : DecodedPgn F}
  (tree : DecodedField F → Json.Tree N)

/-- The value of a record; the `fields` object only with an entry. -/
def entriesTree (opts : JsonOptions) (d : DecodedPgn F) : Json.Tree N :=
  .object (headerTrees ofNat opts d ++
    if (d.entries opts).isEmpty then []
    else [("fields", .object (entryMembers (readLabel opts) tree (d.entries opts)))])

def entriesLine (opts : JsonOptions) (d : DecodedPgn F) : Json.Tree N :=
  if opts.camelCase = .off then entriesTree ofNat tree opts d
  else .object [(String.ofList (displayName opts.camelCase d.description d.id),
    entriesTree ofNat tree opts d)]

variable {ofNat} {tree}

theorem fieldsOpening : ",\"fields\":\x7b".toList =
    [','] ++ '"' :: ("fields".toList ++ "\":\x7b".toList) := rfl

theorem fields_plain : ∀ c ∈ "fields".toList, isPlain c = true :=
  recordKeys_plain "fields".toList (by decide)

omit [Float64 F] in
/-- The members before the fields. -/
theorem run_headers (hnum : ReadsDigits numeral ofNat) {m : List Char × List Char}
    {ms : List (List Char × List Char)} (hheaders : headers opts d = m :: ms)
    (k : List (Reader.Frame N)) :
    ∃ q, Reader.run numeral ⟨.firstName, .members [] :: k⟩
        ('"' :: (m.1 ++ '"' :: ':' :: m.2) ++ (ms.map headerPiece).flatMap Piece.text) = some q ∧
      Before numeral [','] (headerTrees ofNat opts d) k q := by
  have hmembers := reads_headers hnum opts d
  have hnodup : ((headerTrees ofNat opts d ++ [("fields", Json.Tree.object [])]).map
      Prod.fst).Nodup := headerTrees_nodup opts d []
  rw [hheaders] at hmembers
  generalize headerTrees ofNat opts d = ts at hmembers hnodup ⊢
  cases hmembers with
  | @cons _ t _ ts hm hms =>
      obtain ⟨q, hrun, hends⟩ := run_member numeral hm.spells hm.value [] k
      have hpieces : List.Forall₂ (ReadsPiece numeral) (ms.map headerPiece) ts := by
        rw [List.forall₂_map_left_iff]
        exact hms.imp fun _ _ h => h.piece
      obtain ⟨q', v, done, name, hrun', hends', hgather⟩ := run_pieces numeral hpieces hends
      refine ⟨q', ?_, .inr ⟨rfl, v, done, name, hends', ?_⟩⟩
      · rw [List.cons_append]
        show Reader.run numeral ⟨.chars true [], .members [] :: k⟩ _ = _
        rw [run_append_of numeral hrun]
        exact hrun'
      · rw [List.map_append, List.nodup_append] at hnodup
        have hgathered : gather [] (t :: ts) = [] ++ t :: ts := gather_of_nodup hnodup.1
        rw [hgather]
        exact hgathered.symm

/-- The record up to its brace. -/
theorem run_record (hnum : ReadsDigits numeral ofNat)
    (hfields : ∀ f ∈ d.shownFields opts, Reads numeral (fieldText opts d.data f) (tree f))
    (hcomma : ¬d.MissesComma opts) (k : List (Reader.Frame N)) :
    Reader.run numeral ⟨.firstName, .members [] :: k⟩ (recordText opts d ++ ['\x7d']) =
      some ⟨.done (entriesTree ofNat tree opts d), k⟩ := by
  obtain ⟨m, ms, hheaders, hrecord⟩ := recordText_eq opts d
  obtain ⟨q, hrun, hq⟩ := run_headers hnum hheaders k
  have hentries := readsEntries_fieldsText hfields hcomma
  rw [hrecord, List.append_assoc, List.append_assoc, ← List.append_assoc,
    run_append_of numeral hrun, fieldsObject, entriesTree]
  by_cases hnil : fieldsText opts d = []
  · rw [if_pos hnil, hentries.empty.mp hnil, List.nil_append, List.isEmpty_nil, if_pos rfl,
      List.append_nil]
    exact hq.brace
  · have hsome : (d.entries opts).isEmpty = false := by
      rw [List.isEmpty_eq_false_iff]
      exact fun h => hnil (hentries.empty.mpr h)
    obtain ⟨q', hrun', hq'⟩ := hentries.inside (.member (headerTrees ofNat opts d) "fields" :: k)
    rw [if_neg hnil, hsome, if_neg Bool.false_ne_true, fieldsOpening, List.append_assoc,
      List.append_assoc, run_append_of numeral (hq.openObject "fields" fields_plain),
      run_append_of numeral hrun', run_append_of numeral hq'.brace]
    -- the object is the last member
    have hlast : Before numeral [',']
        (insertMember "fields" (.object (entryMembers (readLabel opts) tree (d.entries opts)))
          (headerTrees ofNat opts d)) k
        ⟨.done (.object (entryMembers (readLabel opts) tree (d.entries opts))),
          .member (headerTrees ofNat opts d) "fields" :: k⟩ :=
      .inr ⟨rfl, _, _, _, .done _ _, rfl⟩
    have hnew : "fields" ∉ (headerTrees ofNat opts d).map Prod.fst := by
      have hnodup : ((headerTrees ofNat opts d ++ [("fields", Json.Tree.object [])]).map
          Prod.fst).Nodup := headerTrees_nodup opts d []
      rw [List.map_append, List.nodup_append] at hnodup
      exact fun hmem => hnodup.2.2 "fields" hmem "fields" List.mem_cons_self rfl
    rw [insertMember_new hnew] at hlast
    exact hlast.brace

theorem run_record_stuck (hnum : ReadsDigits numeral ofNat)
    (hfields : ∀ f ∈ d.shownFields opts, Reads numeral (fieldText opts d.data f) (tree f))
    (hcomma : d.MissesComma opts) (k : List (Reader.Frame N)) (s : List Char) :
    Reader.run numeral ⟨.firstName, .members [] :: k⟩ (recordText opts d ++ s) = none := by
  obtain ⟨m, ms, hheaders, hrecord⟩ := recordText_eq opts d
  obtain ⟨q, hrun, hq⟩ := run_headers hnum hheaders k
  have hstuck := run_fieldsText hfields hcomma (.member (headerTrees ofNat opts d) "fields" :: k)
  have hne : fieldsText opts d ≠ [] := by
    intro hnil
    rw [hnil] at hstuck
    cases hstuck
  rw [hrecord, List.append_assoc, List.append_assoc, ← List.append_assoc,
    run_append_of numeral hrun, fieldsObject, if_neg hne, fieldsOpening, List.append_assoc,
    List.append_assoc, run_append_of numeral (hq.openObject "fields" fields_plain),
    Reader.run_append, hstuck]
  rfl

omit [Float64 F] in
/-- Into the record, in the object with its identifier where there is one. -/
theorem run_lineOpening
    (hname : opts.camelCase ≠ .off →
      ∀ c ∈ displayName opts.camelCase d.description d.id, isPlain c = true) (s : List Char) :
    Reader.run numeral ⟨.value, []⟩ (lineOpening opts d ++ s) =
      Reader.run numeral ⟨.firstName, .members [] :: if opts.camelCase = .off then []
        else [.member [] (String.ofList (displayName opts.camelCase d.description d.id))]⟩ s := by
  rw [lineOpening]
  by_cases hoff : opts.camelCase = .off
  · rw [if_pos hoff, if_pos hoff]
    rfl
  · rw [if_neg hoff, if_neg hoff]
    have hkey : Reader.Spells numeral (displayName opts.camelCase d.description d.id)
        (String.ofList (displayName opts.camelCase d.description d.id)).toList := by
      rw [String.toList_ofList]
      exact spells_of_plain numeral (hname hoff)
    have hstart : Before (N := N) numeral [] [] [] ⟨.firstName, [.members []]⟩ := .start []
    have h := hstart.named hkey ('\x7b' :: s)
    rw [show "\x7b\"".toList = ['\x7b', '"'] from rfl,
      show "\":\x7b".toList = ['"', ':', '\x7b'] from rfl, List.append_assoc, List.append_assoc]
    exact h

/-- What a parser makes of the line: the record's value, or nothing without the comma. -/
theorem read_writeJson (hnum : ReadsDigits numeral ofNat)
    (hname : opts.camelCase ≠ .off →
      ∀ c ∈ displayName opts.camelCase d.description d.id, isPlain c = true)
    (hfields : ∀ f ∈ d.shownFields opts, Reads numeral (fieldText opts d.data f) (tree f)) :
    Reader.read numeral (writeJson opts d) =
      if d.MissesComma opts then none else some (entriesLine ofNat tree opts d) := by
  rw [Reader.read, writeJson_eq, run_lineOpening hname]
  by_cases hcomma : d.MissesComma opts
  · rw [if_pos hcomma, run_record_stuck hnum hfields hcomma]
    rfl
  · have hrecord := run_record hnum hfields hcomma
    rw [if_neg hcomma, lineClosing, entriesLine]
    by_cases hoff : opts.camelCase = .off
    · rw [if_pos hoff, if_pos hoff, if_pos hoff, hrecord]
      rfl
    · rw [if_neg hoff, if_neg hoff, if_neg hoff, show "\x7d\x7d".toList = ['\x7d'] ++ ['\x7d'] from rfl,
        ← List.append_assoc, run_append_of numeral (hrecord _)]
      rfl

end

end Canboat
