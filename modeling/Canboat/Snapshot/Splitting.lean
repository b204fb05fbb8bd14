import Canboat.Lib.Json.Accepted
import Canboat.Snapshot.Classify

/-!
# Lines in pieces

A line whose key is inside a list becomes a line for each element. The search and both scans keep
to the grammar of JSON, whatever is inside the strings.
-/

namespace Canboat

open Json AnalyzerJson

/-! ## The scans -/

section

variable {depth depth' : ℕ} {q q' : Quote} {v : List Char}

theorem arrayText_walks (h : Walks '[' ']' (depth, q) v (depth', q')) (t : List Char) :
    arrayText depth q (v ++ t) = (arrayText depth' q' t).map fun r => (v ++ r.1, r.2) := by
  induction v generalizing depth q with
  | nil =>
      cases h
      simp
  | cons c v ih =>
      obtain ⟨hopen, h⟩ := h
      have hstep : ∀ {d : ℕ} {p : Quote}, scan '[' ']' (depth, q) c = (d, p) →
          (arrayText d p (v ++ t)).map (fun r => (c :: r.1, r.2)) =
            (arrayText depth' q' t).map fun r => (c :: v ++ r.1, r.2) := by
        intro d p hscan
        rw [hscan] at h
        rw [ih h, Option.map_map]
        rfl
      cases q with
      | outside =>
          rw [List.cons_append, arrayText]
          rw [scan] at hopen hstep
          by_cases hc : c = '['
          · rw [if_pos hc] at hstep ⊢
            exact hstep rfl
          · rw [if_neg hc] at hopen hstep ⊢
            by_cases hc' : c = ']'
            · rw [if_pos hc'] at hopen hstep ⊢
              rw [if_neg (by dsimp only at hopen; omega)]
              exact hstep rfl
            · rw [if_neg hc'] at hstep ⊢
              by_cases hquote : c = '"'
              · rw [if_pos hquote] at hstep ⊢
                exact hstep rfl
              · rw [if_neg hquote] at hstep ⊢
                exact hstep rfl
      | inside => exact hstep rfl
      | escaped => exact hstep rfl

theorem splitElements_walks {e : List Char} (h : Walks '\x7b' '\x7d' (depth, q) v (depth', q'))
    (t : List Char) :
    splitElements (some (e, depth, q)) (v ++ t) = splitElements (some (e ++ v, depth', q')) t := by
  induction v generalizing depth q e with
  | nil =>
      cases h
      simp
  | cons c v ih =>
      obtain ⟨hopen, h⟩ := h
      have hstep : ∀ {d : ℕ} {p : Quote}, scan '\x7b' '\x7d' (depth, q) c = (d, p) →
          splitElements (some (e ++ [c], d, p)) (v ++ t) =
            splitElements (some (e ++ c :: v, depth', q')) t := by
        intro d p hscan
        rw [hscan] at h
        rw [ih h, List.append_assoc, List.singleton_append]
      cases q with
      | outside =>
          rw [List.cons_append, splitElements]
          rw [scan] at hopen hstep
          by_cases hc : c = '\x7b'
          · rw [if_pos hc] at hstep ⊢
            exact hstep rfl
          · rw [if_neg hc] at hopen hstep ⊢
            by_cases hc' : c = '\x7d'
            · rw [if_pos hc'] at hopen hstep ⊢
              rw [if_neg (by dsimp only at hopen; omega)]
              exact hstep rfl
            · rw [if_neg hc'] at hstep ⊢
              by_cases hquote : c = '"'
              · rw [if_pos hquote] at hstep ⊢
                exact hstep rfl
              · rw [if_neg hquote] at hstep ⊢
                exact hstep rfl
      | inside => exact hstep rfl
      | escaped => exact hstep rfl

end

/-- An object, and objects with commas between them. -/
def ObjectText (e : List Char) : Prop := ∃ s, (Ws s ∨ Members s) ∧ e = '\x7b' :: (s ++ ['\x7d'])

inductive Objects : List Char → List (List Char) → Prop
  | one {w e w' : List Char} (hw : Ws w) (he : ObjectText e) (hw' : Ws w') :
      Objects (w ++ (e ++ w')) [e]
  | cons {w e w' s : List Char} {es : List (List Char)} (hw : Ws w) (he : ObjectText e)
      (hw' : Ws w') (hs : Objects s es) : Objects (w ++ (e ++ (w' ++ ',' :: s))) (e :: es)

theorem arrayBrackets : Brackets '[' ']' := .inl ⟨rfl, rfl⟩

theorem objectBrackets : Brackets '\x7b' '\x7d' := .inr ⟨rfl, rfl⟩

theorem ObjectText.inside {s : List Char} (h : Ws s ∨ Members s) :
    Balanced '\x7b' '\x7d' s := by
  rcases h with h | h
  · exact h.balanced objectBrackets
  · exact h.balanced objectBrackets

theorem ObjectText.balanced {e : List Char} (h : ObjectText e) : Balanced '[' ']' e := by
  obtain ⟨s, hs | hs, rfl⟩ := h
  · exact (hs.balanced arrayBrackets).between arrayBrackets (.inr ⟨rfl, rfl⟩)
  · exact (hs.balanced arrayBrackets).between arrayBrackets (.inr ⟨rfl, rfl⟩)

theorem Objects.balanced {s : List Char} {es : List (List Char)} (h : Objects s es) :
    Balanced '[' ']' s := by
  induction h with
  | one hw he hw' =>
      exact (hw.balanced arrayBrackets).append (he.balanced.append (hw'.balanced arrayBrackets))
  | cons hw he hw' _ ih =>
      exact (hw.balanced arrayBrackets).append (he.balanced.append
        ((hw'.balanced arrayBrackets).append (.cons_neutral arrayBrackets (by decide) ih)))

/-- The bracket that closes the array is the one behind its body. -/
theorem arrayText_body {body : List Char} (h : Balanced '[' ']' body) (after : List Char) :
    arrayText 0 .outside ('[' :: (body ++ ']' :: after)) =
      some ('[' :: (body ++ [']']), after) := by
  have hbody := arrayText_walks (h 0) (']' :: after)
  rw [arrayText, if_pos rfl, hbody]
  rfl

theorem splitElements_ws {w : List Char} (hw : Ws w) (t : List Char) :
    splitElements none (w ++ t) = splitElements none t := by
  induction w with
  | nil => rfl
  | cons c w ih =>
      have hc := neutral_of_isWs (hw c List.mem_cons_self)
      simp only [Neutral, List.mem_cons, List.not_mem_nil, not_or, or_false] at hc
      rw [List.cons_append, splitElements, if_neg hc.2.1, if_neg hc.2.2.1]
      exact ih fun d hd => hw d (List.mem_cons_of_mem _ hd)

theorem splitElements_object {e : List Char} (he : ObjectText e) (t : List Char) :
    splitElements none (e ++ t) = e :: splitElements none t := by
  obtain ⟨s, hs, rfl⟩ := he
  have hwalk := @splitElements_walks 1 1 .outside .outside s ['\x7b'] (ObjectText.inside hs 0)
    ('\x7d' :: t)
  rw [List.cons_append, List.append_assoc, splitElements, if_neg (by decide), if_pos rfl]
  refine hwalk.trans ?_
  rw [splitElements, if_neg (by decide), if_pos rfl, if_pos (Nat.le_refl 1)]
  rfl

theorem splitObjectArray_objects {body : List Char} {es : List (List Char)}
    (h : Objects body es) : splitObjectArray ('[' :: (body ++ [']'])) = es := by
  rw [splitObjectArray]
  induction h with
  | one hw he hw' =>
      rw [List.append_assoc, List.append_assoc, splitElements_ws hw, splitElements_object he,
        splitElements_ws hw']
      rfl
  | cons hw he hw' _ ih =>
      rw [List.append_assoc, List.append_assoc, List.append_assoc, splitElements_ws hw,
        splitElements_object he, splitElements_ws hw', List.cons_append, splitElements,
        if_neg (by decide), if_neg (by decide), ih]

theorem splitObjectArray_ws {body : List Char} (h : Ws body) :
    splitObjectArray ('[' :: (body ++ [']'])) = [] := by
  rw [splitObjectArray, splitElements_ws h]
  rfl

/-! ## The line -/

/-- A JSON text whose names have no escapes. -/
structure AnalyzerLine (line : List Char) : Prop where
  text : Text line
  names : Json.PlainNames line

/-- The first array under the name: the text before its bracket, what is in it, and the text behind
it. -/
structure ListIn (name line before body after : List Char) : Prop where
  name_eq : ∃ head blanks, before = head ++ '"' :: (name ++ '"' :: ':' :: blanks) ∧
    (∀ c ∈ blanks, isBlank c = true) ∧
    NameAt name line head (blanks ++ '[' :: (body ++ ']' :: after)) ∧
    ∀ head' rest, NameAt name line head' rest → head.length ≤ head'.length

variable {name line before body after : List Char}

theorem ListIn.line_eq (h : ListIn name line before body after) :
    line = before ++ '[' :: (body ++ ']' :: after) := by
  obtain ⟨head, blanks, rfl, -, hname, -⟩ := h.name_eq
  rw [hname.line_eq]
  simp

theorem ListIn.arraySpan_eq (h : ListIn name line before body after) (hline : AnalyzerLine line)
    (hname : IsName name) (hbody : Balanced '[' ']' body) :
    arraySpan line name = some (before, '[' :: (body ++ [']']), after) := by
  obtain ⟨head, blanks, hbefore, hblanks, hat, hfirst⟩ := h.name_eq
  have hkey := afterKey?_first hline.text hline.names hname hat hfirst
  have hdrop : (blanks ++ '[' :: (body ++ ']' :: after)).dropWhile isBlank =
      '[' :: (body ++ ']' :: after) := by
    rw [List.dropWhile_append_of_pos hblanks]
    rfl
  rw [arraySpan, hkey]
  dsimp only
  rw [hdrop]
  -- the bracket decides the branch
  change Option.map _ (arrayText 0 .outside ('[' :: (body ++ ']' :: after))) = _
  rw [arrayText_body hbody]
  dsimp only [Option.map_some]
  have htake : line.take (line.length - ((body ++ ']' :: after).length + 1)) = before := by
    conv_lhs => rw [h.line_eq]
    rw [List.length_append, List.length_cons, Nat.add_sub_cancel, List.take_left]
  rw [htake]

theorem exists_listIn {blanks : List Char} (hline : AnalyzerLine line) (hname : IsName name)
    (hblanks : ∀ c ∈ blanks, isBlank c = true)
    (h : afterKey? name line = some (blanks ++ '[' :: (body ++ ']' :: after))) :
    ∃ before, ListIn name line before body after := by
  obtain ⟨head, hsplit, hfirst⟩ := after?_eq_some h
  rw [List.cons_append, List.append_assoc] at hsplit
  have hat := nameAt_of_occurrence hline.text hline.names hname hsplit
  refine ⟨_, head, blanks, rfl, hblanks, hat, fun head' rest hat' => hfirst head' rest ?_⟩
  rw [hat'.line_eq]
  simp

variable {F : Type} [Float64 F]

theorem isName_listKey (set : UInt8) : IsName (listKey set) := by
  rw [listKey]
  split_ifs <;> decide

/-- The line with one object of the list alone in it. -/
def elementInput (info : PgnInfo F) (set : UInt8) (pgn : UInt32) (src : UInt8)
    (line before after : List Char) (x : List Char × ℕ) : SnapshotInput :=
  lineInput pgn src ((value line "description".toList).getD [])
    (perIterationSecondary info set (UInt32.ofNat x.2) (keyText line line)
      fun f _ => keyText line x.1 f)
    (before ++ '[' :: (x.1 ++ ']' :: after))

section

variable {metric : PgnDatabase F} {info : PgnInfo F} {set : UInt8} {pgn src : Int64}

omit [Float64 F] in
theorem classifyJsonLine_whole (hpgn : int line "pgn".toList = some pgn)
    (hsrc : int line "src".toList = some src)
    (hinfo : metric.firstPgn pgn.toUInt64.toUInt32 = some info)
    (hset : repeatingPkSet info = some set) (hspan : arraySpan line (listKey set) = none) :
    classifyJsonLine metric line =
      [wholeInput (some info) pgn.toUInt64.toUInt32 src.toUInt64.toUInt8 line] := by
  rw [classifyJsonLine, hpgn, hsrc]
  simp only [hinfo, Option.bind_some, hset, hspan]

omit [Float64 F] in
theorem classifyJsonLine_split {array : List Char} (hpgn : int line "pgn".toList = some pgn)
    (hsrc : int line "src".toList = some src)
    (hinfo : metric.firstPgn pgn.toUInt64.toUInt32 = some info)
    (hset : repeatingPkSet info = some set)
    (hspan : arraySpan line (listKey set) = some (before, array, after)) :
    classifyJsonLine metric line =
      (splitObjectArray array).zipIdx.map (elementInput info set pgn.toUInt64.toUInt32
        src.toUInt64.toUInt8 line before after) := by
  rw [classifyJsonLine, hpgn, hsrc]
  simp only [hinfo, Option.bind_some, hset, hspan]
  rfl

/-- One input for each object of the list, and the whole line where there is none. -/
structure SplitsExactly (metric : PgnDatabase F) (info : PgnInfo F) (set : UInt8) (pgn : UInt32)
    (src : UInt8) (line : List Char) : Prop where
  objects : ∀ before body after es, ListIn (listKey set) line before body after →
    Objects body es → classifyJsonLine metric line =
      es.zipIdx.map (elementInput info set pgn src line before after)
  empty : ∀ before body after, ListIn (listKey set) line before body after → Ws body →
    classifyJsonLine metric line = [wholeInput (some info) pgn src line]
  absent : (∀ before rest, ¬NameAt (listKey set) line before rest) →
    classifyJsonLine metric line = [wholeInput (some info) pgn src line]

omit [Float64 F] in
theorem classifyJsonLine_empty (hline : AnalyzerLine line)
    (hpgn : int line "pgn".toList = some pgn) (hsrc : int line "src".toList = some src)
    (hinfo : metric.firstPgn pgn.toUInt64.toUInt32 = some info)
    (hset : repeatingPkSet info = some set) {before body after : List Char}
    (hlist : ListIn (listKey set) line before body after) (hws : Ws body) :
    classifyJsonLine metric line = [] := by
  have hspan := hlist.arraySpan_eq hline (isName_listKey set) (hws.balanced arrayBrackets)
  rw [classifyJsonLine_split hpgn hsrc hinfo hset hspan, splitObjectArray_ws hws]
  rfl

omit [Float64 F] in
/-- An empty list leaves nothing of the line. -/
theorem splitsExactly_iff (hline : AnalyzerLine line) (hpgn : int line "pgn".toList = some pgn)
    (hsrc : int line "src".toList = some src)
    (hinfo : metric.firstPgn pgn.toUInt64.toUInt32 = some info)
    (hset : repeatingPkSet info = some set) :
    SplitsExactly metric info set pgn.toUInt64.toUInt32 src.toUInt64.toUInt8 line ↔
      ¬∃ before body after, ListIn (listKey set) line before body after ∧ Ws body := by
  constructor
  · rintro h ⟨before, body, after, hlist, hws⟩
    have hempty := h.empty before body after hlist hws
    rw [classifyJsonLine_empty hline hpgn hsrc hinfo hset hlist hws] at hempty
    cases hempty
  · intro h
    refine ⟨?_, ?_, ?_⟩
    · intro before body after es hlist hes
      have hspan := hlist.arraySpan_eq hline (isName_listKey set) hes.balanced
      rw [classifyJsonLine_split hpgn hsrc hinfo hset hspan, splitObjectArray_objects hes]
    · intro before body after hlist hws
      exact absurd ⟨before, body, after, hlist, hws⟩ h
    · intro habsent
      have hkey := afterKey?_of_absent hline.text hline.names (isName_listKey set) habsent
      have hspan : arraySpan line (listKey set) = none := by
        rw [arraySpan, hkey]
      exact classifyJsonLine_whole hpgn hsrc hinfo hset hspan

/-- PGN 129796 with the fields that are key. -/
def aisAcknowledge : PgnInfo Binary64 where
  pgn := 129796
  id := ⟨"aisAcknowledge", by decide⟩
  description := "AIS Acknowledge"
  packetType := .fast
  fallback := none
  priority := some 7
  length := none
  fields :=
    [{ (FieldInfo.number (Float64.ofInt 0) 3 ⟨"sourceId", by decide⟩ 32) with
        name := "Source ID", fieldType := some .mmsi, partOfPrimaryKey := some true },
      { (FieldInfo.number (Float64.ofInt 0) 7 ⟨"destinationId", by decide⟩ 32) with
        name := "Destination ID", fieldType := some .mmsi, partOfPrimaryKey := some true }]
  repeatingFieldSet1 := ⟨some 3, some 7, none, by rintro _ ⟨⟩; decide⟩
  repeatingFieldSet2 := .none
  idIsPinned := false

def acknowledgeDatabase : PgnDatabase Binary64 where
  units := .metric
  pgns := [aisAcknowledge]
  lookups := []
  bitLookups := []
  indirectLookups := []
  fieldTypeLookups := []
  claimFlat := by simp [aisAcknowledge]

def acknowledgeLine (list : String) : List Char :=
  ("\x7b\"pgn\":129796,\"src\":1,\"fields\":\x7b\"Source ID\":2,\"list\":" ++ list ++
    "\x7d\x7d").toList

theorem analyzerLine_acknowledge {list : String}
    (haccepts : ∃ q, run ⟨.value, []⟩ (acknowledgeLine list) = some q ∧ q = ⟨.after, []⟩)
    (hnames : Json.PlainNames (acknowledgeLine list)) : AnalyzerLine (acknowledgeLine list) := by
  obtain ⟨q, hrun, hq⟩ := haccepts
  exact ⟨accepts_iff.mp ⟨q, hrun, .inl hq⟩, hnames⟩

/-- Two objects, with brackets and braces in their texts. -/
def twoObjects : String := "[\x7b\"Destination ID\":3\x7d, \x7b\"Name\":\"]\x7d\\\"[\"\x7d]"

theorem splitsExactly_iff_two : SplitsExactly acknowledgeDatabase aisAcknowledge 1 129796 1
    (acknowledgeLine twoObjects) := by
  have hline : AnalyzerLine (acknowledgeLine twoObjects) :=
    analyzerLine_acknowledge ⟨_, by decide +kernel, rfl⟩ (by decide +kernel)
  refine (@splitsExactly_iff _ _ acknowledgeDatabase aisAcknowledge 1 129796 1 hline
    (by decide +kernel) (by decide +kernel) rfl (by decide +kernel)).mpr ?_
  rintro ⟨before, body, after, hlist, hws⟩
  have hspan := hlist.arraySpan_eq hline (isName_listKey 1) (hws.balanced arrayBrackets)
  have hbrace : ∀ r ∈ arraySpan (acknowledgeLine twoObjects) (listKey 1), '\x7b' ∈ r.2.1 := by
    decide +kernel
  have hbody := hbrace _ hspan
  simp only [List.mem_cons, List.mem_append, List.not_mem_nil, or_false] at hbody
  rcases hbody with h | h | h
  · cases h
  · cases hws _ h
  · cases h

/-- Of an empty list no record is stored. -/
theorem not_splitsExactly_empty : ¬SplitsExactly acknowledgeDatabase aisAcknowledge 1 129796 1
    (acknowledgeLine "[]") := by
  have hline : AnalyzerLine (acknowledgeLine "[]") :=
    analyzerLine_acknowledge ⟨_, by decide +kernel, rfl⟩ (by decide +kernel)
  obtain ⟨before, hlist⟩ := @exists_listIn (listKey 1) (acknowledgeLine "[]") [] "\x7d\x7d".toList
    [] hline (isName_listKey 1) (List.forall_mem_nil _) (by decide +kernel)
  intro h
  have hempty := h.empty before [] _ hlist (List.forall_mem_nil _)
  rw [@classifyJsonLine_empty _ _ acknowledgeDatabase aisAcknowledge 1 129796 1 hline
    (by decide +kernel) (by decide +kernel) rfl (by decide +kernel) _ _ _ hlist
    (List.forall_mem_nil _)] at hempty
  cases hempty

end

end Canboat
