import Canboat.Decode.Fields
import Canboat.Lib.Json.Accepted
import Canboat.Output.JsonText

/-!
# Well-formed output

What `writeJson` emits is a JSON text unless a number shown is not finite, or the first list
shows no field and its placeholder goes behind a list without a comma.
-/

namespace Canboat

open Json
open Binary64 (digits)

/-! ## The `fields` object -/

/-- What the loop needs of the text behind it: at the top level it may write a member behind
`topSep`, and in a list it is inside an object. -/
structure Pending (k : List Frame) (b : FieldsBuf) (q : State) : Prop where
  sep : b.topSep = if b.buf = [] then [] else [',']
  top : b.currentSet = 0 → Ready b.topSep k q
  list : b.currentSet ≠ 0 → b.buf ≠ [] ∧ q.Ends (.object :: .array :: .object :: k)

/-- The end of the open list, where there is one. -/
def FieldsBuf.closing (b : FieldsBuf) : List Char :=
  if b.currentSet ≠ 0 then "\x7d]".toList else []

theorem Pending.start (k : List Frame) :
    Pending k ⟨[], [], 0, none⟩ ⟨.members, .object :: k⟩ :=
  ⟨rfl, fun _ => Or.inl ⟨rfl, rfl⟩, fun h => absurd rfl h⟩

theorem run_closeList {k : List Frame} {q : State}
    (hq : q.Ends (.object :: .array :: .object :: k)) :
    run q "\x7d]".toList = some ⟨.after, .object :: k⟩ :=
  (hq.run (s := "\x7d]".toList) ⟨_, _, rfl, closing_brace⟩).trans rfl

/-- With its list closed the loop is at the top level. -/
theorem Pending.close {k : List Frame} {b : FieldsBuf} {q : State} (hq : Pending k b q) :
    ∃ q', run q b.closing = some q' ∧ Ready b.topSep k q' := by
  unfold FieldsBuf.closing
  split
  · rename_i hset
    obtain ⟨hbuf, hends⟩ := hq.list hset
    refine ⟨_, run_closeList hends, Or.inr ⟨?_, Or.inl rfl⟩⟩
    rw [hq.sep, if_neg hbuf]
  · rename_i hset
    exact ⟨q, rfl, hq.top (not_not.mp hset)⟩

theorem writeMember_ne_nil (opts : JsonOptions) (payload : List UInt8)
    (f : DecodedField Binary64) : writeMember opts payload f ≠ [] := by
  simp [writeMember, writeJsonString, writeJsonStringWithTable]

/-- A list opens in the next member. -/
theorem run_openList {sep : List Char} {k : List Frame} {q : State} (hq : Ready sep k q)
    {key : List Char} (hkey : key = "\"list\":[\x7b".toList ∨ key = "\"list2\":[\x7b".toList) :
    run q (sep ++ key) = some ⟨.members, .object :: .array :: .object :: k⟩ := by
  have hopen : ∀ {n : List Char}, Str n →
      run q (sep ++ (n ++ [':']) ++ "[\x7b".toList) =
        some ⟨.members, .object :: .array :: .object :: k⟩ := by
    intro n hn
    rw [run_append_of (hq.run_name hn)]
    rfl
  rcases hkey with rfl | rfl
  · have h := hopen (str_of_plain (s := "list".toList) (by decide))
    rwa [List.append_assoc] at h
  · have h := hopen (str_of_plain (s := "list2".toList) (by decide))
    rwa [List.append_assoc] at h

theorem run_nextIter {k : List Frame} {q : State}
    (hq : q.Ends (.object :: .array :: .object :: k)) :
    run q "\x7d,\x7b".toList = some ⟨.members, .object :: .array :: .object :: k⟩ :=
  (hq.run (s := "\x7d,\x7b".toList) ⟨_, _, rfl, closing_brace⟩).trans rfl

theorem Pending.of_top {k : List Frame} {b : FieldsBuf} {q : State} (hset : b.currentSet = 0)
    (hsep : b.topSep = [',']) (hbuf : b.buf ≠ []) (hends : q.Ends (.object :: k)) :
    Pending k b q :=
  ⟨by rw [hsep, if_neg hbuf], fun _ => Or.inr ⟨hsep, hends⟩, fun h => absurd hset h⟩

theorem Pending.of_list {k : List Frame} {b : FieldsBuf} {q : State} (hset : b.currentSet ≠ 0)
    (hsep : b.topSep = [',']) (hbuf : b.buf ≠ [])
    (hends : q.Ends (.object :: .array :: .object :: k)) : Pending k b q :=
  ⟨by rw [hsep, if_neg hbuf], fun h => absurd h hset, fun _ => ⟨hbuf, hends⟩⟩

/-- The loop goes from one buffer to the other when the condition holds, and is stuck
otherwise. -/
def Writes (p : Bool) (b b' : FieldsBuf) : Prop :=
  ∃ t, b'.buf = b.buf ++ t ∧ ∀ k q, Pending k b q → RunsIf p q t (Pending k b')

theorem Writes.refl (b : FieldsBuf) : Writes true b b :=
  ⟨[], (List.append_nil _).symm, fun _ _ hq => .nil hq⟩

theorem Writes.trans {p r : Bool} {b b' b'' : FieldsBuf} (h : Writes p b b')
    (h' : Writes r b' b'') : Writes (p && r) b b'' := by
  obtain ⟨t, hbuf, hrun⟩ := h
  obtain ⟨t', hbuf', hrun'⟩ := h'
  refine ⟨t ++ t', ?_, fun k q hq => (hrun k q hq).append fun q' hq' => hrun' k q' hq'⟩
  rw [hbuf', hbuf, List.append_assoc]

theorem buf_ne_nil (opts : JsonOptions) (payload : List UInt8) (f : DecodedField Binary64)
    (s t : List Char) : s ++ (t ++ writeMember opts payload f) ≠ [] :=
  List.append_ne_nil_of_right_ne_nil _
    (List.append_ne_nil_of_right_ne_nil _ (writeMember_ne_nil opts payload f))

theorem writes_push (opts : JsonOptions) (payload : List UInt8) (b : FieldsBuf)
    (f : DecodedField Binary64) : Writes (numbersFinite opts f) b (b.push opts payload f) := by
  by_cases hset : f.repeatSet = 0
  · -- at the top level, with any list closed first
    rw [FieldsBuf.push, if_pos hset]
    refine ⟨_, rfl, fun k q hq => ?_⟩
    obtain ⟨q', hrun, hready⟩ := hq.close
    rw [List.append_assoc]
    refine .after hrun ((run_writeMember opts payload f hready).imp fun q'' hends => ?_)
    exact .of_top rfl rfl (buf_ne_nil opts payload f _ _) hends
  rw [FieldsBuf.push, if_neg hset]
  by_cases hnew : b.currentSet ≠ f.repeatSet
  · rw [if_pos hnew]
    refine ⟨_, rfl, fun k q hq => ?_⟩
    obtain ⟨q', hrun, hready⟩ := hq.close
    have hkey := ite_eq_or_eq (f.repeatSet = 1) "\"list\":[\x7b".toList "\"list2\":[\x7b".toList
    have hbody := run_writeMember opts payload f
      (show Ready [] (.array :: .object :: k) _ from Or.inl ⟨rfl, rfl⟩)
    rw [List.append_assoc _ b.topSep, List.append_assoc, List.append_assoc, ← List.append_assoc b.topSep]
    refine .after hrun (.after (run_openList hready hkey) (hbody.imp fun q'' hends => ?_))
    exact .of_list hset rfl (buf_ne_nil opts payload f _ _) hends
  rw [if_neg hnew]
  have hcur : b.currentSet ≠ 0 := by
    rw [not_not.mp hnew]
    exact hset
  by_cases hiter : some (f.repeatIndex.getD 0) ≠ b.currentIter
  · rw [if_pos hiter]
    refine ⟨_, rfl, fun k q hq => ?_⟩
    obtain ⟨hbuf, hends⟩ := hq.list hcur
    have hsep := hq.sep
    rw [if_neg hbuf] at hsep
    have hbody := run_writeMember opts payload f
      (show Ready [] (.array :: .object :: k) _ from Or.inl ⟨rfl, rfl⟩)
    refine .after (run_nextIter hends) (hbody.imp fun q'' hends' => ?_)
    exact .of_list hcur hsep (buf_ne_nil opts payload f _ _) hends'
  · rw [if_neg hiter]
    refine ⟨_, rfl, fun k q hq => ?_⟩
    obtain ⟨hbuf, hends⟩ := hq.list hcur
    have hsep := hq.sep
    rw [if_neg hbuf] at hsep
    have hbody := run_writeMember opts payload f
      (show Ready [','] (.array :: .object :: k) _ from Or.inr ⟨rfl, hends⟩)
    refine hbody.imp fun q'' hends' => ?_
    exact .of_list hcur hsep (buf_ne_nil opts payload f _ [',']) hends'

/-- All fields shown. -/
theorem writes_pushes (opts : JsonOptions) (payload : List UInt8)
    (fields : List (DecodedField Binary64)) (b : FieldsBuf) :
    Writes (fields.all (numbersFinite opts)) b (fields.foldl (FieldsBuf.push opts payload) b) := by
  induction fields generalizing b with
  | nil => exact .refl b
  | cons f fields ih => exact (writes_push opts payload b f).trans (ih _)

/-! ## The placeholders -/

/-- What goes before the next member of an object with this inside. -/
def sepOf (buf : List Char) : List Char := if buf = [] then [] else [',']

/-- The buffer goes on to the other one, at the top level in both, when the condition holds. -/
def Extends (p : Bool) (buf buf' : List Char) : Prop :=
  ∃ t, buf' = buf ++ t ∧ ∀ k q, Ready (sepOf buf) k q → RunsIf p q t (Ready (sepOf buf') k)

theorem Extends.refl (buf : List Char) : Extends true buf buf :=
  ⟨[], (List.append_nil _).symm, fun _ _ hq => .nil hq⟩

theorem Extends.trans {p r : Bool} {buf buf' buf'' : List Char} (h : Extends p buf buf')
    (h' : Extends r buf' buf'') : Extends (p && r) buf buf'' := by
  obtain ⟨t, rfl, hrun⟩ := h
  obtain ⟨t', rfl, hrun'⟩ := h'
  exact ⟨t ++ t', List.append_assoc _ _ _,
    fun k q hq => (hrun k q hq).append fun q' hq' => hrun' k q' hq'⟩

theorem sepOf_append {s t : List Char} (ht : t ≠ []) : sepOf (s ++ t) = [','] :=
  if_neg (List.append_ne_nil_of_right_ne_nil _ ht)

/-- A list that shows no field. -/
theorem extends_placeholder (buf : List Char) {key : List Char}
    (hkey : key = "\"list\":[\x7b\x7d]".toList ∨ key = "\"list2\":[\x7b\x7d]".toList) :
    Extends true buf (buf ++ (sepOf buf ++ key)) := by
  refine ⟨_, rfl, fun k q hq => ?_⟩
  have hne : key ≠ [] := by rcases hkey with rfl | rfl <;> simp
  rw [sepOf_append (List.append_ne_nil_of_right_ne_nil _ hne)]
  have hrun : run q (sepOf buf ++ key) = some ⟨.after, .object :: k⟩ := by
    rcases hkey with rfl | rfl
    · have h := run_openList hq (Or.inl rfl)
      have heq : "\"list\":[\x7b\x7d]".toList = "\"list\":[\x7b".toList ++ "\x7d]".toList := rfl
      rw [heq, ← List.append_assoc, run_append_of h]
      rfl
    · have h := run_openList hq (Or.inr rfl)
      have heq : "\"list2\":[\x7b\x7d]".toList = "\"list2\":[\x7b".toList ++ "\x7d]".toList :=
        rfl
      rw [heq, ← List.append_assoc, run_append_of h]
      rfl
  exact .of_run hrun (Or.inr ⟨rfl, Or.inl rfl⟩)

/-- Behind a value there is no member without a comma. -/
theorem extends_stuck {buf : List Char} (hbuf : buf ≠ []) (t : List Char) :
    Extends false buf (buf ++ '"' :: t) := by
  refine ⟨_, rfl, fun k q hq => ⟨fun h => Bool.noConfusion h, fun _ => ?_⟩⟩
  rw [sepOf, if_neg hbuf] at hq
  rcases hq with ⟨h, -⟩ | ⟨-, hends⟩
  · cases h
  · have hclosing : Closing '"' := ⟨rfl, by decide, by decide, by decide⟩
    exact (hends.run ⟨'"', t, rfl, hclosing⟩).trans rfl

/-- The first list shows no field, and the loop left another list open: its end is written
before the placeholder, and no comma. -/
def FieldsBuf.losesComma (opts : JsonOptions) (pgn : DecodedPgn Binary64) (b : FieldsBuf) : Bool :=
  pgn.hasRepeatingSet.1 && !sawSet opts pgn.fields 1 && b.currentSet != 0

theorem FieldsBuf.closing_eq_nil {b : FieldsBuf} (hset : b.currentSet = 0) : b.closing = [] :=
  if_neg fun h => h hset

/-- The end of the text, from the loop's last buffer. -/
theorem writes_finish (opts : JsonOptions) (pgn : DecodedPgn Binary64) {b : FieldsBuf}
    (hsep : b.topSep = sepOf b.buf) (hlist : b.currentSet ≠ 0 → b.buf ≠ []) :
    Extends (!b.losesComma opts pgn) (b.buf ++ b.closing) (b.finish opts pgn) := by
  have hfirst : Extends (!b.losesComma opts pgn) (b.buf ++ b.closing)
      (if pgn.hasRepeatingSet.1 ∧ ¬sawSet opts pgn.fields 1 then
        b.buf ++ b.closing ++ (if b.buf ++ b.closing ≠ [] ∧ b.currentSet = 0 then b.topSep else []) ++
          "\"list\":[\x7b\x7d]".toList
      else b.buf ++ b.closing) := by
    by_cases hempty : pgn.hasRepeatingSet.1 ∧ ¬sawSet opts pgn.fields 1
    · rw [if_pos hempty]
      by_cases hset : b.currentSet = 0
      · have hlose : b.losesComma opts pgn = false := by simp [FieldsBuf.losesComma, hset]
        have hsep' : (if b.buf ++ b.closing ≠ [] ∧ b.currentSet = 0 then b.topSep else []) =
            sepOf (b.buf ++ b.closing) := by
          rw [FieldsBuf.closing_eq_nil hset, List.append_nil, hsep, sepOf]
          by_cases hbuf : b.buf = [] <;> simp [hbuf, hset]
        rw [hlose, hsep', List.append_assoc (b.buf ++ b.closing)]
        exact extends_placeholder _ (Or.inl rfl)
      · have hlose : b.losesComma opts pgn = true := by
          simpa [FieldsBuf.losesComma, hset] using hempty
        rw [hlose, if_neg fun h => hset h.2, List.append_nil]
        exact extends_stuck (List.append_ne_nil_of_left_ne_nil (hlist hset) _) _
    · rw [if_neg hempty]
      have hlose : b.losesComma opts pgn = false := by
        rw [FieldsBuf.losesComma, Bool.and_eq_false_iff]
        left
        simpa using hempty
      rw [hlose]
      exact .refl _
  have hsecond : ∀ buf : List Char, Extends true buf
      (if pgn.hasRepeatingSet.2 ∧ ¬sawSet opts pgn.fields 2 then
        buf ++ (if buf ≠ [] then [','] else []) ++ "\"list2\":[\x7b\x7d]".toList
      else buf) := by
    intro buf
    split
    · have hsep' : (if buf ≠ [] then [','] else []) = sepOf buf := by
        rw [sepOf]
        by_cases hbuf : buf = [] <;> simp [hbuf]
      rw [hsep', List.append_assoc]
      exact extends_placeholder buf (Or.inr rfl)
    · exact .refl _
  have h := hfirst.trans (hsecond _)
  rw [Bool.and_true] at h
  exact h

theorem push_currentSet (opts : JsonOptions) (payload : List UInt8) (b : FieldsBuf)
    (f : DecodedField Binary64) : (b.push opts payload f).currentSet = f.repeatSet := by
  by_cases hset : f.repeatSet = 0
  · rw [FieldsBuf.push, if_pos hset]
    exact hset.symm
  rw [FieldsBuf.push, if_neg hset]
  by_cases hnew : b.currentSet ≠ f.repeatSet
  · rw [if_pos hnew]
  rw [if_neg hnew]
  by_cases hiter : some (f.repeatIndex.getD 0) ≠ b.currentIter
  · rw [if_pos hiter]
    exact not_not.mp hnew
  · rw [if_neg hiter]
    exact not_not.mp hnew

theorem pushes_currentSet (opts : JsonOptions) (payload : List UInt8)
    (fields : List (DecodedField Binary64)) (b : FieldsBuf) :
    (fields.foldl (FieldsBuf.push opts payload) b).currentSet =
      (fields.getLast?.map (·.repeatSet)).getD b.currentSet := by
  induction fields generalizing b with
  | nil => rfl
  | cons f fields ih =>
      rw [List.foldl_cons, ih, push_currentSet, List.getLast?_cons]
      cases fields.getLast? <;> rfl

/-- The fields with a place in the output. -/
def shownFields (opts : JsonOptions) (pgn : DecodedPgn Binary64) : List (DecodedField Binary64) :=
  pgn.fields.filter (shown opts (payloadBits pgn.data))

/-- The first list was reached and shows no field, and the last field shown is in a list. -/
def losesComma (opts : JsonOptions) (pgn : DecodedPgn Binary64) : Bool :=
  pgn.hasRepeatingSet.1 && !sawSet opts pgn.fields 1 &&
    ((shownFields opts pgn).getLast?.map (·.repeatSet)).getD 0 != 0

/-- Every number shown is finite, and the comma is there. -/
def wellFormed (opts : JsonOptions) (pgn : DecodedPgn Binary64) : Bool :=
  (shownFields opts pgn).all (numbersFinite opts) && !losesComma opts pgn

theorem finish_buf (opts : JsonOptions) (pgn : DecodedPgn Binary64) (b : FieldsBuf) :
    ∃ t, b.finish opts pgn = b.buf ++ t := by
  unfold FieldsBuf.finish
  simp only
  split <;> split
  · exact ⟨_, by rw [List.append_assoc, List.append_assoc, List.append_assoc, List.append_assoc]⟩
  · exact ⟨_, by rw [List.append_assoc, List.append_assoc]⟩
  · exact ⟨_, by rw [List.append_assoc, List.append_assoc]⟩
  · exact ⟨_, rfl⟩

theorem sepOf_closing {k : List Frame} {b : FieldsBuf} {q : State} (hq : Pending k b q) :
    sepOf (b.buf ++ b.closing) = b.topSep := by
  by_cases hset : b.currentSet = 0
  · rw [FieldsBuf.closing_eq_nil hset, List.append_nil]
    exact hq.sep.symm
  · have hbuf := (hq.list hset).1
    rw [sepOf, if_neg (List.append_ne_nil_of_left_ne_nil hbuf _), hq.sep, if_neg hbuf]

theorem Writes.members {opts : JsonOptions} {pgn : DecodedPgn Binary64} {p : Bool}
    {b : FieldsBuf} (h : Writes p ⟨[], [], 0, none⟩ b) :
    MembersIf (p && !b.losesComma opts pgn) (b.finish opts pgn) := by
  intro k
  obtain ⟨t, hbuf, hrun⟩ := h
  obtain ⟨t', hfinish⟩ := finish_buf opts pgn b
  rw [hfinish, hbuf, List.nil_append]
  refine (hrun k _ (Pending.start k)).append fun q hq => ?_
  obtain ⟨t'', heq, hend⟩ := writes_finish opts pgn hq.sep fun hset => (hq.list hset).1
  obtain ⟨q', hclose, hready⟩ := hq.close
  rw [hfinish, List.append_assoc, List.append_cancel_left_eq] at heq
  rw [← sepOf_closing hq] at hready
  rw [heq]
  exact .after hclose ((hend k q' hready).imp fun q'' hq'' => ⟨_, hq''⟩)

theorem membersIf_fieldsText (opts : JsonOptions) (pgn : DecodedPgn Binary64) :
    MembersIf (wellFormed opts pgn) (fieldsText opts pgn) := by
  have h : MembersIf _ (FieldsBuf.finish opts pgn _) :=
    (writes_pushes opts pgn.data (shownFields opts pgn) ⟨[], [], 0, none⟩).members
  rwa [FieldsBuf.losesComma, pushes_currentSet] at h

/-! ## The record -/

theorem membersIf_nil {p : Bool} (h : MembersIf p []) : p = true := by
  cases p with
  | true => rfl
  | false => cases (h []).stuck rfl

/-- Up to the name of the first member that is always there. -/
theorem run_timestamp (timestamp : Option String) (k : List Frame) :
    run ⟨.members, .object :: k⟩ ((match timestamp with
      | some ts =>
          "\"timestamp\":".toList ++ writeJsonString (normalizeTimestamp ts.toList) ++ [',']
      | none => []) ++ "\"prio\":".toList) = some ⟨.value, .object :: k⟩ := by
  cases timestamp with
  | none => rfl
  | some ts =>
      obtain ⟨q, hrun, rfl⟩ :=
        ((str_writeJsonString (normalizeTimestamp ts.toList)).closed (.object :: k)).runs rfl
      simp only [List.append_assoc]
      rw [run_append_of (show run ⟨.members, .object :: k⟩ "\"timestamp\":".toList =
        some ⟨.value, .object :: k⟩ from rfl), run_append_of hrun]
      rfl

theorem membersIf_recordText (opts : JsonOptions) (pgn : DecodedPgn Binary64) :
    MembersIf (wellFormed opts pgn) (recordText opts pgn) := by
  intro k
  have hprio : RunsIf true ⟨.members, .object :: k⟩ _ (Ready [','] k) :=
    .after (run_timestamp pgn.timestamp k) ((reads_digits pgn.prio.toNat (.object :: k)).imp
      fun _ hends => Or.inr ⟨rfl, hends⟩)
  have hdescription := (((hprio.more (t := "\"src\":".toList) rfl (reads_digits pgn.src.toNat)).more
    (t := "\"dst\":".toList) rfl (reads_digits pgn.dst.toNat)).more
    (t := "\"pgn\":".toList) rfl (reads_digits pgn.pgn.toNat)).more
    (t := "\"description\":".toList) rfl
    (str_writeJsonString (displayName opts.camelCase pgn.description pgn.id)).closed.readsIf
  have hfields := membersIf_fieldsText opts pgn
  unfold recordText
  by_cases hnil : fieldsText opts pgn = []
  · rw [if_pos hnil, List.append_nil]
    rw [hnil] at hfields
    rw [membersIf_nil hfields]
    exact hdescription.imp fun q hq => ⟨_, hq⟩
  · rw [if_neg hnil]
    have h := hdescription.more (t := "\"fields\":".toList) rfl hfields.object.readsIf
    have heq : ",\"fields\":\x7b".toList ++ fieldsText opts pgn ++ ['\x7d'] =
        ',' :: "\"fields\":".toList ++ '\x7b' :: (fieldsText opts pgn ++ ['\x7d']) := by
      rw [List.append_assoc]
      rfl
    rw [List.append_assoc _ (',' :: _), ← heq] at h
    exact h.imp fun q hq => ⟨_, hq⟩

theorem plain_ascii : ∀ n < 128, isIdentChar (Char.ofNat n) = true →
    isPlain (Char.ofNat n) = true ∧ isPlain (Char.ofNat n).toUpper = true := by decide +kernel

theorem identChar_ascii {c : Char} (hc : isIdentChar c = true) : c.toNat < 128 := by
  have hcases : ((decide (c.val ≥ 'A'.val ∧ c.val ≤ 'Z'.val) ||
      decide (c.val ≥ 'a'.val) && decide (c.val ≤ 'z'.val) ||
      decide (c.val ≥ '0'.val) && decide (c.val ≤ '9'.val)) || c == '_') = true := hc
  simp only [Bool.or_eq_true, Bool.and_eq_true, decide_eq_true_eq, beq_iff_eq,
    UInt32.le_iff_toNat_le, ge_iff_le] at hcases
  rcases hcases with (((⟨-, h⟩ | ⟨-, h⟩) | ⟨-, h⟩) | rfl)
  · exact Nat.lt_of_le_of_lt h (by decide)
  · exact Nat.lt_of_le_of_lt h (by decide)
  · exact Nat.lt_of_le_of_lt h (by decide)
  · decide

theorem isPlain_identChar {c : Char} (hc : isIdentChar c = true) :
    isPlain c = true ∧ isPlain c.toUpper = true := by
  have h := plain_ascii c.toNat (identChar_ascii hc)
  rw [Char.ofNat_toNat] at h
  exact h hc

/-- An identifier, in either case, needs no escapes. -/
theorem displayName_plain {mode : CamelCase} (hmode : mode ≠ .off) (name : String)
    (id : Identifier) : ∀ c ∈ displayName mode name id, isPlain c = true := by
  have hident := List.all_eq_true.mp id.ident
  cases mode with
  | off => exact absurd rfl hmode
  | lower => exact fun c hc => (isPlain_identChar (hident c hc)).1
  | upper =>
      simp only [displayName, upperCamel]
      cases hval : id.val.toList with
      | nil => simp
      | cons d ds =>
          rw [hval] at hident
          intro c hc
          rcases List.mem_cons.mp hc with rfl | hc
          · exact (isPlain_identChar (hident d List.mem_cons_self)).2
          · exact (isPlain_identChar (hident c (List.mem_cons_of_mem _ hc))).1

theorem readsIf_writeJson (opts : JsonOptions) (pgn : DecodedPgn Binary64) :
    ReadsIf (wellFormed opts pgn) (writeJson opts pgn) := by
  have hbody := (membersIf_recordText opts pgn).object.readsIf
  unfold writeJson
  simp only
  split
  · exact hbody
  · rename_i hmode
    have hname := str_of_plain (displayName_plain hmode pgn.description pgn.id)
    have h := ReadsIf.object hname hbody .nil
    rw [Bool.and_true] at h
    have heq : "\x7b\"".toList ++ displayName opts.camelCase pgn.description pgn.id ++
        "\":".toList ++ ('\x7b' :: recordText opts pgn ++ ['\x7d']) ++ ['\x7d'] =
        '\x7b' :: ('"' :: (displayName opts.camelCase pgn.description pgn.id ++ ['"']) ++
          ':' :: ('\x7b' :: (recordText opts pgn ++ ['\x7d']) ++ ([] ++ ['\x7d']))) := by
      simp only [List.append_assoc, List.cons_append, List.nil_append]
      rfl
    rw [heq]
    exact h.readsIf

theorem text_writeJson_iff (opts : JsonOptions) (pgn : DecodedPgn Binary64) :
    Text (writeJson opts pgn) ↔ wellFormed opts pgn = true :=
  accepts_iff.symm.trans (readsIf_writeJson opts pgn).accepts_iff

/-! ## Decoded records -/

theorem wellFormed_iff (opts : JsonOptions) (pgn : DecodedPgn Binary64) :
    wellFormed opts pgn = true ↔
      (∀ f ∈ shownFields opts pgn, numbersFinite opts f = true) ∧
        ¬(pgn.hasRepeatingSet.1 = true ∧ sawSet opts pgn.fields 1 = false ∧
          ∃ f, (shownFields opts pgn).getLast? = some f ∧ f.repeatSet ≠ 0) := by
  rw [wellFormed, Bool.and_eq_true, List.all_eq_true, losesComma, Bool.not_eq_true',
    ← Bool.not_eq_true, Bool.and_eq_true, Bool.and_eq_true, Bool.not_eq_true', and_assoc,
    bne_iff_ne]
  have hlast : ((shownFields opts pgn).getLast?.map (·.repeatSet)).getD 0 ≠ 0 ↔
      ∃ f, (shownFields opts pgn).getLast? = some f ∧ f.repeatSet ≠ 0 := by
    cases (shownFields opts pgn).getLast? with
    | none => simp
    | some f => simp
  rw [hlast]

/-- Of a decoded frame the output is a JSON text exactly when every number shown is finite and it
is not the case that the first list was reached, shows nothing, and the last field shown is in
a list. -/
theorem decode_writeJson_iff (db : PgnDatabase Binary64) (frame : RawFrame) :
    ∀ pgn, db.decode frame = .ok pgn → ∀ opts,
      (Text (writeJson opts pgn) ↔
        (∀ f ∈ shownFields opts pgn, numbersFinite opts f = true) ∧
          ¬(pgn.hasRepeatingSet.1 = true ∧ sawSet opts pgn.fields 1 = false ∧
            ∃ f, (shownFields opts pgn).getLast? = some f ∧ f.repeatSet ≠ 0)) := by
  intro pgn _ opts
  rw [text_writeJson_iff, wellFormed_iff]

theorem size_one_pos : ∀ n ∈ some (1 : UInt32), 0 < n :=
  RepeatingFieldSet.pos_of_some (by decide)

/-- A count, and a list of its own for each of two fields. -/
def twoLists : PgnInfo Binary64 where
  pgn := 130000
  id := ⟨"twoLists", by decide⟩
  description := "Two Lists"
  packetType := .single
  fallback := none
  priority := none
  length := none
  fields :=
    [.number (Float64.ofInt 0) 1 ⟨"count", Eq.refl true⟩ 8,
      { (FieldInfo.number (Float64.ofInt 0) 2 ⟨"first", by decide⟩ 8) with
        unknownValue := some 255 },
      .number (Float64.ofInt 0) 3 ⟨"second", by decide⟩ 8]
  repeatingFieldSet1 := ⟨some 1, some 2, some 1, size_one_pos⟩
  repeatingFieldSet2 := ⟨some 1, some 3, none, size_one_pos⟩
  idIsPinned := false

def oneFloat : PgnInfo Binary64 where
  pgn := 130001
  id := ⟨"oneFloat", by decide⟩
  description := "One Float"
  packetType := .single
  fallback := none
  priority := none
  length := none
  fields :=
    [{ (FieldInfo.number (Float64.ofInt 0) 1 ⟨"ratio", by decide⟩ 32) with
      fieldType := some .float }]
  repeatingFieldSet1 := .none
  repeatingFieldSet2 := .none
  idIsPinned := false

def listDatabase : PgnDatabase Binary64 where
  units := .si
  pgns := [twoLists, oneFloat]
  lookups := []
  bitLookups := []
  indirectLookups := []
  fieldTypeLookups := []
  claimFlat := by simp [twoLists, oneFloat]

def defaultOptions : JsonOptions := ⟨false, false, false, .off⟩

theorem decode_of_wellFormed {db : PgnDatabase Binary64} {frame : RawFrame} {opts : JsonOptions}
    {b : Bool} (h : (db.decode frame).toOption.map (wellFormed opts) = some b) :
    ∃ pgn, db.decode frame = .ok pgn ∧ wellFormed opts pgn = b := by
  cases hdecode : db.decode frame with
  | error e => rw [hdecode] at h; cases h
  | ok pgn =>
      rw [hdecode] at h
      exact ⟨pgn, rfl, Option.some.inj h⟩

def listFrame (pgn : UInt32) (data : List UInt8) : RawFrame := ⟨none, 3, pgn, 1, 255, data⟩

/-- Both lists show their field. -/
theorem decode_writeJson_iff_two : ∃ pgn,
    listDatabase.decode (listFrame 130000 [1, 5, 7]) = .ok pgn ∧
      Text (writeJson defaultOptions pgn) := by
  obtain ⟨pgn, hdecode, hwf⟩ := decode_of_wellFormed (show
    (listDatabase.decode (listFrame 130000 [1, 5, 7])).toOption.map (wellFormed defaultOptions) =
      some true by decide +kernel)
  exact ⟨pgn, hdecode,
    (decode_writeJson_iff _ _ pgn hdecode defaultOptions).mpr ((wellFormed_iff _ _).mp hwf)⟩

/-- The first list's one field is not available, and the placeholder lands behind the second
list; a NaN is written as it displays. -/
theorem writeJson_malformed :
    (∃ pgn, listDatabase.decode (listFrame 130000 [1, 255, 7]) = .ok pgn ∧
      ¬Text (writeJson defaultOptions pgn)) ∧
    ∃ pgn, listDatabase.decode (listFrame 130001 [0, 0, 0xc0, 0x7f]) = .ok pgn ∧
      ¬Text (writeJson defaultOptions pgn) := by
  have hmalformed : ∀ frame,
      (listDatabase.decode frame).toOption.map (wellFormed defaultOptions) = some false →
      ∃ pgn, listDatabase.decode frame = .ok pgn ∧ ¬Text (writeJson defaultOptions pgn) := by
    intro frame h
    obtain ⟨pgn, hdecode, hwf⟩ := decode_of_wellFormed h
    refine ⟨pgn, hdecode, ?_⟩
    rw [text_writeJson_iff, hwf]
    exact Bool.false_ne_true
  exact ⟨hmalformed _ (by decide +kernel), hmalformed _ (by decide +kernel)⟩

end Canboat
