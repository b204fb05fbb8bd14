import Canboat.Lib.Json.Grammar
import Canboat.Lib.Json.Search
import Canboat.Lib.Json.Tree

/-!
# Reading JSON values

A machine that builds the value of a text, one character at a time. A run over a concatenation is
the run over the first part followed by the run over the second, and a value reads the same inside
any open arrays and objects; so a text is read piece by piece. A name that stands twice in an
object keeps its first place and its last value. Escapes of surrogates are not read.
-/

namespace Json.Reader

/-- An array or object that is open, with what is complete of it. -/
inductive Frame (N : Type)
  | items (done : List (Tree N))
  /-- Before a name. -/
  | members (done : List (String × Tree N))
  /-- Behind a name. -/
  | member (done : List (String × Tree N)) (name : String)

inductive Mode (N : Type)
  /-- Before a value. -/
  | value
  /-- After `[`. -/
  | firstItem
  /-- After an opening brace. -/
  | firstName
  /-- After a comma in an object. -/
  | name
  /-- After a name. -/
  | colon
  /-- Inside a string, which is a name or a value. -/
  | chars (isName : Bool) (text : List Char)
  | escape (isName : Bool) (text : List Char)
  /-- Inside `\uXXXX`, with one more digit than the count to come. -/
  | unicode (isName : Bool) (text : List Char) (code left : ℕ)
  | numeral (text : List Char)
  /-- Inside a literal. -/
  | word (rest : List Char) (v : Tree N)
  | done (v : Tree N)

structure State (N : Type) where
  mode : Mode N
  stack : List (Frame N)

variable {N : Type}

def isNumeralChar (c : Char) : Bool :=
  isDigit c || c == '-' || c == '+' || c == '.' || c == 'e' || c == 'E'

/-- The character after a backslash, for the one it stands for. -/
def unescape (c : Char) : Option Char :=
  if c = '"' ∨ c = '\\' ∨ c = '/' then some c
  else if c = 'b' then some '\x08'
  else if c = 'f' then some '\x0c'
  else if c = 'n' then some '\n'
  else if c = 'r' then some '\r'
  else if c = 't' then some '\t'
  else none

def hexDigitValue (c : Char) : Option ℕ :=
  if isDigit c then some (c.toNat - 48)
  else if 'a' ≤ c ∧ c ≤ 'f' then some (c.toNat - 87)
  else if 'A' ≤ c ∧ c ≤ 'F' then some (c.toNat - 55)
  else none

/-- A character after a complete value. -/
def place (v : Tree N) (k : List (Frame N)) (c : Char) : Option (State N) :=
  if isWs c then some ⟨.done v, k⟩
  else
    match k with
    | .items done :: k =>
        if c = ',' then some ⟨.value, .items (done ++ [v]) :: k⟩
        else if c = ']' then some ⟨.done (.array (done ++ [v])), k⟩
        else none
    | .member done name :: k =>
        if c = ',' then some ⟨.name, .members (insertMember name v done) :: k⟩
        else if c = '\x7d' then some ⟨.done (.object (insertMember name v done)), k⟩
        else none
    | _ => none

/-- The first character of a value. -/
def begin (k : List (Frame N)) (c : Char) : Option (State N) :=
  if c = '"' then some ⟨.chars false [], k⟩
  else if c = '[' then some ⟨.firstItem, .items [] :: k⟩
  else if c = '\x7b' then some ⟨.firstName, .members [] :: k⟩
  else if c = 'n' then some ⟨.word "ull".toList .null, k⟩
  else if c = 't' then some ⟨.word "rue".toList (.bool true), k⟩
  else if c = 'f' then some ⟨.word "alse".toList (.bool false), k⟩
  else if isNumeralChar c then some ⟨.numeral [c], k⟩
  else none

/-- The end of a string. -/
def close (isName : Bool) (text : List Char) (k : List (Frame N)) : Option (State N) :=
  if isName then
    match k with
    | .members done :: k => some ⟨.colon, .member done (String.ofList text) :: k⟩
    | _ => none
  else some ⟨.done (.string (String.ofList text)), k⟩

section

variable (numeral : List Char → Option N)

def step : State N → Char → Option (State N)
  | ⟨.value, k⟩, c => if isWs c then some ⟨.value, k⟩ else begin k c
  | ⟨.firstItem, k⟩, c =>
      if isWs c then some ⟨.firstItem, k⟩
      else if c = ']' then some ⟨.done (.array []), k.tail⟩
      else begin k c
  | ⟨.firstName, k⟩, c =>
      if isWs c then some ⟨.firstName, k⟩
      else if c = '\x7d' then some ⟨.done (.object []), k.tail⟩
      else if c = '"' then some ⟨.chars true [], k⟩
      else none
  | ⟨.name, k⟩, c =>
      if isWs c then some ⟨.name, k⟩ else if c = '"' then some ⟨.chars true [], k⟩ else none
  | ⟨.colon, k⟩, c =>
      if isWs c then some ⟨.colon, k⟩ else if c = ':' then some ⟨.value, k⟩ else none
  | ⟨.chars isName text, k⟩, c =>
      if c = '"' then close isName text k
      else if c = '\\' then some ⟨.escape isName text, k⟩
      else if isPlain c then some ⟨.chars isName (text ++ [c]), k⟩
      else none
  | ⟨.escape isName text, k⟩, c =>
      if c = 'u' then some ⟨.unicode isName text 0 3, k⟩
      else (unescape c).map fun d => ⟨.chars isName (text ++ [d]), k⟩
  | ⟨.unicode isName text code left, k⟩, c =>
      (hexDigitValue c).bind fun d =>
        let code := 16 * code + d
        match left with
        | left + 1 => some ⟨.unicode isName text code left, k⟩
        | 0 =>
            if 0xd800 ≤ code ∧ code < 0xe000 then none
            else some ⟨.chars isName (text ++ [Char.ofNat code]), k⟩
  | ⟨.numeral text, k⟩, c =>
      if isNumeralChar c then some ⟨.numeral (text ++ [c]), k⟩
      else (numeral text).bind fun n => place (.number n) k c
  | ⟨.word rest v, k⟩, c =>
      match rest with
      | [] => none
      | [d] => if c = d then some ⟨.done v, k⟩ else none
      | d :: rest => if c = d then some ⟨.word rest v, k⟩ else none
  | ⟨.done v, k⟩, c => place v k c

def run : State N → List Char → Option (State N)
  | q, [] => some q
  | q, c :: s => (step numeral q c).bind fun q => run q s

def finish : State N → Option (Tree N)
  | ⟨.done v, []⟩ => some v
  | ⟨.numeral text, []⟩ => (numeral text).map .number
  | _ => none

/-- The value of a text. -/
def read (s : List Char) : Option (Tree N) := (run numeral ⟨.value, []⟩ s).bind (finish numeral)

/-! ## Pieces of a text -/

theorem run_append (q : State N) (s t : List Char) :
    run numeral q (s ++ t) = (run numeral q s).bind fun q => run numeral q t := by
  induction s generalizing q with
  | nil => rfl
  | cons c s ih =>
      rw [List.cons_append, run, run]
      cases step numeral q c with
      | none => rfl
      | some q' => exact ih q'

theorem run_append_of {q q' : State N} {s : List Char} (h : run numeral q s = some q')
    (t : List Char) : run numeral q (s ++ t) = run numeral q' t := by
  rw [run_append, h, Option.bind_some]

/-- A value is complete, or a number that may go on. -/
inductive Ends : State N → Tree N → List (Frame N) → Prop
  | done (v : Tree N) (k : List (Frame N)) : Ends ⟨.done v, k⟩ v k
  | numeral {text : List Char} {n : N} (h : numeral text = some n) (k : List (Frame N)) :
      Ends ⟨.numeral text, k⟩ (.number n) k

theorem Ends.step {q : State N} {v : Tree N} {k : List (Frame N)} (h : Ends numeral q v k)
    {c : Char} (hc : isNumeralChar c = false) : step numeral q c = place v k c := by
  cases h with
  | done v k => rfl
  | numeral h k => rw [Reader.step, hc, if_neg Bool.false_ne_true, h, Option.bind_some]

theorem Ends.finish {q : State N} {v : Tree N} (h : Ends numeral q v []) :
    finish numeral q = some v := by
  generalize hk : ([] : List (Frame N)) = k at h
  cases h with
  | done v k =>
      subst hk
      rfl
  | numeral h k =>
      subst hk
      rw [Reader.finish, h, Option.map_some]

/-- The text is of that value, wherever it stands. -/
def Reads (s : List Char) (v : Tree N) : Prop :=
  ∀ k, ∃ q, run numeral ⟨.value, k⟩ s = some q ∧ Ends numeral q v k

theorem Reads.read {s : List Char} {v : Tree N} (h : Reads numeral s v) :
    read numeral s = some v := by
  obtain ⟨q, hrun, hends⟩ := h []
  rw [Reader.read, hrun, Option.bind_some, hends.finish]

/-! ## Strings -/

/-- Inside a string, these characters are for those. -/
def Spells (raw text : List Char) : Prop :=
  ∀ (isName : Bool) (before : List Char) (k : List (Frame N)),
    run numeral ⟨.chars isName before, k⟩ raw = some ⟨.chars isName (before ++ text), k⟩

theorem Spells.nil : Spells numeral [] [] := by
  intro isName before k
  rw [List.append_nil]
  rfl

theorem Spells.append {raw raw' text text' : List Char} (h : Spells numeral raw text)
    (h' : Spells numeral raw' text') : Spells numeral (raw ++ raw') (text ++ text') := by
  intro isName before k
  rw [run_append_of numeral (h isName before k), h', List.append_assoc]

theorem spells_plain {c : Char} (hc : isPlain c = true) : Spells numeral [c] [c] := by
  intro isName before k
  have hquote : c ≠ '"' := by
    rintro rfl
    cases hc
  have hslash : c ≠ '\\' := by
    rintro rfl
    cases hc
  rw [run, step, if_neg hquote, if_neg hslash, if_pos hc]
  rfl

theorem spells_escape {c d : Char} (hc : unescape c = some d) : Spells numeral ['\\', c] [d] := by
  intro isName before k
  have hu : c ≠ 'u' := by
    rintro rfl
    cases hc
  have hbackslash : step numeral ⟨.chars isName before, k⟩ '\\' = some ⟨.escape isName before, k⟩ :=
    rfl
  rw [run, hbackslash, Option.bind_some, run, step, if_neg hu, hc]
  rfl

theorem step_unicode {c : Char} {w : ℕ} (hc : hexDigitValue c = some w) (isName : Bool)
    (text : List Char) (code left : ℕ) (k : List (Frame N)) :
    step numeral ⟨.unicode isName text code (left + 1), k⟩ c =
      some ⟨.unicode isName text (16 * code + w) left, k⟩ := by
  rw [step, hc, Option.bind_some]

/-- A code in four digits that is not a surrogate's. -/
theorem spells_unicode {a b d e : Char} {w x y z : ℕ} (ha : hexDigitValue a = some w)
    (hb : hexDigitValue b = some x) (hd : hexDigitValue d = some y)
    (he : hexDigitValue e = some z)
    (hcode : 16 * (16 * (16 * w + x) + y) + z < 0xd800) :
    Spells numeral ['\\', 'u', a, b, d, e] [Char.ofNat (16 * (16 * (16 * w + x) + y) + z)] := by
  intro isName before k
  have hslash : step numeral ⟨.chars isName before, k⟩ '\\' = some ⟨.escape isName before, k⟩ :=
    rfl
  have hu : step numeral ⟨.escape isName before, k⟩ 'u' = some ⟨.unicode isName before 0 3, k⟩ :=
    rfl
  have hlast : step numeral ⟨.unicode isName before (16 * (16 * w + x) + y) 0, k⟩ e =
      some ⟨.chars isName (before ++ [Char.ofNat (16 * (16 * (16 * w + x) + y) + z)]), k⟩ := by
    rw [step, he, Option.bind_some]
    exact if_neg fun h => absurd h.1 (Nat.not_le.mpr hcode)
  rw [run, hslash, Option.bind_some, run, hu, Option.bind_some, run, step_unicode numeral ha,
    Option.bind_some, run, step_unicode numeral hb, Option.bind_some, run,
    step_unicode numeral hd, Option.bind_some, Nat.mul_zero, Nat.zero_add, run, hlast]
  rfl

theorem spells_flatMap {f : Char → List Char} (hf : ∀ c, Spells numeral (f c) [c])
    (s : List Char) : Spells numeral (s.flatMap f) s := by
  induction s with
  | nil => exact .nil numeral
  | cons c s ih => exact (hf c).append numeral ih

theorem spells_of_plain {s : List Char} (hs : ∀ c ∈ s, isPlain c = true) :
    Spells numeral s s := by
  induction s with
  | nil => exact .nil numeral
  | cons c s ih =>
      rw [List.forall_mem_cons] at hs
      exact (spells_plain numeral hs.1).append numeral (ih hs.2)

theorem Spells.reads {raw text : List Char} (h : Spells numeral raw text) :
    Reads numeral ('"' :: (raw ++ ['"'])) (.string (String.ofList text)) := by
  intro k
  refine ⟨_, ?_, .done _ k⟩
  have hopen : step numeral ⟨.value, k⟩ '"' = some ⟨.chars false [], k⟩ := rfl
  rw [run, hopen, Option.bind_some, run_append_of numeral (h false [] k)]
  rfl

/-! ## Numbers -/

theorem run_numeral {s : List Char} (hs : ∀ c ∈ s, isNumeralChar c = true) (before : List Char)
    (k : List (Frame N)) :
    run numeral ⟨.numeral before, k⟩ s = some ⟨.numeral (before ++ s), k⟩ := by
  induction s generalizing before with
  | nil =>
      rw [List.append_nil]
      rfl
  | cons c s ih =>
      rw [List.forall_mem_cons] at hs
      rw [run, step, if_pos hs.1, Option.bind_some, ih hs.2, List.append_assoc,
        List.singleton_append]

theorem begin_numeral {c : Char} (hc : isNumeralChar c = true) (k : List (Frame N)) :
    step numeral ⟨.value, k⟩ c = some ⟨.numeral [c], k⟩ := by
  have hne : ∀ d, isNumeralChar d = false → c ≠ d := by
    rintro d hd rfl
    rw [hc] at hd
    cases hd
  have hws : isWs c = false := by
    simp only [isWs, Bool.or_eq_false_iff, beq_eq_false_iff_ne]
    exact ⟨⟨⟨hne _ rfl, hne _ rfl⟩, hne _ rfl⟩, hne _ rfl⟩
  rw [step, hws, if_neg Bool.false_ne_true, begin, if_neg (hne _ rfl), if_neg (hne _ rfl),
    if_neg (hne _ rfl), if_neg (hne _ rfl), if_neg (hne _ rfl), if_neg (hne _ rfl), if_pos hc]

theorem reads_numeral {s : List Char} {n : N} (hne : s ≠ [])
    (hs : ∀ c ∈ s, isNumeralChar c = true) (hn : numeral s = some n) :
    Reads numeral s (.number n) := by
  intro k
  cases s with
  | nil => exact absurd rfl hne
  | cons c s =>
      rw [List.forall_mem_cons] at hs
      refine ⟨_, ?_, .numeral hn k⟩
      rw [run, begin_numeral numeral hs.1, Option.bind_some, run_numeral numeral hs.2]
      rfl

/-! ## Objects -/

/-- Members one after the other, each in its place. -/
def gather (done ms : List (String × Tree N)) : List (String × Tree N) :=
  ms.foldl (fun done m => insertMember m.1 m.2 done) done

/-- A member behind a comma. -/
structure ReadsPiece (p : Piece) (m : String × Tree N) : Prop where
  sep : p.sep = [',']
  name : Spells numeral p.key m.1.toList
  value : Reads numeral p.value m.2

/-- The name and the value of a member. -/
theorem run_member {key value : List Char} {m : String × Tree N}
    (hkey : Spells numeral key m.1.toList) (hvalue : Reads numeral value m.2)
    (done : List (String × Tree N)) (k : List (Frame N)) :
    ∃ q, run numeral ⟨.chars true [], .members done :: k⟩ (key ++ '"' :: ':' :: value) = some q ∧
      Ends numeral q m.2 (.member done m.1 :: k) := by
  obtain ⟨q, hrun, hends⟩ := hvalue (.member done m.1 :: k)
  refine ⟨q, ?_, hends⟩
  have hclose : step numeral ⟨.chars true ([] ++ m.1.toList), .members done :: k⟩ '"' =
      some ⟨.colon, .member done m.1 :: k⟩ := by
    rw [step, if_pos rfl, close, List.nil_append, String.ofList_toList]
    rfl
  have hcolon : step numeral ⟨.colon, .member done m.1 :: k⟩ ':' =
      some ⟨.value, .member done m.1 :: k⟩ := rfl
  rw [run_append_of numeral (hkey true [] _), run, hclose, Option.bind_some, run, hcolon]
  exact hrun

theorem run_pieces {ps : List Piece} {ms : List (String × Tree N)}
    (h : List.Forall₂ (ReadsPiece numeral) ps ms) {q : State N} {v : Tree N}
    {done : List (String × Tree N)} {name : String} {k : List (Frame N)}
    (hq : Ends numeral q v (.member done name :: k)) :
    ∃ q' v' done' name', run numeral q (ps.flatMap Piece.text) = some q' ∧
      Ends numeral q' v' (.member done' name' :: k) ∧
      insertMember name' v' done' = gather (insertMember name v done) ms := by
  induction h generalizing q v done name with
  | nil => exact ⟨q, v, done, name, rfl, hq, rfl⟩
  | @cons p m ps ms hp _ ih =>
      obtain ⟨q₁, hrun, hends⟩ := run_member numeral hp.name hp.value (insertMember name v done) k
      obtain ⟨q', v', done', name', hrest, hends', hgather⟩ := ih hends
      refine ⟨q', v', done', name', ?_, hends', hgather⟩
      have hcomma : step numeral q ',' = some ⟨.name, .members (insertMember name v done) :: k⟩ := by
        rw [hq.step numeral rfl]
        rfl
      have hquote : step numeral ⟨.name, .members (insertMember name v done) :: k⟩ '"' =
          some ⟨.chars true [], .members (insertMember name v done) :: k⟩ := rfl
      rw [List.flatMap_cons, Piece.text, hp.sep, List.append_assoc, List.singleton_append, run,
        hcomma, Option.bind_some, List.cons_append, run, hquote, Option.bind_some,
        run_append_of numeral hrun]
      exact hrest

theorem reads_object {key value : List Char} {m : String × Tree N}
    (hkey : Spells numeral key m.1.toList) (hvalue : Reads numeral value m.2) {ps : List Piece}
    {ms : List (String × Tree N)} (h : List.Forall₂ (ReadsPiece numeral) ps ms) :
    Reads numeral
      ('\x7b' :: '"' :: (key ++ '"' :: ':' :: (value ++ (ps.flatMap Piece.text ++ ['\x7d']))))
      (.object (gather [] (m :: ms))) := by
  intro k
  obtain ⟨q, hrun, hends⟩ := run_member numeral hkey hvalue [] k
  obtain ⟨r, v', done', name', hrest, hends', hgather⟩ := run_pieces numeral h hends
  refine ⟨_, ?_, .done _ k⟩
  have hopen : step numeral ⟨.value, k⟩ '\x7b' = some ⟨.firstName, .members [] :: k⟩ := rfl
  have hquote : step numeral ⟨.firstName, .members [] :: k⟩ '"' =
      some ⟨.chars true [], .members [] :: k⟩ := rfl
  have hclose : step numeral r '\x7d' =
      some ⟨.done (.object (gather [] (m :: ms))), k⟩ := by
    rw [hends'.step numeral rfl, place, if_neg (by decide)]
    simp only [if_neg (show ¬ '\x7d' = ',' by decide), if_pos]
    rw [hgather]
    rfl
  have htext : key ++ '"' :: ':' :: (value ++ (ps.flatMap Piece.text ++ ['\x7d'])) =
      (key ++ '"' :: ':' :: value) ++ (ps.flatMap Piece.text ++ ['\x7d']) := by
    simp only [List.append_assoc, List.cons_append]
  rw [run, hopen, Option.bind_some, run, hquote, Option.bind_some, htext,
    run_append_of numeral hrun, run_append_of numeral hrest, run, hclose]
  rfl

end

/-- Members of distinct names are as they were read. -/
theorem gather_of_nodup {done ms : List (String × Tree N)}
    (h : ((done ++ ms).map Prod.fst).Nodup) : gather done ms = done ++ ms := by
  induction ms generalizing done with
  | nil => rw [List.append_nil]; rfl
  | cons m ms ih =>
      have hnew : insertMember m.1 m.2 done = done ++ [m] := by
        rw [List.map_append, List.nodup_append] at h
        have hm : m.1 ∉ done.map Prod.fst := fun hmem =>
          h.2.2 m.1 hmem m.1 (List.mem_map_of_mem List.mem_cons_self) rfl
        exact insertMember_new hm m.2
      have happend : done ++ m :: ms = done ++ [m] ++ ms := by
        rw [List.append_assoc, List.singleton_append]
      rw [happend] at h ⊢
      rw [gather, List.foldl_cons, hnew]
      exact ih h

end Json.Reader
