import Canboat.Lib.Json.Grammar

/-!
# A machine that reads JSON texts

One character at a time, with a stack of the arrays and objects that are open. It accepts
exactly the texts of the grammar, and a run over a concatenation is the run over the first
part followed by the run over the second; so what a writer emits is followed piece by piece.
-/

namespace Json

inductive Frame
  | array
  | object
deriving DecidableEq, Repr

inductive Mode
  /-- Before a value. -/
  | value
  /-- After `[`. -/
  | elements
  /-- After an opening brace. -/
  | members
  /-- After a comma in an object. -/
  | key
  /-- After a member's name. -/
  | colon
  /-- After a value. -/
  | after
  /-- Inside a string, which is a member's name or a value. -/
  | chars (name : Bool)
  | escape (name : Bool)
  /-- Inside `\uXXXX`, with one more digit than the count to come. -/
  | hex (name : Bool) (n : ℕ)
  /-- Inside a literal, with these characters to come. -/
  | literal (c : Char) (s : List Char)
  | minus
  | zero
  | int
  | dot
  | frac
  | e
  | sign
  | exp
deriving DecidableEq, Repr

structure State where
  mode : Mode
  stack : List Frame
deriving DecidableEq, Repr

/-- A character after a complete value. -/
def afterValue : List Frame → Char → Option State
  | [], c => if isWs c then some ⟨.after, []⟩ else none
  | .array :: k, c =>
      if isWs c then some ⟨.after, .array :: k⟩
      else if c = ',' then some ⟨.value, .array :: k⟩
      else if c = ']' then some ⟨.after, k⟩
      else none
  | .object :: k, c =>
      if isWs c then some ⟨.after, .object :: k⟩
      else if c = ',' then some ⟨.key, .object :: k⟩
      else if c = '\x7d' then some ⟨.after, k⟩
      else none

/-- The first character of a value. -/
def startValue (k : List Frame) (c : Char) : Option State :=
  if c = '"' then some ⟨.chars false, k⟩
  else if c = '[' then some ⟨.elements, .array :: k⟩
  else if c = '\x7b' then some ⟨.members, .object :: k⟩
  else if c = '-' then some ⟨.minus, k⟩
  else if c = '0' then some ⟨.zero, k⟩
  else if isDigit c then some ⟨.int, k⟩
  else if c = 'n' then some ⟨.literal 'u' ['l', 'l'], k⟩
  else if c = 't' then some ⟨.literal 'r' ['u', 'e'], k⟩
  else if c = 'f' then some ⟨.literal 'a' ['l', 's', 'e'], k⟩
  else none

def startExp (k : List Frame) (c : Char) : Option State :=
  if c = 'e' ∨ c = 'E' then some ⟨.e, k⟩ else afterValue k c

def startFrac (k : List Frame) (c : Char) : Option State :=
  if c = '.' then some ⟨.dot, k⟩ else startExp k c

def step : State → Char → Option State
  | ⟨.value, k⟩, c => if isWs c then some ⟨.value, k⟩ else startValue k c
  | ⟨.elements, k⟩, c =>
      if isWs c then some ⟨.elements, k⟩
      else if c = ']' then some ⟨.after, k.tail⟩
      else startValue k c
  | ⟨.members, k⟩, c =>
      if isWs c then some ⟨.members, k⟩
      else if c = '\x7d' then some ⟨.after, k.tail⟩
      else if c = '"' then some ⟨.chars true, k⟩
      else none
  | ⟨.key, k⟩, c =>
      if isWs c then some ⟨.key, k⟩ else if c = '"' then some ⟨.chars true, k⟩ else none
  | ⟨.colon, k⟩, c =>
      if isWs c then some ⟨.colon, k⟩ else if c = ':' then some ⟨.value, k⟩ else none
  | ⟨.after, k⟩, c => afterValue k c
  | ⟨.chars name, k⟩, c =>
      if c = '"' then some ⟨if name then .colon else .after, k⟩
      else if c = '\\' then some ⟨.escape name, k⟩
      else if isPlain c then some ⟨.chars name, k⟩
      else none
  | ⟨.escape name, k⟩, c =>
      if c = 'u' then some ⟨.hex name 3, k⟩
      else if isEscape c then some ⟨.chars name, k⟩
      else none
  | ⟨.hex name 0, k⟩, c => if isHex c then some ⟨.chars name, k⟩ else none
  | ⟨.hex name (n + 1), k⟩, c => if isHex c then some ⟨.hex name n, k⟩ else none
  | ⟨.literal d [], k⟩, c => if c = d then some ⟨.after, k⟩ else none
  | ⟨.literal d (d' :: s), k⟩, c => if c = d then some ⟨.literal d' s, k⟩ else none
  | ⟨.minus, k⟩, c =>
      if c = '0' then some ⟨.zero, k⟩ else if isDigit c then some ⟨.int, k⟩ else none
  | ⟨.zero, k⟩, c => startFrac k c
  | ⟨.int, k⟩, c => if isDigit c then some ⟨.int, k⟩ else startFrac k c
  | ⟨.dot, k⟩, c => if isDigit c then some ⟨.frac, k⟩ else none
  | ⟨.frac, k⟩, c => if isDigit c then some ⟨.frac, k⟩ else startExp k c
  | ⟨.e, k⟩, c =>
      if c = '+' ∨ c = '-' then some ⟨.sign, k⟩
      else if isDigit c then some ⟨.exp, k⟩
      else none
  | ⟨.sign, k⟩, c => if isDigit c then some ⟨.exp, k⟩ else none
  | ⟨.exp, k⟩, c => if isDigit c then some ⟨.exp, k⟩ else afterValue k c

def run : State → List Char → Option State
  | q, [] => some q
  | q, c :: s => (step q c).bind fun q => run q s

/-- A value has been read, or a number that may end here. -/
def State.Ends (q : State) (k : List Frame) : Prop :=
  q = ⟨.after, k⟩ ∨ q = ⟨.zero, k⟩ ∨ q = ⟨.int, k⟩ ∨ q = ⟨.frac, k⟩ ∨ q = ⟨.exp, k⟩

/-- The run over the whole text ends after one value. -/
def Accepts (q : State) (s : List Char) : Prop := ∃ q', run q s = some q' ∧ q'.Ends []

theorem run_append (q : State) (s t : List Char) :
    run q (s ++ t) = (run q s).bind fun q => run q t := by
  induction s generalizing q with
  | nil => rfl
  | cons c s ih =>
      rw [List.cons_append, run, run]
      cases step q c with
      | none => rfl
      | some q => exact ih q

theorem run_append_of {q q' : State} {s : List Char} (h : run q s = some q') (t : List Char) :
    run q (s ++ t) = run q' t := by
  rw [run_append, h]
  rfl

theorem run_append_none {q : State} {s : List Char} (h : run q s = none) (t : List Char) :
    run q (s ++ t) = none := by
  rw [run_append, h]
  rfl

theorem run_cons_of {q q' : State} {c : Char} (h : step q c = some q') (s : List Char) :
    run q (c :: s) = run q' s := by
  rw [run, h]
  rfl

/-- A run that stays in one state. -/
theorem run_stay {q : State} {s : List Char} (h : ∀ c ∈ s, step q c = some q) :
    run q s = some q := by
  induction s with
  | nil => rfl
  | cons c s ih =>
      rw [run_cons_of (h c List.mem_cons_self)]
      exact ih fun d hd => h d (List.mem_cons_of_mem _ hd)

/-- Characters that cannot go on a number. -/
def Closing (c : Char) : Prop :=
  isDigit c = false ∧ c ≠ '.' ∧ c ≠ 'e' ∧ c ≠ 'E'

/-- At the end of a value, what does not go on a number is read as after the value. -/
theorem State.Ends.step {q : State} {k : List Frame} (hq : q.Ends k) {c : Char}
    (hc : Closing c) : Json.step q c = afterValue k c := by
  obtain ⟨hd, hdot, he, hE⟩ := hc
  rcases hq with rfl | rfl | rfl | rfl | rfl <;>
    simp [Json.step, startFrac, startExp, hd, hdot, he, hE]

/-! ## Every text of the grammar is accepted -/

/-- Reading the characters, where a value may begin, ends after a value. -/
def Reads (s : List Char) : Prop :=
  ∀ k, ∃ q, run ⟨.value, k⟩ s = some q ∧ q.Ends k

theorem digit_ne {c d : Char} (hc : isDigit c = true) (hd : isDigit d = false) : c ≠ d := by
  rintro rfl
  rw [hc] at hd
  cases hd

theorem isWs_of_digit {c : Char} (hc : isDigit c = true) : isWs c = false := by
  rw [isWs, beq_false_of_ne (digit_ne hc rfl), beq_false_of_ne (digit_ne hc rfl),
    beq_false_of_ne (digit_ne hc rfl), beq_false_of_ne (digit_ne hc rfl)]
  rfl

theorem startValue_digit {c : Char} (hc : isDigit c = true) (hzero : c ≠ '0') (k : List Frame) :
    startValue k c = some ⟨.int, k⟩ := by
  rw [startValue, if_neg (digit_ne hc rfl), if_neg (digit_ne hc rfl), if_neg (digit_ne hc rfl),
    if_neg (digit_ne hc rfl), if_neg hzero, if_pos hc]

theorem run_ws_value {w : List Char} (hw : Ws w) (k : List Frame) :
    run ⟨.value, k⟩ w = some ⟨.value, k⟩ :=
  run_stay fun c hc => if_pos (hw c hc)

theorem afterValue_ws {c : Char} (hc : isWs c = true) (k : List Frame) :
    afterValue k c = some ⟨.after, k⟩ := by
  cases k with
  | nil => exact if_pos hc
  | cons f k => cases f <;> exact if_pos hc

theorem closing_of_ws {c : Char} (hc : isWs c = true) : Closing c := by
  rw [isWs, Bool.or_eq_true, Bool.or_eq_true, Bool.or_eq_true, beq_iff_eq, beq_iff_eq,
    beq_iff_eq, beq_iff_eq] at hc
  rcases hc with ((rfl | rfl) | rfl) | rfl <;> exact ⟨rfl, by decide, by decide, by decide⟩

/-- White space after a value. -/
theorem run_ws_ends {w : List Char} (hw : Ws w) {q : State} {k : List Frame} (hq : q.Ends k) :
    ∃ q', run q w = some q' ∧ q'.Ends k := by
  cases w with
  | nil => exact ⟨q, rfl, hq⟩
  | cons c w =>
      have hc := hw c List.mem_cons_self
      refine ⟨⟨.after, k⟩, ?_, Or.inl rfl⟩
      rw [run_cons_of ((hq.step (closing_of_ws hc)).trans (afterValue_ws hc k))]
      exact run_stay fun d hd => afterValue_ws (hw d (List.mem_cons_of_mem _ hd)) k

theorem intPart_run {s : List Char} (hs : IntPart s) (k : List Frame) {m : Mode}
    (hm : m = .value ∨ m = .minus) :
    run ⟨m, k⟩ s = some ⟨.zero, k⟩ ∨ run ⟨m, k⟩ s = some ⟨.int, k⟩ := by
  cases hs with
  | zero => rcases hm with rfl | rfl <;> exact Or.inl rfl
  | @digits d t hc hzero hs =>
      refine Or.inr ?_
      have hstep : step ⟨m, k⟩ d = some ⟨.int, k⟩ := by
        rcases hm with rfl | rfl
        · rw [step, if_neg (by rw [isWs_of_digit hc]; exact Bool.false_ne_true)]
          exact startValue_digit hc hzero k
        · rw [step, if_neg hzero, if_pos hc]
      rw [run_cons_of hstep]
      exact run_stay fun c hc => if_pos (hs c hc)

theorem fracPart_run {s : List Char} (hs : FracPart s) {k : List Frame} {q : State}
    (hq : q = ⟨.zero, k⟩ ∨ q = ⟨.int, k⟩) :
    run q s = some q ∨ run q s = some ⟨.frac, k⟩ := by
  cases hs with
  | absent => exact Or.inl rfl
  | @present d t hc hs =>
      refine Or.inr ?_
      have hdot : step q '.' = some ⟨.dot, k⟩ := by
        rcases hq with rfl | rfl <;> rfl
      have hfirst : step ⟨.dot, k⟩ d = some ⟨.frac, k⟩ := if_pos hc
      rw [run_cons_of hdot, run_cons_of hfirst]
      exact run_stay fun c hc => if_pos (hs c hc)

theorem expPart_run {s : List Char} (hs : ExpPart s) {k : List Frame} {q : State}
    (hq : q = ⟨.zero, k⟩ ∨ q = ⟨.int, k⟩ ∨ q = ⟨.frac, k⟩) :
    run q s = some q ∨ run q s = some ⟨.exp, k⟩ := by
  have hstart : ∀ e, e = 'e' ∨ e = 'E' → step q e = some ⟨.e, k⟩ := by
    rintro e (rfl | rfl) <;> rcases hq with rfl | rfl | rfl <;> rfl
  cases hs with
  | absent => exact Or.inl rfl
  | @unsigned e d t he hc hs =>
      refine Or.inr ?_
      have hfirst : step ⟨.e, k⟩ d = some ⟨.exp, k⟩ := by
        rw [step, if_neg (not_or.mpr ⟨digit_ne hc rfl, digit_ne hc rfl⟩), if_pos hc]
      rw [run_cons_of (hstart _ he), run_cons_of hfirst]
      exact run_stay fun c hc => if_pos (hs c hc)
  | @signed e g d t he hg hc hs =>
      refine Or.inr ?_
      have hsign : step ⟨.e, k⟩ g = some ⟨.sign, k⟩ := if_pos hg
      have hfirst : step ⟨.sign, k⟩ d = some ⟨.exp, k⟩ := if_pos hc
      rw [run_cons_of (hstart _ he), run_cons_of hsign, run_cons_of hfirst]
      exact run_stay fun c hc => if_pos (hs c hc)

theorem unsigned_run {s : List Char} (hs : Unsigned s) (k : List Frame) {m : Mode}
    (hm : m = .value ∨ m = .minus) : ∃ q, run ⟨m, k⟩ s = some q ∧ q.Ends k := by
  obtain @⟨int, frac, exp, hint, hfrac, hexp⟩ := hs
  have hq₁ : ∃ q, (q = ⟨.zero, k⟩ ∨ q = ⟨.int, k⟩) ∧ run ⟨m, k⟩ int = some q := by
    rcases intPart_run hint k hm with h | h
    · exact ⟨_, Or.inl rfl, h⟩
    · exact ⟨_, Or.inr rfl, h⟩
  obtain ⟨q₁, hq₁, hrun₁⟩ := hq₁
  have hq₂ : ∃ q, (q = ⟨.zero, k⟩ ∨ q = ⟨.int, k⟩ ∨ q = ⟨.frac, k⟩) ∧ run q₁ frac = some q := by
    rcases fracPart_run hfrac hq₁ with h | h
    · exact ⟨q₁, hq₁.imp_right Or.inl, h⟩
    · exact ⟨_, Or.inr (Or.inr rfl), h⟩
  obtain ⟨q₂, hq₂, hrun₂⟩ := hq₂
  rw [run_append_of hrun₁, run_append_of hrun₂]
  rcases expPart_run hexp hq₂ with h | h
  · exact ⟨q₂, h, by rcases hq₂ with rfl | rfl | rfl <;> simp [State.Ends]⟩
  · exact ⟨_, h, by simp [State.Ends]⟩

theorem Number.reads {s : List Char} (hs : Number s) : Reads s := by
  intro k
  cases hs with
  | plus hs => exact unsigned_run hs k (Or.inl rfl)
  | minus hs => exact unsigned_run hs k (Or.inr rfl)

theorem isPlain_ne {c : Char} (hc : isPlain c = true) : c ≠ '"' ∧ c ≠ '\\' := by
  rw [isPlain, Bool.and_eq_true, Bool.and_eq_true, bne_iff_ne, bne_iff_ne] at hc
  exact ⟨hc.1.2, hc.2⟩

theorem isEscape_ne {c : Char} (hc : isEscape c = true) : c ≠ 'u' := by
  rintro rfl
  revert hc
  decide

theorem Chars.run {s : List Char} (hs : Chars s) (name : Bool) (k : List Frame) :
    Json.run ⟨.chars name, k⟩ s = some ⟨.chars name, k⟩ := by
  induction hs with
  | nil => rfl
  | @plain c t hc _ ih =>
      obtain ⟨hquote, hslash⟩ := isPlain_ne hc
      have hstep : step ⟨.chars name, k⟩ c = some ⟨.chars name, k⟩ := by
        rw [step, if_neg hquote, if_neg hslash, if_pos hc]
      rw [run_cons_of hstep, ih]
  | @escape c t hc _ ih =>
      have hstep : step ⟨.escape name, k⟩ c = some ⟨.chars name, k⟩ := by
        rw [step, if_neg (isEscape_ne hc), if_pos hc]
      rw [run_cons_of (show step ⟨.chars name, k⟩ '\\' = some ⟨.escape name, k⟩ from rfl),
        run_cons_of hstep, ih]
  | unicode ha hb hc hd _ ih =>
      rw [run_cons_of (show step ⟨.chars name, k⟩ '\\' = some ⟨.escape name, k⟩ from rfl),
        run_cons_of (show step ⟨.escape name, k⟩ 'u' = some ⟨.hex name 3, k⟩ from rfl),
        run_cons_of (show step ⟨.hex name 3, k⟩ _ = some ⟨.hex name 2, k⟩ from if_pos ha),
        run_cons_of (show step ⟨.hex name 2, k⟩ _ = some ⟨.hex name 1, k⟩ from if_pos hb),
        run_cons_of (show step ⟨.hex name 1, k⟩ _ = some ⟨.hex name 0, k⟩ from if_pos hc),
        run_cons_of (show step ⟨.hex name 0, k⟩ _ = some ⟨.chars name, k⟩ from if_pos hd), ih]

theorem Chars.run_quote {s : List Char} (hs : Chars s) (name : Bool) (k : List Frame) :
    Json.run ⟨.chars name, k⟩ (s ++ ['"']) = some ⟨if name then .colon else .after, k⟩ := by
  rw [run_append_of (hs.run name k)]
  rfl

theorem Str.reads {s : List Char} (hs : Str s) : Reads s := by
  intro k
  obtain ⟨hs⟩ := hs
  refine ⟨⟨.after, k⟩, ?_, Or.inl rfl⟩
  rw [run_cons_of (show step ⟨.value, k⟩ '"' = some ⟨.chars false, k⟩ from rfl),
    hs.run_quote false k]
  rfl

/-- A member's name, before its first member or after a comma. -/
theorem Str.run_name {s : List Char} (hs : Str s) (k : List Frame) {m : Mode}
    (hm : m = .members ∨ m = .key) : Json.run ⟨m, k⟩ s = some ⟨.colon, k⟩ := by
  obtain ⟨hs⟩ := hs
  have hstep : step ⟨m, k⟩ '"' = some ⟨.chars true, k⟩ := by
    rcases hm with rfl | rfl <;> rfl
  rw [run_cons_of hstep, hs.run_quote true k]
  rfl

/-- Once something that reads as a value is behind a closing bracket or comma. -/
theorem Reads.then {s : List Char} (hs : Reads s) (k : List Frame) {c : Char} (hc : Closing c)
    {q' : State} (hq' : afterValue k c = some q') (t : List Char) :
    Json.run ⟨.value, k⟩ (s ++ c :: t) = Json.run q' t := by
  obtain ⟨q, hrun, hends⟩ := hs k
  rw [run_append_of hrun, run_cons_of ((hends.step hc).trans hq')]

theorem Reads.append_ws {v w : List Char} (hv : Reads v) (hw : Ws w) : Reads (v ++ w) := by
  intro k
  obtain ⟨q, hrun, hends⟩ := hv k
  rw [run_append_of hrun]
  exact run_ws_ends hw hends

theorem Reads.ws_append {v w : List Char} (hv : Reads v) (hw : Ws w) : Reads (w ++ v) := by
  intro k
  rw [run_append_of (run_ws_value hw k)]
  exact hv k

theorem Unsigned.start {s : List Char} (hs : Unsigned s) :
    ∃ c t, s = c :: t ∧ isDigit c = true := by
  obtain ⟨hint, -, -⟩ := hs
  cases hint with
  | zero => exact ⟨'0', _, rfl, rfl⟩
  | digits hc _ _ => exact ⟨_, _, rfl, hc⟩

/-- No value begins with white space or a closing bracket. -/
theorem Value.start {s : List Char} (hs : Value s) :
    ∃ c t, s = c :: t ∧ isWs c = false ∧ c ≠ ']' := by
  cases hs with
  | litNull => exact ⟨'n', _, rfl, rfl, by decide⟩
  | litTrue => exact ⟨'t', _, rfl, rfl, by decide⟩
  | litFalse => exact ⟨'f', _, rfl, rfl, by decide⟩
  | number hs =>
      cases hs with
      | plus hs =>
          obtain ⟨c, t, rfl, hc⟩ := hs.start
          exact ⟨c, t, rfl, isWs_of_digit hc, digit_ne hc rfl⟩
      | minus hs => exact ⟨'-', _, rfl, rfl, by decide⟩
  | string hs =>
      obtain ⟨-⟩ := hs
      exact ⟨'"', _, rfl, rfl, by decide⟩
  | emptyArray _ => exact ⟨'[', _, rfl, rfl, by decide⟩
  | array _ => exact ⟨'[', _, rfl, rfl, by decide⟩
  | emptyObject _ => exact ⟨'\x7b', _, rfl, rfl, by decide⟩
  | object _ => exact ⟨'\x7b', _, rfl, rfl, by decide⟩

/-- The first element is read after the bracket as any value is. -/
theorem Element.run_elements {s : List Char} (hs : Element s) (t : List Char) (k : List Frame) :
    run ⟨.elements, k⟩ (s ++ t) = run ⟨.value, k⟩ (s ++ t) := by
  obtain @⟨w, v, w', hw, hv, hw'⟩ := hs
  have hstay : run ⟨.elements, k⟩ w = some ⟨.elements, k⟩ := run_stay fun c hc => if_pos (hw c hc)
  rw [List.append_assoc, run_append_of hstay, run_append_of (run_ws_value hw k)]
  obtain ⟨c, v', rfl, hc, hne⟩ := hv.start
  have hstep : step ⟨.elements, k⟩ c = step ⟨.value, k⟩ c := by
    rw [step, step, hc, if_neg Bool.false_ne_true, if_neg hne, if_neg Bool.false_ne_true]
  rw [List.append_assoc, List.cons_append, run, run, hstep]

theorem Elements.run_elements {s : List Char} (hs : Elements s) (k : List Frame) :
    run ⟨.elements, k⟩ s = run ⟨.value, k⟩ s := by
  cases hs with
  | one hs => simpa using hs.run_elements [] k
  | cons hs _ => exact hs.run_elements _ k

/-- Reading the characters inside an array, where a value may begin. -/
def ReadsElements (s : List Char) : Prop :=
  ∀ k, ∃ q, run ⟨.value, .array :: k⟩ s = some q ∧ q.Ends (.array :: k)

/-- Reading the characters inside an object, where a member may begin. -/
def ReadsMembers (s : List Char) : Prop :=
  ∀ k m, m = Mode.members ∨ m = Mode.key →
    ∃ q, run ⟨m, .object :: k⟩ s = some q ∧ q.Ends (.object :: k)

theorem closing_comma : Closing ',' := ⟨rfl, by decide, by decide, by decide⟩

theorem closing_bracket : Closing ']' := ⟨rfl, by decide, by decide, by decide⟩

theorem closing_brace : Closing '\x7d' := ⟨rfl, by decide, by decide, by decide⟩

/-- A closing bracket after the last element. -/
theorem run_bracket {q q' : State} {s : List Char} {k : List Frame} (hrun : run q s = some q')
    (hends : q'.Ends (.array :: k)) : run q (s ++ [']']) = some ⟨.after, k⟩ := by
  rw [run_append_of hrun, run_cons_of (hends.step closing_bracket)]
  rfl

/-- A closing brace after the last member. -/
theorem run_brace {q q' : State} {s : List Char} {k : List Frame} (hrun : run q s = some q')
    (hends : q'.Ends (.object :: k)) : run q (s ++ ['\x7d']) = some ⟨.after, k⟩ := by
  rw [run_append_of hrun, run_cons_of (hends.step closing_brace)]
  rfl

theorem reads_emptyArray {w : List Char} (hw : Ws w) : Reads ('[' :: (w ++ [']'])) := by
  intro k
  have hstay : run ⟨.elements, .array :: k⟩ w = some ⟨.elements, .array :: k⟩ :=
    run_stay fun c hc => if_pos (hw c hc)
  refine ⟨⟨.after, k⟩, ?_, Or.inl rfl⟩
  rw [run_cons_of (show step ⟨.value, k⟩ '[' = some ⟨.elements, .array :: k⟩ from rfl),
    run_append_of hstay]
  rfl

theorem ReadsElements.array {s : List Char} (hs : ReadsElements s)
    (hstart : ∀ k, run ⟨.elements, k⟩ s = run ⟨.value, k⟩ s) : Reads ('[' :: (s ++ [']'])) := by
  intro k
  obtain ⟨q, hrun, hends⟩ := hs k
  refine ⟨⟨.after, k⟩, ?_, Or.inl rfl⟩
  rw [run_cons_of (show step ⟨.value, k⟩ '[' = some ⟨.elements, .array :: k⟩ from rfl)]
  exact run_bracket ((hstart _).trans hrun) hends

theorem reads_emptyObject {w : List Char} (hw : Ws w) : Reads ('\x7b' :: (w ++ ['\x7d'])) := by
  intro k
  have hstay : run ⟨.members, .object :: k⟩ w = some ⟨.members, .object :: k⟩ :=
    run_stay fun c hc => if_pos (hw c hc)
  refine ⟨⟨.after, k⟩, ?_, Or.inl rfl⟩
  rw [run_cons_of (show step ⟨.value, k⟩ '\x7b' = some ⟨.members, .object :: k⟩ from rfl),
    run_append_of hstay]
  rfl

theorem ReadsMembers.object {s : List Char} (hs : ReadsMembers s) :
    Reads ('\x7b' :: (s ++ ['\x7d'])) := by
  intro k
  obtain ⟨q, hrun, hends⟩ := hs k .members (Or.inl rfl)
  refine ⟨⟨.after, k⟩, ?_, Or.inl rfl⟩
  rw [run_cons_of (show step ⟨.value, k⟩ '\x7b' = some ⟨.members, .object :: k⟩ from rfl)]
  exact run_brace hrun hends

theorem ReadsElements.cons {s t : List Char} (hs : Reads s) (ht : ReadsElements t) :
    ReadsElements (s ++ ',' :: t) := by
  intro k
  rw [hs.then _ closing_comma
    (show afterValue (.array :: k) ',' = some ⟨.value, .array :: k⟩ from rfl)]
  exact ht k

theorem ReadsMembers.cons {s t : List Char} (hs : ReadsMembers s) (ht : ReadsMembers t) :
    ReadsMembers (s ++ ',' :: t) := by
  intro k m hm
  obtain ⟨q, hrun, hends⟩ := hs k m hm
  rw [run_append_of hrun, run_cons_of ((hends.step closing_comma).trans
    (show afterValue (.object :: k) ',' = some ⟨.key, .object :: k⟩ from rfl))]
  exact ht k .key (Or.inr rfl)

theorem Reads.member {w n w' e : List Char} (he : Reads e) (hw : Ws w) (hn : Str n)
    (hw' : Ws w') : ReadsMembers (w ++ (n ++ (w' ++ ':' :: e))) := by
  intro k m hm
  have hstay : run ⟨m, .object :: k⟩ w = some ⟨m, .object :: k⟩ := run_stay fun c hc => by
    rcases hm with rfl | rfl <;> exact if_pos (hw c hc)
  have hcolon : run ⟨.colon, .object :: k⟩ w' = some ⟨.colon, .object :: k⟩ :=
    run_stay fun c hc => if_pos (hw' c hc)
  rw [run_append_of hstay, run_append_of (hn.run_name _ hm), run_append_of hcolon,
    run_cons_of (show step ⟨.colon, .object :: k⟩ ':' = some ⟨.value, .object :: k⟩ from rfl)]
  exact he _

mutual

theorem Value.reads : ∀ {s : List Char}, Value s → Reads s
  | _, .litNull => fun k => ⟨⟨.after, k⟩, rfl, Or.inl rfl⟩
  | _, .litTrue => fun k => ⟨⟨.after, k⟩, rfl, Or.inl rfl⟩
  | _, .litFalse => fun k => ⟨⟨.after, k⟩, rfl, Or.inl rfl⟩
  | _, .number hs => hs.reads
  | _, .string hs => hs.reads
  | _, .emptyArray hw => reads_emptyArray hw
  | _, .array hs => (Elements.reads hs).array hs.run_elements
  | _, .emptyObject hw => reads_emptyObject hw
  | _, .object hs => (Members.reads hs).object

theorem Element.reads : ∀ {s : List Char}, Element s → Reads s
  | _, .mk hw hv hw' => ((Value.reads hv).append_ws hw').ws_append hw

theorem Elements.reads : ∀ {s : List Char}, Elements s → ReadsElements s
  | _, .one hs => fun _ => Element.reads hs _
  | _, .cons hs ht => ReadsElements.cons (Element.reads hs) (Elements.reads ht)

theorem Member.reads : ∀ {s : List Char}, Member s → ReadsMembers s
  | _, .mk hw hk hw' he => (Element.reads he).member hw hk hw'

theorem Members.reads : ∀ {s : List Char}, Members s → ReadsMembers s
  | _, .one hs => Member.reads hs
  | _, .cons hs ht => ReadsMembers.cons (Member.reads hs) (Members.reads ht)

end

/-- Every text is accepted. -/
theorem Text.accepts {s : List Char} (hs : Text s) : Accepts ⟨.value, []⟩ s :=
  Element.reads hs []

end Json
