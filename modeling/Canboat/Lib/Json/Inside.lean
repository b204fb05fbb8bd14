import Canboat.Lib.Json.Reader

/-!
# Objects and arrays, a piece at a time

Where the reader is between the members of an object, whatever is open around it. `ReadsInside`
is about the inside of an object: reading it leads to such a place.
-/

namespace Json.Reader

variable {N : Type}

/-- Where the next member of an object goes, behind the separator, with the members so far. -/
def Before (numeral : List Char → Option N) (sep : List Char) (ms : List (String × Tree N))
    (k : List (Frame N)) (q : State N) : Prop :=
  (sep = [] ∧ ms = [] ∧ q = ⟨.firstName, .members [] :: k⟩) ∨
    (sep = [','] ∧ ∃ v done name, Ends numeral q v (.member done name :: k) ∧
      ms = insertMember name v done)

/-- The inside of an object: it is read as these members, and a member may follow. -/
def ReadsInside (numeral : List Char → Option N) (t : List Char) (ms : List (String × Tree N)) :
    Prop :=
  ∀ k, ∃ q, run numeral ⟨.firstName, .members [] :: k⟩ t = some q ∧
    Before numeral (if t = [] then [] else [',']) ms k q

/-- Every number of the grammar is read. -/
def ReadsNumbers (numeral : List Char → Option N) (ofText : List Char → N) : Prop :=
  ∀ s, Number s → numeral s = some (ofText s)

variable {numeral : List Char → Option N}

namespace Before

variable {sep : List Char} {ms : List (String × Tree N)} {k : List (Frame N)} {q : State N}

theorem start (k : List (Frame N)) :
    Before numeral [] [] k ⟨.firstName, .members [] :: k⟩ := .inl ⟨rfl, rfl, rfl⟩

/-- Up to the opening quote of a name. -/
theorem quote (hq : Before numeral sep ms k q) (s : List Char) :
    run numeral q (sep ++ '"' :: s) = run numeral ⟨.chars true [], .members ms :: k⟩ s := by
  rcases hq with ⟨rfl, rfl, rfl⟩ | ⟨rfl, v, done, name, hends, rfl⟩
  · rfl
  · rw [List.cons_append, List.nil_append, run, hends.step numeral rfl]
    rfl

/-- Up to the value of a member. -/
theorem named (hq : Before numeral sep ms k q) {key : List Char} {name : String}
    (hkey : Spells numeral key name.toList) (s : List Char) :
    run numeral q (sep ++ '"' :: (key ++ '"' :: ':' :: s)) =
      run numeral ⟨.value, .member ms name :: k⟩ s := by
  rw [hq.quote, run_append_of numeral (hkey true [] _), List.nil_append]
  show (step numeral _ '"').bind _ = _
  rw [step, if_pos rfl, close, String.ofList_toList]
  rfl

theorem member (hq : Before numeral sep ms k q) {key : List Char} {name : String}
    (hkey : Spells numeral key name.toList) {value : List Char} {t : Tree N}
    (hvalue : Reads numeral value t) :
    ∃ q', run numeral q (sep ++ '"' :: (key ++ '"' :: ':' :: value)) = some q' ∧
      Before numeral [','] (insertMember name t ms) k q' := by
  obtain ⟨q', hrun, hends⟩ := hvalue (.member ms name :: k)
  exact ⟨q', (hq.named hkey value).trans hrun, .inr ⟨rfl, t, ms, _, hends, rfl⟩⟩

/-- The end of the object. -/
theorem brace (hq : Before numeral sep ms k q) :
    run numeral q ['\x7d'] = some ⟨.done (.object ms), k⟩ := by
  rcases hq with ⟨-, rfl, rfl⟩ | ⟨-, v, done, name, hends, rfl⟩
  · rfl
  · rw [run, hends.step numeral rfl]
    rfl

/-- A list begins in the next member. -/
theorem openList (hq : Before numeral sep ms k q) (name : String)
    (hname : ∀ c ∈ name.toList, isPlain c = true) :
    run numeral q (sep ++ '"' :: (name.toList ++ "\":[\x7b".toList)) =
      some ⟨.firstName, .members [] :: .items [] :: .member ms name :: k⟩ := by
  exact hq.named (spells_of_plain numeral hname) ['[', '\x7b']

/-- The next element of a list. -/
theorem nextElement {items : List (Tree N)} (hq : Before numeral sep ms (.items items :: k) q) :
    run numeral q "\x7d,\x7b".toList =
      some ⟨.firstName, .members [] :: .items (items ++ [.object ms]) :: k⟩ := by
  rw [show "\x7d,\x7b".toList = ['\x7d'] ++ [',', '\x7b'] from rfl, run_append_of numeral hq.brace]
  rfl

/-- The end of a list. -/
theorem closeList {items : List (Tree N)} {done : List (String × Tree N)} {name : String}
    (hq : Before numeral sep ms (.items items :: .member done name :: k) q) :
    ∃ q', run numeral q "\x7d]".toList = some q' ∧
      Before numeral [','] (insertMember name (.array (items ++ [.object ms])) done) k q' := by
  refine ⟨⟨.done (.array (items ++ [.object ms])), .member done name :: k⟩, ?_,
    .inr ⟨rfl, _, _, _, .done _ _, rfl⟩⟩
  rw [show "\x7d]".toList = ['\x7d'] ++ [']'] from rfl, run_append_of numeral hq.brace]
  rfl

/-- A list of one empty object. -/
theorem placeholder (hq : Before numeral sep ms k q) (name : String)
    (hname : ∀ c ∈ name.toList, isPlain c = true) :
    ∃ q', run numeral q (sep ++ '"' :: (name.toList ++ "\":[\x7b\x7d]".toList)) = some q' ∧
      Before numeral [','] (insertMember name (.array [.object []]) ms) k q' := by
  have hopen := hq.openList name hname
  have hempty : Before numeral [] [] (.items [] :: .member ms name :: k)
      ⟨.firstName, .members [] :: .items [] :: .member ms name :: k⟩ := .inl ⟨rfl, rfl, rfl⟩
  obtain ⟨q', hrun, hq'⟩ := hempty.closeList
  refine ⟨q', ?_, hq'⟩
  have hsplit : sep ++ '"' :: (name.toList ++ "\":[\x7b\x7d]".toList) =
      (sep ++ '"' :: (name.toList ++ "\":[\x7b".toList)) ++ "\x7d]".toList := by
    rw [List.append_assoc, List.cons_append, List.append_assoc]
    rfl
  rw [hsplit, run_append_of numeral hopen]
  exact hrun

/-- An object begins in the next member. -/
theorem openObject (hq : Before numeral sep ms k q) (name : String)
    (hname : ∀ c ∈ name.toList, isPlain c = true) :
    run numeral q (sep ++ '"' :: (name.toList ++ "\":\x7b".toList)) =
      some ⟨.firstName, .members [] :: .member ms name :: k⟩ := by
  exact hq.named (spells_of_plain numeral hname) ['\x7b']

/-- Behind a value there is no name without a comma. -/
theorem stuck (hq : Before numeral [','] ms k q) (s : List Char) :
    run numeral q ('"' :: s) = none := by
  rcases hq with ⟨h, -⟩ | ⟨-, v, done, name, hends, rfl⟩
  · cases h
  · rw [run, hends.step numeral rfl]
    rfl

end Before

/-! ## The inside of an object -/

namespace ReadsInside

variable {t : List Char} {ms : List (String × Tree N)}

theorem nil : ReadsInside numeral [] [] := fun k => ⟨_, rfl, .start k⟩

/-- A member behind the others. -/
theorem member (h : ReadsInside numeral t ms) {key : List Char} {name : String}
    (hkey : Spells numeral key name.toList) {value : List Char} {v : Tree N}
    (hvalue : Reads numeral value v) :
    ReadsInside numeral
      (t ++ ((if t = [] then [] else [',']) ++ '"' :: (key ++ '"' :: ':' :: value)))
      (insertMember name v ms) := by
  intro k
  obtain ⟨q, hrun, hq⟩ := h k
  obtain ⟨q', hrun', hq'⟩ := hq.member hkey hvalue
  refine ⟨q', ?_, ?_⟩
  · rw [run_append_of numeral hrun]
    exact hrun'
  · rw [if_neg (by simp)]
    exact hq'

theorem first {name : String} (hname : ∀ c ∈ name.toList, isPlain c = true) {value : List Char}
    {v : Tree N} (hvalue : Reads numeral value v) :
    ReadsInside numeral ('"' :: (name.toList ++ '"' :: ':' :: value)) [(name, v)] :=
  nil.member (spells_of_plain numeral hname) hvalue

/-- A member of a new name behind another. -/
theorem next (h : ReadsInside numeral t ms) (hne : t ≠ []) {name : String}
    (hname : ∀ c ∈ name.toList, isPlain c = true) (hnew : name ∉ ms.map Prod.fst)
    {value : List Char} {v : Tree N} (hvalue : Reads numeral value v) :
    ReadsInside numeral (t ++ ',' :: '"' :: (name.toList ++ '"' :: ':' :: value))
      (ms ++ [(name, v)]) := by
  have hmember := h.member (spells_of_plain numeral hname) hvalue
  rw [if_neg hne, insertMember_new hnew] at hmember
  exact hmember

/-- A list of one empty object behind the members. -/
theorem placeholder (h : ReadsInside numeral t ms) {name : String}
    (hname : ∀ c ∈ name.toList, isPlain c = true) :
    ReadsInside numeral
      (t ++ ((if t = [] then [] else [',']) ++ '"' :: (name.toList ++ "\":[\x7b\x7d]".toList)))
      (insertMember name (.array [.object []]) ms) := by
  intro k
  obtain ⟨q, hrun, hq⟩ := h k
  obtain ⟨q', hrun', hq'⟩ := hq.placeholder name hname
  refine ⟨q', ?_, ?_⟩
  · rw [run_append_of numeral hrun]
    exact hrun'
  · rw [if_neg (by simp)]
    exact hq'

/-- The object around it. -/
theorem reads (h : ReadsInside numeral t ms) :
    Reads numeral ('\x7b' :: (t ++ ['\x7d'])) (.object ms) := by
  intro k
  obtain ⟨q, hrun, hq⟩ := h k
  refine ⟨_, ?_, .done _ k⟩
  show run numeral ⟨.firstName, .members [] :: k⟩ (t ++ ['\x7d']) = _
  rw [run_append_of numeral hrun, hq.brace]

end ReadsInside

/-! ## Values -/

theorem reads_null : Reads numeral "null".toList .null := fun k => ⟨_, rfl, .done _ k⟩

theorem reads_true : Reads numeral "true".toList (.bool true) := fun k => ⟨_, rfl, .done _ k⟩

/-- Blanks before a value. -/
theorem Reads.spaces {s : List Char} {v : Tree N} (h : Reads numeral s v) (n : ℕ) :
    Reads numeral (List.replicate n ' ' ++ s) v := by
  induction n with
  | zero => exact h
  | succ n ih => exact ih

theorem isNumeralChar_of_digits {s : List Char} (hs : Digits s) :
    ∀ c ∈ s, isNumeralChar c = true := by
  intro c hc
  rw [isNumeralChar, hs c hc]
  rfl

theorem isNumeralChar_unsigned {s : List Char} (hs : Unsigned s) :
    s ≠ [] ∧ ∀ c ∈ s, isNumeralChar c = true := by
  have hdigit : ∀ {c : Char}, isDigit c = true → isNumeralChar c = true := by
    intro c hc
    rw [isNumeralChar, hc]
    rfl
  obtain ⟨hint, hfrac, hexp⟩ := hs
  rename_i int frac exp
  have hint' : int ≠ [] ∧ ∀ c ∈ int, isNumeralChar c = true := by
    cases hint with
    | zero => exact ⟨List.cons_ne_nil _ _, List.forall_mem_singleton.mpr rfl⟩
    | digits hc _ hs =>
        exact ⟨List.cons_ne_nil _ _,
          List.forall_mem_cons.mpr ⟨hdigit hc, isNumeralChar_of_digits hs⟩⟩
  have hfrac' : ∀ c ∈ frac, isNumeralChar c = true := by
    cases hfrac with
    | absent => rintro c ⟨⟩
    | present hc hs =>
        exact List.forall_mem_cons.mpr ⟨rfl,
          List.forall_mem_cons.mpr ⟨hdigit hc, isNumeralChar_of_digits hs⟩⟩
  have hletter : ∀ {e : Char}, e = 'e' ∨ e = 'E' → isNumeralChar e = true := by
    rintro e (rfl | rfl)
    · rfl
    · rfl
  have hsign : ∀ {g : Char}, g = '+' ∨ g = '-' → isNumeralChar g = true := by
    rintro g (rfl | rfl)
    · rfl
    · rfl
  have hexp' : ∀ c ∈ exp, isNumeralChar c = true := by
    cases hexp with
    | absent => rintro c ⟨⟩
    | unsigned he hc hs =>
        exact List.forall_mem_cons.mpr ⟨hletter he,
          List.forall_mem_cons.mpr ⟨hdigit hc, isNumeralChar_of_digits hs⟩⟩
    | signed he hg hc hs =>
        exact List.forall_mem_cons.mpr ⟨hletter he, List.forall_mem_cons.mpr ⟨hsign hg,
          List.forall_mem_cons.mpr ⟨hdigit hc, isNumeralChar_of_digits hs⟩⟩⟩
  refine ⟨List.append_ne_nil_of_left_ne_nil hint'.1 _, fun c hc => ?_⟩
  rcases List.mem_append.mp hc with hc | hc
  · exact hint'.2 c hc
  · rcases List.mem_append.mp hc with hc | hc
    · exact hfrac' c hc
    · exact hexp' c hc

theorem ReadsNumbers.reads {ofText : List Char → N} (h : ReadsNumbers numeral ofText)
    {s : List Char} (hs : Number s) : Reads numeral s (.number (ofText s)) := by
  have hvalue := h s hs
  cases hs with
  | plus hs =>
      obtain ⟨hne, hall⟩ := isNumeralChar_unsigned hs
      exact reads_numeral numeral hne hall hvalue
  | minus hs =>
      obtain ⟨-, hall⟩ := isNumeralChar_unsigned hs
      exact reads_numeral numeral (List.cons_ne_nil _ _) (List.forall_mem_cons.mpr ⟨rfl, hall⟩)
        hvalue

/-! ## Arrays -/

/-- The first item is read like a value elsewhere. -/
theorem run_firstItem {k : List (Frame N)} {s : List Char} {q : State N} {v : Tree N}
    {k' : List (Frame N)} (h : run numeral ⟨.value, k⟩ s = some q) (hq : Ends numeral q v k') :
    run numeral ⟨.firstItem, k⟩ s = some q := by
  induction s with
  | nil =>
      cases h
      cases hq
  | cons c s ih =>
      have hvalue : step numeral ⟨.value, k⟩ c = if isWs c then some ⟨.value, k⟩ else begin k c :=
        rfl
      have hfirst : step numeral ⟨.firstItem, k⟩ c = if isWs c then some ⟨.firstItem, k⟩
          else if c = ']' then some ⟨.done (.array []), k.tail⟩ else begin k c := rfl
      rw [run, hvalue] at h
      rw [run, hfirst]
      by_cases hws : isWs c = true
      · rw [if_pos hws, Option.bind_some] at h ⊢
        exact ih h
      · rw [if_neg hws] at h ⊢
        have hclose : c ≠ ']' := by
          rintro rfl
          cases h
        rw [if_neg hclose]
        exact h

/-- The items behind the first. -/
theorem run_items {ss : List (List Char)} {vs : List (Tree N)}
    (h : List.Forall₂ (Reads numeral) ss vs) {q : State N} {v : Tree N} {done : List (Tree N)}
    {k : List (Frame N)} (hq : Ends numeral q v (.items done :: k)) :
    run numeral q (ss.flatMap (',' :: ·) ++ [']']) =
      some ⟨.done (.array (done ++ v :: vs)), k⟩ := by
  induction h generalizing q v done with
  | nil =>
      rw [List.flatMap_nil, List.nil_append, run, hq.step numeral rfl]
      rfl
  | @cons s w ss vs hs _ ih =>
      obtain ⟨q', hrun, hends⟩ := hs (.items (done ++ [v]) :: k)
      have hcomma : step numeral q ',' = some ⟨.value, .items (done ++ [v]) :: k⟩ := by
        rw [hq.step numeral rfl]
        rfl
      rw [List.flatMap_cons, List.append_assoc, List.cons_append, run, hcomma, Option.bind_some,
        run_append_of numeral hrun, ih hends, List.append_assoc, List.singleton_append]

theorem intercalate_comma (s : List Char) (ss : List (List Char)) :
    [','].intercalate (s :: ss) = s ++ ss.flatMap (',' :: ·) := by
  induction ss generalizing s with
  | nil => simp [List.intercalate]
  | cons t ss ih =>
      rw [List.intercalate_cons_cons, ih, List.flatMap_cons]
      simp

theorem reads_array {ss : List (List Char)} {vs : List (Tree N)}
    (h : List.Forall₂ (Reads numeral) ss vs) (hne : ss ≠ []) :
    Reads numeral ('[' :: ([','].intercalate ss ++ [']'])) (.array vs) := by
  intro k
  cases h with
  | nil => exact absurd rfl hne
  | @cons s v ss vs hs hrest =>
      obtain ⟨q, hrun, hends⟩ := hs (.items [] :: k)
      refine ⟨_, ?_, .done _ k⟩
      show run numeral ⟨.firstItem, .items [] :: k⟩ _ = _
      rw [intercalate_comma, List.append_assoc, run_append_of numeral (run_firstItem hrun hends),
        run_items hrest hends]
      rfl

end Json.Reader
