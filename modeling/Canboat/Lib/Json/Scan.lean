import Canboat.Lib.Json.Machine
import Canboat.Lib.Json.Search

/-!
# Scans of a text

A scan that counts brackets outside of strings goes over a value as over a single character: no
value closes a bracket that is not its own. And what a search for a key finds in a text is where
a name is, as long as no name has an escape in it.
-/

namespace Json

/-! ## Brackets -/

/-- Where a scan is, with respect to the strings of the text. -/
inductive Quote
  | outside
  | inside
  /-- Behind a backslash. -/
  | escaped
deriving DecidableEq, Repr

/-- Inside a string. -/
def Quote.next (c : Char) : Quote → Quote
  | .escaped => .inside
  | .inside => if c = '\\' then .escaped else if c = '"' then .outside else .inside
  | .outside => .outside

/-- The number of open brackets of one kind, with one character more. -/
def scan (opening closing : Char) : ℕ × Quote → Char → ℕ × Quote
  | (depth, .outside), c =>
      if c = opening then (depth + 1, .outside)
      else if c = closing then (depth - 1, .outside)
      else if c = '"' then (depth, .inside)
      else (depth, .outside)
  | (depth, q), c => (depth, q.next c)

/-- Over the text, with a bracket open all the time. -/
def Walks (opening closing : Char) : ℕ × Quote → List Char → ℕ × Quote → Prop
  | s, [], s' => s = s'
  | s, c :: v, s' =>
      1 ≤ (scan opening closing s c).1 ∧ Walks opening closing (scan opening closing s c) v s'

/-- As deep behind the text as before it. -/
def Balanced (opening closing : Char) (v : List Char) : Prop :=
  ∀ depth, Walks opening closing (depth + 1, .outside) v (depth + 1, .outside)

/-- The brackets of arrays or those of objects. -/
def Brackets (opening closing : Char) : Prop :=
  (opening = '[' ∧ closing = ']') ∨ (opening = '\x7b' ∧ closing = '\x7d')

/-- Outside of strings it does not count. -/
def Neutral (c : Char) : Prop := c ∉ ['[', ']', '\x7b', '\x7d', '"']

instance (c : Char) : Decidable (Neutral c) := by
  unfold Neutral
  infer_instance

section

variable {o c : Char} {s s' s'' : ℕ × Quote} {u v : List Char}

theorem Walks.append (hu : Walks o c s u s') (hv : Walks o c s' v s'') :
    Walks o c s (u ++ v) s'' := by
  induction u generalizing s with
  | nil =>
      cases hu
      exact hv
  | cons x u ih => exact ⟨hu.1, ih hu.2⟩

theorem Balanced.nil : Balanced o c [] := fun _ => rfl

theorem Balanced.append (hu : Balanced o c u) (hv : Balanced o c v) : Balanced o c (u ++ v) :=
  fun depth => (hu depth).append (hv depth)

theorem scan_neutral (hb : Brackets o c) {x : Char} (hx : Neutral x) (depth : ℕ) :
    scan o c (depth, .outside) x = (depth, .outside) := by
  simp only [Neutral, List.mem_cons, List.not_mem_nil, not_or, or_false] at hx
  obtain ⟨h₁, h₂, h₃, h₄, h₅⟩ := hx
  rcases hb with ⟨rfl, rfl⟩ | ⟨rfl, rfl⟩ <;> simp [scan, *]

theorem Balanced.of_neutral (hb : Brackets o c) (hv : ∀ x ∈ v, Neutral x) : Balanced o c v := by
  intro depth
  induction v with
  | nil => rfl
  | cons x v ih =>
      rw [List.forall_mem_cons] at hv
      rw [Walks, scan_neutral hb hv.1]
      exact ⟨Nat.succ_pos depth, ih hv.2⟩

theorem Balanced.cons_neutral (hb : Brackets o c) {x : Char} (hx : Neutral x)
    (hv : Balanced o c v) : Balanced o c (x :: v) := by
  intro depth
  rw [Walks, scan_neutral hb hx]
  exact ⟨Nat.succ_pos depth, hv depth⟩

/-- The characters of a string do not leave it. -/
theorem Chars.walks {t : List Char} (h : Chars t) (depth : ℕ) :
    Walks o c (depth + 1, .inside) t (depth + 1, .inside) := by
  have hstay : ∀ {x : Char} {t : List Char}, x ≠ '"' → x ≠ '\\' →
      Walks o c (depth + 1, .inside) t (depth + 1, .inside) →
      Walks o c (depth + 1, .inside) (x :: t) (depth + 1, .inside) := by
    intro x t hquote hback ht
    have hscan : scan o c (depth + 1, .inside) x = (depth + 1, .inside) := by
      simp [scan, Quote.next, hquote, hback]
    rw [Walks, hscan]
    exact ⟨Nat.succ_pos depth, ht⟩
  have hescape : ∀ {x : Char} {t : List Char},
      Walks o c (depth + 1, .inside) t (depth + 1, .inside) →
      Walks o c (depth + 1, .inside) ('\\' :: x :: t) (depth + 1, .inside) :=
    fun ht => ⟨Nat.succ_pos depth, Nat.succ_pos depth, ht⟩
  have hhex : ∀ {x : Char}, isHex x = true → x ≠ '"' ∧ x ≠ '\\' := by
    intro x hx
    constructor <;> rintro rfl <;> cases hx
  induction h with
  | nil => rfl
  | plain hplain _ ih => exact hstay (isPlain_ne hplain).1 (isPlain_ne hplain).2 ih
  | escape _ _ ih => exact hescape ih
  | unicode ha hb hc hd _ ih =>
      exact hescape (hstay (hhex ha).1 (hhex ha).2 (hstay (hhex hb).1 (hhex hb).2
        (hstay (hhex hc).1 (hhex hc).2 (hstay (hhex hd).1 (hhex hd).2 ih))))

theorem Str.balanced (hb : Brackets o c) {t : List Char} (h : Str t) : Balanced o c t := by
  obtain ⟨hs⟩ := h
  intro depth
  have hopen : scan o c (depth + 1, .outside) '"' = (depth + 1, .inside) := by
    rcases hb with ⟨rfl, rfl⟩ | ⟨rfl, rfl⟩ <;> rfl
  have hclose : Walks o c (depth + 1, .inside) ['"'] (depth + 1, .outside) :=
    ⟨Nat.succ_pos depth, rfl⟩
  rw [Walks, hopen]
  exact ⟨Nat.succ_pos depth, (hs.walks depth).append hclose⟩

/-- Between two brackets. -/
theorem Balanced.between (hb : Brackets o c) {x y : Char}
    (hxy : (x = '[' ∧ y = ']') ∨ (x = '\x7b' ∧ y = '\x7d')) (hv : Balanced o c v) :
    Balanced o c (x :: (v ++ [y])) := by
  by_cases hown : x = o ∧ y = c
  · obtain ⟨rfl, rfl⟩ := hown
    intro depth
    have hopen : scan x y (depth + 1, .outside) x = (depth + 2, .outside) := if_pos rfl
    have hclose : scan x y (depth + 2, .outside) y = (depth + 1, .outside) := by
      rcases hb with ⟨rfl, rfl⟩ | ⟨rfl, rfl⟩ <;> rfl
    rw [Walks, hopen]
    refine ⟨Nat.succ_pos _, (hv (depth + 1)).append ?_⟩
    rw [Walks, hclose]
    exact ⟨Nat.succ_pos depth, rfl⟩
  · have hneutral : ∀ depth, scan o c (depth + 1, .outside) x = (depth + 1, .outside) ∧
        scan o c (depth + 1, .outside) y = (depth + 1, .outside) := by
      rcases hb with ⟨rfl, rfl⟩ | ⟨rfl, rfl⟩ <;> rcases hxy with ⟨rfl, rfl⟩ | ⟨rfl, rfl⟩
      · exact absurd ⟨rfl, rfl⟩ hown
      · exact fun _ => ⟨rfl, rfl⟩
      · exact fun _ => ⟨rfl, rfl⟩
      · exact absurd ⟨rfl, rfl⟩ hown
    intro depth
    rw [Walks, (hneutral depth).1]
    refine ⟨Nat.succ_pos depth, (hv depth).append ?_⟩
    rw [Walks, (hneutral depth).2]
    exact ⟨Nat.succ_pos depth, rfl⟩

/-! ## Values are balanced -/

theorem neutral_of_isDigit {x : Char} (hx : isDigit x = true) : Neutral x := by
  simp only [Neutral, List.mem_cons, List.not_mem_nil, or_false]
  rintro (rfl | rfl | rfl | rfl | rfl) <;> cases hx

theorem neutral_of_isWs {x : Char} (hx : isWs x = true) : Neutral x := by
  simp only [Neutral, List.mem_cons, List.not_mem_nil, or_false]
  rintro (rfl | rfl | rfl | rfl | rfl) <;> cases hx

theorem Ws.balanced (hb : Brackets o c) {w : List Char} (hw : Ws w) : Balanced o c w :=
  .of_neutral hb fun x hx => neutral_of_isWs (hw x hx)

theorem Digits.balanced (hb : Brackets o c) {t : List Char} (h : Digits t) : Balanced o c t :=
  .of_neutral hb fun x hx => neutral_of_isDigit (h x hx)

theorem IntPart.balanced (hb : Brackets o c) {t : List Char} (h : IntPart t) :
    Balanced o c t := by
  cases h with
  | zero => exact .cons_neutral hb (by decide) .nil
  | digits hc _ hs => exact .cons_neutral hb (neutral_of_isDigit hc) (hs.balanced hb)

theorem FracPart.balanced (hb : Brackets o c) {t : List Char} (h : FracPart t) :
    Balanced o c t := by
  cases h with
  | absent => exact .nil
  | present hc hs =>
      exact .cons_neutral hb (by decide)
        (.cons_neutral hb (neutral_of_isDigit hc) (hs.balanced hb))

theorem ExpPart.balanced (hb : Brackets o c) {t : List Char} (h : ExpPart t) :
    Balanced o c t := by
  cases h with
  | absent => exact .nil
  | unsigned he hc hs =>
      exact .cons_neutral hb (by rcases he with rfl | rfl <;> decide)
        (.cons_neutral hb (neutral_of_isDigit hc) (hs.balanced hb))
  | signed he hg hc hs =>
      exact .cons_neutral hb (by rcases he with rfl | rfl <;> decide)
        (.cons_neutral hb (by rcases hg with rfl | rfl <;> decide)
          (.cons_neutral hb (neutral_of_isDigit hc) (hs.balanced hb)))

theorem Unsigned.balanced (hb : Brackets o c) {t : List Char} (h : Unsigned t) :
    Balanced o c t := by
  obtain ⟨hint, hfrac, hexp⟩ := h
  exact (hint.balanced hb).append ((hfrac.balanced hb).append (hexp.balanced hb))

theorem Number.balanced (hb : Brackets o c) {t : List Char} (h : Number t) : Balanced o c t := by
  cases h with
  | plus hs => exact hs.balanced hb
  | minus hs => exact .cons_neutral hb (by decide) (hs.balanced hb)

mutual

theorem Value.balanced (hb : Brackets o c) : ∀ {t : List Char}, Value t → Balanced o c t
  | _, .litNull => .of_neutral hb (by decide)
  | _, .litTrue => .of_neutral hb (by decide)
  | _, .litFalse => .of_neutral hb (by decide)
  | _, .number hs => hs.balanced hb
  | _, .string hs => hs.balanced hb
  | _, .emptyArray hw => (Ws.balanced hb hw).between hb (.inl ⟨rfl, rfl⟩)
  | _, .array hs => (Elements.balanced hb hs).between hb (.inl ⟨rfl, rfl⟩)
  | _, .emptyObject hw => (Ws.balanced hb hw).between hb (.inr ⟨rfl, rfl⟩)
  | _, .object hs => (Members.balanced hb hs).between hb (.inr ⟨rfl, rfl⟩)

theorem Element.balanced (hb : Brackets o c) : ∀ {t : List Char}, Element t → Balanced o c t
  | _, .mk hw hv hw' =>
      (Ws.balanced hb hw).append ((Value.balanced hb hv).append (Ws.balanced hb hw'))

theorem Elements.balanced (hb : Brackets o c) : ∀ {t : List Char}, Elements t → Balanced o c t
  | _, .one hs => Element.balanced hb hs
  | _, .cons hs ht =>
      (Element.balanced hb hs).append (.cons_neutral hb (by decide) (Elements.balanced hb ht))

theorem Member.balanced (hb : Brackets o c) : ∀ {t : List Char}, Member t → Balanced o c t
  | _, .mk hw hk hw' he =>
      (Ws.balanced hb hw).append ((Str.balanced hb hk).append ((Ws.balanced hb hw').append
        (.cons_neutral hb (by decide) (Element.balanced hb he))))

theorem Members.balanced (hb : Brackets o c) : ∀ {t : List Char}, Members t → Balanced o c t
  | _, .one hs => Member.balanced hb hs
  | _, .cons hs ht =>
      (Member.balanced hb hs).append (.cons_neutral hb (by decide) (Members.balanced hb ht))

end

end

/-! ## Names -/

/-- Where a name is, and what comes behind it and its colon. -/
structure NameAt (name line before rest : List Char) : Prop where
  line_eq : line = before ++ '"' :: (name ++ '"' :: ':' :: rest)
  expected : ∃ q, run ⟨.value, []⟩ before = some q ∧ (q.mode = .members ∨ q.mode = .key)

/-- No name has an escape in it. -/
def PlainNames (line : List Char) : Prop :=
  ∀ before rest q, line = before ++ rest → run ⟨.value, []⟩ before = some q →
    q.mode ≠ .escape true

theorem plainNames_iff {line : List Char} : PlainNames line ↔ ∀ n ≤ line.length,
    ∀ q ∈ run ⟨.value, []⟩ (line.take n), q.mode ≠ .escape true := by
  constructor
  · intro h n _ q hq
    exact h (line.take n) (line.drop n) q (List.take_append_drop n line).symm hq
  · rintro h before rest q rfl hq
    refine h before.length ?_ q ?_
    · rw [List.length_append]
      exact Nat.le_add_right _ _
    · rw [List.take_left]
      exact hq

instance : DecidablePred PlainNames := fun _ => decidable_of_iff _ plainNames_iff.symm

theorem after?_eq_some {needle s t : List Char} (h : after? needle s = some t) :
    ∃ before, s = before ++ (needle ++ t) ∧
      ∀ before' t', s = before' ++ (needle ++ t') → before.length ≤ before'.length := by
  induction s with
  | nil => cases h
  | cons c s ih =>
      rw [after?] at h
      split at h
      · rename_i hpre
        obtain ⟨t', ht'⟩ := List.isPrefixOf_iff_prefix.mp hpre
        cases h
        refine ⟨[], ?_, fun _ _ _ => Nat.zero_le _⟩
        rw [List.nil_append, ← ht', List.drop_left]
      · rename_i hpre
        obtain ⟨before, rfl, hfirst⟩ := ih h
        refine ⟨c :: before, rfl, ?_⟩
        intro before' t' hsplit
        cases before' with
        | nil =>
            refine absurd (List.isPrefixOf_iff_prefix.mpr ⟨t', ?_⟩) hpre
            rw [List.nil_append] at hsplit
            exact hsplit.symm
        | cons c' before' =>
            rw [List.cons_append] at hsplit
            exact Nat.succ_le_succ (hfirst before' t' (List.cons.inj hsplit).2)

theorem after?_eq_none {needle s : List Char} (hne : needle ≠ []) (h : after? needle s = none)
    (before t : List Char) : s ≠ before ++ (needle ++ t) := by
  induction s generalizing before with
  | nil =>
      intro hsplit
      have hlength := congrArg List.length hsplit
      have hpos := List.length_pos_iff.mpr hne
      simp only [List.length_nil, List.length_append] at hlength
      omega
  | cons c s ih =>
      rw [after?] at h
      split at h
      · cases h
      · rename_i hpre
        intro hsplit
        cases before with
        | nil =>
            refine hpre (List.isPrefixOf_iff_prefix.mpr ⟨t, ?_⟩)
            rw [List.nil_append] at hsplit
            exact hsplit.symm
        | cons c' before =>
            rw [List.cons_append] at hsplit
            exact ih h before (List.cons.inj hsplit).2

/-- What is to come of a literal has no quote. -/
def State.LiteralPlain (q : State) : Prop :=
  ∀ d s, q.mode = .literal d s → '"' ∉ d :: s

theorem literalPlain_afterValue {k : List Frame} {c : Char} {q : State}
    (h : afterValue k c = some q) : q.LiteralPlain := by
  intro d s hmode
  rcases k with - | ⟨- | -, k⟩
  all_goals
    rw [afterValue] at h
    split_ifs at h
    all_goals
      cases h
      cases hmode

theorem literalPlain_startExp {k : List Frame} {c : Char} {q : State}
    (h : startExp k c = some q) : q.LiteralPlain := by
  rw [startExp] at h
  split_ifs at h
  · cases h
    rintro _ _ ⟨⟩
  · exact literalPlain_afterValue h

theorem literalPlain_startFrac {k : List Frame} {c : Char} {q : State}
    (h : startFrac k c = some q) : q.LiteralPlain := by
  rw [startFrac] at h
  split_ifs at h
  · cases h
    rintro _ _ ⟨⟩
  · exact literalPlain_startExp h

theorem literalPlain_startValue {k : List Frame} {c : Char} {q : State}
    (h : startValue k c = some q) : q.LiteralPlain := by
  intro d s hmode
  rw [startValue] at h
  split_ifs at h
  all_goals
    cases h
    cases hmode
  all_goals decide

theorem literalPlain_step {q q' : State} {c : Char} (hq : q.LiteralPlain)
    (h : step q c = some q') : q'.LiteralPlain := by
  obtain ⟨mode, k⟩ := q
  cases mode with
  | value =>
      rw [step] at h
      split_ifs at h
      · cases h
        rintro _ _ ⟨⟩
      · exact literalPlain_startValue h
  | elements =>
      rw [step] at h
      split_ifs at h
      · cases h
        rintro _ _ ⟨⟩
      · cases h
        rintro _ _ ⟨⟩
      · exact literalPlain_startValue h
  | after => exact literalPlain_afterValue h
  | zero => exact literalPlain_startFrac h
  | int =>
      rw [step] at h
      split_ifs at h
      · cases h
        rintro _ _ ⟨⟩
      · exact literalPlain_startFrac h
  | frac =>
      rw [step] at h
      split_ifs at h
      · cases h
        rintro _ _ ⟨⟩
      · exact literalPlain_startExp h
  | exp =>
      rw [step] at h
      split_ifs at h
      · cases h
        rintro _ _ ⟨⟩
      · exact literalPlain_afterValue h
  | hex name n =>
      cases n <;>
      · rw [step] at h
        split_ifs at h
        cases h
        rintro _ _ ⟨⟩
  | literal d s =>
      have hplain := hq d s rfl
      cases s with
      | nil =>
          rw [step] at h
          split_ifs at h
          cases h
          rintro _ _ ⟨⟩
      | cons d' s =>
          rw [step] at h
          split_ifs at h
          cases h
          intro e t hmode
          cases hmode
          exact fun hmem => hplain (List.mem_cons_of_mem _ hmem)
  | members | key | colon | chars name | escape name | minus | dot | e | sign =>
      rw [step] at h
      split_ifs at h
      all_goals
        cases h
        rintro _ _ ⟨⟩

theorem literalPlain_run {q q' : State} {s : List Char} (hq : q.LiteralPlain)
    (h : run q s = some q') : q'.LiteralPlain := by
  induction s generalizing q with
  | nil =>
      cases h
      exact hq
  | cons c s ih =>
      obtain ⟨q₁, hstep, hrun⟩ := Option.bind_eq_some_iff.mp h
      exact ih (literalPlain_step hq hstep) hrun

theorem Chars.of_plain {s : List Char} (h : ∀ c ∈ s, isPlain c = true) : Chars s := by
  induction s with
  | nil => exact .nil
  | cons c s ih =>
      rw [List.forall_mem_cons] at h
      exact .plain h.1 (ih h.2)

/-- A key that does not begin with white space. -/
def IsName (name : List Char) : Prop := IsKey name ∧ ∀ c ∈ name.head?, isWs c = false

instance : DecidablePred IsName := fun name =>
  decidable_of_iff (IsKey name ∧ name.head?.all (fun c => !isWs c) = true) <| by
    rw [IsName]
    cases name <;> simp

/-- Behind a string that is closed a key does not begin. -/
theorem step_key {name : List Char} (hname : IsName name) {m : Mode} (hm : m = .colon ∨ m = .after)
    (k : List Frame) (t : List Char) : run ⟨m, k⟩ (name ++ t) = none := by
  cases name with
  | nil => cases hname.1
  | cons c name =>
      obtain ⟨⟨hmarks, -⟩, hws⟩ := hname
      have hc : isWs c = false := hws c rfl
      simp only [List.mem_cons, List.not_mem_nil, not_or, or_false] at hmarks
      have hstep : step ⟨m, k⟩ c = none := by
        rcases hm with rfl | rfl
        · simp [step, hc, hmarks]
        · rcases k with - | ⟨- | -, k⟩ <;> simp [step, afterValue, hc, hmarks]
      rw [List.cons_append, run, hstep]
      rfl

/-- A quoted key with a colon behind it is a name, or in a name that has an escape. -/
theorem mode_of_run {q : State} (hliteral : q.LiteralPlain) (hescape : q.mode ≠ .escape true)
    {name : List Char} (hname : IsName name) {rest : List Char}
    (h : run q ('"' :: (name ++ '"' :: ':' :: rest)) ≠ none) :
    q.mode = .members ∨ q.mode = .key := by
  obtain ⟨mode, k⟩ := q
  rw [run, Ne] at h
  have hvalue : run ⟨.chars false, k⟩ (name ++ '"' :: ':' :: rest) = none := by
    have hafter : run ⟨.after, k⟩ (':' :: rest) = none := by
      have hstep : step ⟨.after, k⟩ ':' = none := by
        rcases k with - | ⟨- | -, k⟩ <;> rfl
      rw [run, hstep]
      rfl
    have hplain : ∀ c ∈ name, isPlain c = true := hname.1.plain
    have hquote : run ⟨.chars false, k⟩ ('"' :: ':' :: rest) = none := hafter
    rw [run_append_of ((Chars.of_plain hplain).run false k), hquote]
  cases mode with
  | members => exact .inl rfl
  | key => exact .inr rfl
  | value => exact absurd hvalue h
  | elements => exact absurd hvalue h
  | chars b =>
      refine absurd ?_ h
      cases b
      · exact step_key hname (.inr rfl) k _
      · exact step_key hname (.inl rfl) k _
  | escape b =>
      cases b
      · exact absurd hvalue h
      · exact absurd rfl hescape
  | literal d s =>
      refine absurd ?_ h
      have hd : '"' ≠ d := fun hd => hliteral d s rfl (hd ▸ List.mem_cons_self)
      cases s <;> simp [step, hd]
  | hex b n => exact absurd (by cases n <;> rfl) h
  | colon => exact absurd rfl h
  | after | zero | int | frac | exp =>
      exact absurd (by rcases k with - | ⟨- | -, k⟩ <;> rfl) h
  | minus | dot | e | sign => exact absurd rfl h

variable {name line : List Char}

/-- In a text whose names have no escapes, what a search finds is a name. -/
theorem nameAt_of_occurrence (htext : Text line) (hplain : PlainNames line) (hname : IsName name)
    {before rest : List Char} (h : line = before ++ '"' :: (name ++ '"' :: ':' :: rest)) :
    NameAt name line before rest := by
  obtain ⟨last, hrun, -⟩ := htext.accepts
  rw [h, run_append, Option.bind_eq_some_iff] at hrun
  obtain ⟨q, hq, hrest⟩ := hrun
  have hstart : (⟨.value, []⟩ : State).LiteralPlain := fun d s hmode => by cases hmode
  have hsome : run q ('"' :: (name ++ '"' :: ':' :: rest)) ≠ none := by
    rw [hrest]
    exact Option.some_ne_none last
  exact ⟨h, q, hq, mode_of_run (literalPlain_run hstart hq) (hplain before _ q h hq) hname hsome⟩

theorem afterKey?_first (htext : Text line) (hplain : PlainNames line) (hname : IsName name)
    {before rest : List Char} (h : NameAt name line before rest)
    (hfirst : ∀ before' rest', NameAt name line before' rest' →
      before.length ≤ before'.length) : afterKey? name line = some rest := by
  have hneedle : ∀ t, '"' :: (name ++ ['"', ':']) ++ t = '"' :: (name ++ '"' :: ':' :: t) := by
    intro t
    simp
  rcases hfound : afterKey? name line with - | rest'
  · refine absurd ?_ (after?_eq_none (List.cons_ne_nil _ _) hfound before rest)
    rw [hneedle]
    exact h.line_eq
  · obtain ⟨before', hsplit, hleast⟩ := after?_eq_some hfound
    rw [hneedle] at hsplit
    have hle := hfirst before' rest' (nameAt_of_occurrence htext hplain hname hsplit)
    have hge := hleast before rest (by rw [hneedle]; exact h.line_eq)
    obtain ⟨-, htail⟩ := List.append_inj (hsplit.symm.trans h.line_eq) (Nat.le_antisymm hge hle)
    have hrest := List.append_cancel_left (List.cons.inj htail).2
    rw [(List.cons.inj (List.cons.inj hrest).2).2]

theorem afterKey?_of_absent (htext : Text line) (hplain : PlainNames line) (hname : IsName name)
    (h : ∀ before rest, ¬NameAt name line before rest) : afterKey? name line = none := by
  rcases hfound : afterKey? name line with - | rest
  · rfl
  · obtain ⟨before, hsplit, -⟩ := after?_eq_some hfound
    refine absurd (nameAt_of_occurrence htext hplain hname ?_) (h before rest)
    rw [hsplit]
    simp

end Json
