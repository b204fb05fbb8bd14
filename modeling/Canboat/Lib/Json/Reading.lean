import Canboat.Lib.Binary64
import Canboat.Lib.Json.Machine

/-!
# Following what a writer emits

A text that reads as a value exactly when a condition holds leaves the machine stuck
otherwise. Numerals, strings and the members of an object are followed in this way, so that
one calculation settles both cases.
-/

namespace Json

open Binary64 (digits paddedDigits decimal special)

/-- When the condition holds the run ends as said, and otherwise it is stuck. -/
structure RunsIf (p : Bool) (q : State) (s : List Char) (Q : State → Prop) : Prop where
  runs : p = true → ∃ q', run q s = some q' ∧ Q q'
  stuck : p = false → run q s = none

/-- Reads as a value, or not at all. -/
def ReadsIf (p : Bool) (s : List Char) : Prop :=
  ∀ k, RunsIf p ⟨.value, k⟩ s fun q => q.Ends k

theorem RunsIf.of_run {q q' : State} {s : List Char} {Q : State → Prop} (hrun : run q s = some q')
    (hq : Q q') : RunsIf true q s Q :=
  ⟨fun _ => ⟨q', hrun, hq⟩, fun h => Bool.noConfusion h⟩

theorem RunsIf.nil {q : State} {Q : State → Prop} (hq : Q q) : RunsIf true q [] Q :=
  .of_run rfl hq

theorem RunsIf.append {p r : Bool} {q : State} {s t : List Char} {Q R : State → Prop}
    (hs : RunsIf p q s Q) (ht : ∀ q', Q q' → RunsIf r q' t R) : RunsIf (p && r) q (s ++ t) R := by
  cases p with
  | false => exact ⟨fun h => Bool.noConfusion h, fun _ => run_append_none (hs.stuck rfl) t⟩
  | true =>
      obtain ⟨q', hrun, hq'⟩ := hs.runs rfl
      refine ⟨fun hr => ?_, fun hr => ?_⟩
      · rw [run_append_of hrun]
        exact (ht q' hq').runs hr
      · rw [run_append_of hrun]
        exact (ht q' hq').stuck hr

theorem RunsIf.imp {p : Bool} {q : State} {s : List Char} {Q R : State → Prop}
    (hs : RunsIf p q s Q) (h : ∀ q', Q q' → R q') : RunsIf p q s R :=
  ⟨fun hp => (hs.runs hp).imp fun _ hq => ⟨hq.1, h _ hq.2⟩, hs.stuck⟩

theorem RunsIf.of_eq {p : Bool} {q q' : State} {s : List Char} {Q : State → Prop}
    (hs : RunsIf p q' s Q) (h : run q s = run q' s) : RunsIf p q s Q := by
  constructor
  · rw [h]
    exact hs.runs
  · rw [h]
    exact hs.stuck

/-- What is read in any case goes first. -/
theorem RunsIf.after {p : Bool} {q q' : State} {s t : List Char} {Q : State → Prop}
    (hrun : run q s = some q') (ht : RunsIf p q' t Q) : RunsIf p q (s ++ t) Q := by
  have h := RunsIf.append (.of_run (Q := (· = q')) hrun rfl) fun q hq => hq ▸ ht
  rwa [Bool.true_and] at h

theorem Reads.readsIf {s : List Char} (hs : Reads s) : ReadsIf true s :=
  fun k => ⟨fun _ => hs k, fun h => Bool.noConfusion h⟩

theorem ReadsIf.accepts_iff {p : Bool} {s : List Char} (hs : ReadsIf p s) :
    Accepts ⟨.value, []⟩ s ↔ p = true := by
  constructor
  · rintro ⟨q, hrun, -⟩
    cases p with
    | true => rfl
    | false => rw [(hs []).stuck rfl] at hrun; cases hrun
  · exact (hs []).runs

/-- The text begins with a character that goes on no number. -/
def Closes (s : List Char) : Prop := ∃ c t, s = c :: t ∧ Closing c

theorem State.Ends.run {q : State} {k : List Frame} (hq : q.Ends k) {s : List Char}
    (hs : Closes s) : Json.run q s = Json.run ⟨.after, k⟩ s := by
  obtain ⟨c, t, rfl, hc⟩ := hs
  rw [Json.run, hq.step hc, Json.run, State.Ends.step (Or.inl rfl) hc]

/-- Such a text finds the value before it complete. -/
theorem ReadsIf.append {p r : Bool} {v t : List Char} (hv : ReadsIf p v) {k : List Frame}
    (ht : Closes t) {R : State → Prop} (hr : RunsIf r ⟨.after, k⟩ t R) :
    RunsIf (p && r) ⟨.value, k⟩ (v ++ t) R := by
  exact (hv k).append fun q hq => hr.of_eq (hq.run ht)

/-! ## Numerals -/

theorem isDigit_of_char {c : Char} (hc : c.isDigit = true) : isDigit c = true := by
  rw [Char.isDigit, Bool.and_eq_true, decide_eq_true_eq, decide_eq_true_eq] at hc
  rw [isDigit, Bool.and_eq_true, decide_eq_true_eq, decide_eq_true_eq]
  exact hc

theorem digits_eq (n : ℕ) : digits n = Nat.toDigits 10 n := by
  rw [digits, Nat.repr_eq_ofList_toDigits, String.toList_ofList]

theorem digits_digits (n : ℕ) : Digits (digits n) := by
  intro c hc
  rw [digits_eq] at hc
  exact isDigit_of_char (Nat.isDigit_of_mem_toDigits (by decide) (by decide) hc)

theorem digits_ne_nil (n : ℕ) : digits n ≠ [] := by
  rw [digits_eq]
  exact Nat.toDigits_ne_nil

theorem digitChar_ne_zero : ∀ n < 10, 0 < n → Nat.digitChar n ≠ '0' := by decide

/-- Only zero begins with a zero. -/
theorem digits_head {n : ℕ} (hn : 0 < n) : (digits n).head? ≠ some '0' := by
  rw [digits_eq]
  induction n using Nat.strongRecOn with
  | _ n ih =>
      by_cases hlt : n < 10
      · rw [Nat.toDigits_of_lt_base hlt, List.head?_cons, Ne, Option.some.injEq]
        exact digitChar_ne_zero n hlt hn
      · have hle := Nat.not_lt.mp hlt
        have hpos : 0 < n / 10 := Nat.div_pos hle (by decide)
        rw [Nat.toDigits_of_base_le (by decide) hle, List.head?_append_of_ne_nil _ Nat.toDigits_ne_nil]
        exact ih _ (Nat.div_lt_self hn (by decide)) hpos

theorem digits_intPart (n : ℕ) : IntPart (digits n) := by
  rcases Nat.eq_zero_or_pos n with rfl | hn
  · exact .zero
  · have hhead := digits_head hn
    have hall := digits_digits n
    cases hd : digits n with
    | nil => exact absurd hd (digits_ne_nil n)
    | cons c s =>
        rw [hd] at hhead hall
        refine .digits (hall c List.mem_cons_self) ?_ fun d hd => hall d (List.mem_cons_of_mem _ hd)
        rintro rfl
        exact hhead rfl

theorem paddedDigits_digits (width n : ℕ) : Digits (paddedDigits width n) := by
  intro c hc
  rcases List.mem_append.mp hc with hc | hc
  · rw [List.eq_of_mem_replicate hc]
    rfl
  · exact digits_digits n c hc

theorem fracPart_padded (width n : ℕ) : FracPart ('.' :: paddedDigits width n) := by
  have hall := paddedDigits_digits width n
  cases hd : paddedDigits width n with
  | nil => exact absurd (List.append_eq_nil_iff.mp hd).2 (digits_ne_nil n)
  | cons c s =>
      rw [hd] at hall
      exact .present (hall c List.mem_cons_self) fun d hd => hall d (List.mem_cons_of_mem _ hd)

theorem number_digits (n : ℕ) : Number (digits n) := by
  have h := Unsigned.mk (digits_intPart n) .absent .absent
  rw [List.append_nil, List.append_nil] at h
  exact .plus h

theorem number_signed (neg : Bool) {s : List Char} (hs : Unsigned s) :
    Number ((if neg then ['-'] else []) ++ s) := by
  cases neg with
  | false => exact .plus hs
  | true => exact .minus hs

theorem unsigned_digits (n : ℕ) : Unsigned (digits n) := by
  have h := Unsigned.mk (digits_intPart n) .absent .absent
  rwa [List.append_nil, List.append_nil] at h

theorem unsigned_places (n width m : ℕ) : Unsigned (digits n ++ '.' :: paddedDigits width m) := by
  have h := Unsigned.mk (digits_intPart n) (fracPart_padded width m) .absent
  rwa [List.append_nil] at h

theorem number_decimal (neg : Bool) (places n : ℕ) : Number (decimal neg places n) := by
  unfold decimal
  apply number_signed
  split
  · exact unsigned_digits n
  · exact unsigned_places _ _ _

/-- Spaces before a value, or before what is none. -/
theorem ReadsIf.spaces {p : Bool} {s : List Char} (hs : ReadsIf p s) (n : ℕ) :
    ReadsIf p (List.replicate n ' ' ++ s) := by
  have hws : Ws (List.replicate n ' ') := by
    intro c hc
    rw [List.eq_of_mem_replicate hc]
    rfl
  exact fun k => .after (run_ws_value hws k) (hs k)

theorem readsIf_special {x : Binary64} (hx : x.isFinite = false) : ReadsIf false (special x) := by
  refine fun k => ⟨fun h => Bool.noConfusion h, fun _ => ?_⟩
  match x with
  | .nan => rfl
  | .inf true => rfl
  | .inf false => rfl
  | .fin _ => cases hx

theorem readsIf_display (x : Binary64) : ReadsIf x.isFinite x.display := by
  cases x with
  | fin x => exact (number_decimal _ _ _).reads.readsIf
  | nan => exact readsIf_special (x := .nan) rfl
  | inf neg => exact readsIf_special (x := .inf neg) rfl

theorem readsIf_displayFixed (places : ℕ) (x : Binary64) :
    ReadsIf x.isFinite (x.displayFixed places) := by
  cases x with
  | fin x => exact (number_decimal _ _ _).reads.readsIf
  | nan => exact readsIf_special (x := .nan) rfl
  | inf neg => exact readsIf_special (x := .inf neg) rfl

/-! ## Strings and objects -/

/-- Reads as a value that nothing can go on, or not at all. -/
def ClosedIf (p : Bool) (s : List Char) : Prop :=
  ∀ k, RunsIf p ⟨.value, k⟩ s (· = ⟨.after, k⟩)

theorem ClosedIf.readsIf {p : Bool} {s : List Char} (hs : ClosedIf p s) : ReadsIf p s :=
  fun k => (hs k).imp fun _ hq => Or.inl hq

theorem Str.closed {s : List Char} (hs : Str s) : ClosedIf true s := by
  intro k
  obtain @⟨b, hs⟩ := hs
  refine .of_run ?_ rfl
  rw [run_cons_of (show step ⟨.value, k⟩ '"' = some ⟨.chars false, k⟩ from rfl),
    hs.run_quote false k]
  rfl

theorem closed_null : ClosedIf true "null".toList := fun _ => .of_run rfl rfl

/-- Where the next member of an object may be written, behind this separator. -/
def Ready (sep : List Char) (k : List Frame) (q : State) : Prop :=
  (sep = [] ∧ q = ⟨.members, .object :: k⟩) ∨ (sep = [','] ∧ q.Ends (.object :: k))

theorem Ready.run_name {sep : List Char} {k : List Frame} {q : State} (hq : Ready sep k q)
    {n : List Char} (hn : Str n) :
    run q (sep ++ (n ++ [':'])) = some ⟨.value, .object :: k⟩ := by
  rcases hq with ⟨rfl, rfl⟩ | ⟨rfl, hends⟩
  · rw [List.nil_append, run_append_of (hn.run_name _ (Or.inl rfl))]
    rfl
  · rw [List.cons_append, List.nil_append, hends.run ⟨_, _, rfl, closing_comma⟩,
      run_cons_of (show step ⟨.after, .object :: k⟩ ',' = some ⟨.key, .object :: k⟩ from rfl),
      run_append_of (hn.run_name _ (Or.inr rfl))]
    rfl

/-- A member goes on with any value. -/
theorem Ready.member {sep : List Char} {k : List Frame} {q : State} (hq : Ready sep k q)
    {n v : List Char} (hn : Str n) {p : Bool} {Q : State → Prop}
    (hv : RunsIf p ⟨.value, .object :: k⟩ v Q) : RunsIf p q (sep ++ (n ++ ':' :: v)) Q := by
  have h := RunsIf.after (hq.run_name hn) hv
  rwa [List.append_assoc, List.append_assoc, List.cons_append, List.nil_append] at h

theorem Ready.brace {sep : List Char} {k : List Frame} {q : State} (hq : Ready sep k q) :
    run q ['\x7d'] = some ⟨.after, k⟩ := by
  rcases hq with ⟨-, rfl⟩ | ⟨-, hends⟩
  · rfl
  · rw [hends.run ⟨_, _, rfl, closing_brace⟩]
    rfl

/-- The members of an object, or none. -/
def MembersIf (p : Bool) (s : List Char) : Prop :=
  ∀ k, RunsIf p ⟨.members, .object :: k⟩ s fun q => ∃ sep, Ready sep k q

theorem MembersIf.object {p : Bool} {s : List Char} (hs : MembersIf p s) :
    ClosedIf p ('\x7b' :: (s ++ ['\x7d'])) := by
  intro k
  have h := (hs k).append (r := true) (t := ['\x7d']) (R := (· = ⟨.after, k⟩))
    fun q ⟨sep, hq⟩ => .of_run hq.brace rfl
  rw [Bool.and_true] at h
  exact .after (s := ['\x7b'])
    (show run ⟨.value, k⟩ ['\x7b'] = some ⟨.members, .object :: k⟩ from rfl) h

/-- A member behind those already written, with its name and the comma before it as one text. -/
theorem RunsIf.more {p r : Bool} {q : State} {s : List Char} {k : List Frame}
    (hs : RunsIf p q s (Ready [','] k)) {t v : List Char}
    (ht : run ⟨.after, .object :: k⟩ (',' :: t) = some ⟨.value, .object :: k⟩)
    (hv : ReadsIf r v) : RunsIf (p && r) q (s ++ ',' :: t ++ v) (Ready [','] k) := by
  rw [List.append_assoc]
  refine hs.append fun q' hq' => ?_
  rcases hq' with ⟨h, -⟩ | ⟨-, hends⟩
  · cases h
  · refine .after ?_ ((hv (.object :: k)).imp fun _ hends' => Or.inr ⟨rfl, hends'⟩)
    rw [hends.run ⟨_, _, rfl, closing_comma⟩]
    exact ht

/-- More members behind a value, or nothing. -/
structure SuffixIf (p : Bool) (s : List Char) : Prop where
  shape : s = [] ∨ ∃ t, s = ',' :: t
  runs : ∀ k, RunsIf p ⟨.after, .object :: k⟩ s (· = ⟨.after, .object :: k⟩)

theorem SuffixIf.nil : SuffixIf true [] := ⟨Or.inl rfl, fun _ => .nil rfl⟩

theorem SuffixIf.append {p r : Bool} {s t : List Char} (hs : SuffixIf p s) (ht : SuffixIf r t) :
    SuffixIf (p && r) (s ++ t) := by
  constructor
  · rcases hs.shape with rfl | ⟨s', rfl⟩
    · exact ht.shape
    · exact Or.inr ⟨s' ++ t, rfl⟩
  · exact fun k => (hs.runs k).append fun q hq => hq ▸ ht.runs k

/-- A value in the first member of an object, and the members behind it. -/
theorem ReadsIf.object {p r : Bool} {n v s : List Char} (hn : Str n) (hv : ReadsIf p v)
    (hs : SuffixIf r s) : ClosedIf (p && r) ('\x7b' :: (n ++ ':' :: (v ++ (s ++ ['\x7d'])))) := by
  intro k
  have hcloses : Closes (s ++ ['\x7d']) := by
    rcases hs.shape with rfl | ⟨s', rfl⟩
    · exact ⟨_, _, rfl, closing_brace⟩
    · exact ⟨_, _, rfl, closing_comma⟩
  have hbrace : RunsIf r ⟨.after, .object :: k⟩ (s ++ ['\x7d']) (· = ⟨.after, k⟩) := by
    have h := (hs.runs k).append (r := true) (t := ['\x7d']) (R := (· = ⟨.after, k⟩))
      fun q hq => hq ▸ .of_run rfl rfl
    rwa [Bool.and_true] at h
  have hready : Ready [] k ⟨.members, .object :: k⟩ := Or.inl ⟨rfl, rfl⟩
  have h := RunsIf.after (s := ['\x7b']) (show run ⟨.value, k⟩ ['\x7b'] = _ from rfl)
    (hready.member hn (hv.append hcloses hbrace))
  exact h

/-! ## Arrays -/

/-- Nothing goes on the value, and its first character is no white space and no bracket. -/
def Item (t : List Char) : Prop :=
  ClosedIf true t ∧ ∃ c s, t = c :: s ∧ isWs c = false ∧ c ≠ ']'

theorem run_items {items : List (List Char)} (hitems : ∀ t ∈ items, Item t) (hne : items ≠ [])
    (k : List Frame) :
    run ⟨.value, .array :: k⟩ ([','].intercalate items) = some ⟨.after, .array :: k⟩ := by
  induction items with
  | nil => exact absurd rfl hne
  | cons t items ih =>
      obtain ⟨q, hrun, rfl⟩ := ((hitems t List.mem_cons_self).1 (.array :: k)).runs rfl
      cases items with
      | nil => rwa [List.intercalate_singleton]
      | cons t' items =>
          rw [List.intercalate_cons_of_ne_nil (by simp), List.append_assoc, run_append_of hrun,
            List.cons_append, List.nil_append,
            run_cons_of (show step ⟨.after, .array :: k⟩ ',' = some ⟨.value, .array :: k⟩ from rfl)]
          exact ih (fun t ht => hitems t (List.mem_cons_of_mem _ ht)) (by simp)

/-- The first item is read after the bracket as any value is. -/
theorem run_elements_start {c : Char} (hc : isWs c = false) (hne : c ≠ ']') (k : List Frame)
    (s : List Char) : run ⟨.elements, k⟩ (c :: s) = run ⟨.value, k⟩ (c :: s) := by
  have hstep : step ⟨.elements, k⟩ c = step ⟨.value, k⟩ c := by
    rw [step, step, hc, if_neg Bool.false_ne_true, if_neg hne, if_neg Bool.false_ne_true]
  rw [run, run, hstep]

theorem closed_array {items : List (List Char)} (hitems : ∀ t ∈ items, Item t)
    (hne : items ≠ []) : ClosedIf true ('[' :: ([','].intercalate items ++ [']'])) := by
  intro k
  have hrun := run_items hitems hne k
  have hfirst : ∃ c s, [','].intercalate items = c :: s ∧ isWs c = false ∧ c ≠ ']' := by
    cases items with
    | nil => exact absurd rfl hne
    | cons t items =>
        obtain ⟨c, s, rfl, hc, hcb⟩ := (hitems t List.mem_cons_self).2
        cases items with
        | nil => exact ⟨c, s, List.intercalate_singleton, hc, hcb⟩
        | cons t' items =>
            rw [List.intercalate_cons_of_ne_nil (by simp)]
            exact ⟨c, _, rfl, hc, hcb⟩
  obtain ⟨c, s, heq, hc, hcb⟩ := hfirst
  refine .of_run ?_ rfl
  rw [run_cons_of (show step ⟨.value, k⟩ '[' = some ⟨.elements, .array :: k⟩ from rfl)]
  rw [heq] at hrun ⊢
  rw [← run_elements_start hc hcb] at hrun
  rw [run_append_of hrun]
  rfl

end Json
