import Mathlib.Data.Nat.Init
import Canboat.Lib.Json.Machine

/-!
# What the machine accepts is JSON

From where a value may begin, an accepted text has a value of the grammar in front; what
follows it is accepted after the value. The strings and numbers come first, then the
brackets, by induction on the length of the text.
-/

namespace Json

theorem accepts_nil {q : State} : Accepts q [] ↔ q.Ends [] := by
  constructor
  · rintro ⟨q', hrun, hends⟩
    rw [run, Option.some.injEq] at hrun
    rwa [hrun]
  · intro hends
    exact ⟨q, rfl, hends⟩

theorem accepts_cons {q : State} {c : Char} {s : List Char} :
    Accepts q (c :: s) ↔ ∃ q', step q c = some q' ∧ Accepts q' s := by
  constructor
  · rintro ⟨q'', hrun, hends⟩
    rw [run] at hrun
    obtain ⟨q', hstep, hrun⟩ := Option.bind_eq_some_iff.mp hrun
    exact ⟨q', hstep, q'', hrun, hends⟩
  · rintro ⟨q', hstep, q'', hrun, hends⟩
    exact ⟨q'', by rw [run_cons_of hstep, hrun], hends⟩

theorem accepts_append {q q' : State} {s : List Char} (h : run q s = some q') (t : List Char) :
    Accepts q (s ++ t) ↔ Accepts q' t := by
  rw [Accepts, Accepts, run_append_of h]

/-- What a state stays in can be read off the front. -/
theorem accepts_skip {q : State} {p : Char → Bool} (hstay : ∀ c, p c = true → step q c = some q)
    {s : List Char} (hs : Accepts q s) :
    ∃ w t, s = w ++ t ∧ (∀ c ∈ w, p c = true) ∧ Accepts q t ∧
      ∀ c t', t = c :: t' → p c = false := by
  induction s with
  | nil => exact ⟨[], [], rfl, by simp, hs, by simp⟩
  | cons c s ih =>
      cases hp : p c with
      | true =>
          obtain ⟨q', hstep, hs⟩ := accepts_cons.mp hs
          rw [hstay c hp, Option.some.injEq] at hstep
          obtain ⟨w, t, rfl, hw, ht, hhead⟩ := ih (hstep ▸ hs)
          refine ⟨c :: w, t, rfl, ?_, ht, hhead⟩
          intro d hd
          rcases List.mem_cons.mp hd with rfl | hd
          · exact hp
          · exact hw d hd
      | false =>
          refine ⟨[], c :: s, rfl, by simp, hs, ?_⟩
          intro d t' heq
          rw [← (List.cons.inj heq).1]
          exact hp

/-- In a state that does not end a value, there is more to read. -/
theorem accepts_more {q : State} {s : List Char} (hs : Accepts q s) (hends : ¬q.Ends []) :
    ∃ c t q', s = c :: t ∧ step q c = some q' ∧ Accepts q' t := by
  cases s with
  | nil => exact absurd (accepts_nil.mp hs) hends
  | cons c t =>
      obtain ⟨q', hstep, ht⟩ := accepts_cons.mp hs
      exact ⟨c, t, q', rfl, hstep, ht⟩

/-! ## Numbers -/

/-- What may follow a number's fraction. -/
def AcceptsExp (k : List Frame) (s : List Char) : Prop :=
  (s = [] ∧ k = []) ∨ ∃ c t q, s = c :: t ∧ startExp k c = some q ∧ Accepts q t

/-- What may follow a number's integer part. -/
def AcceptsFrac (k : List Frame) (s : List Char) : Prop :=
  (s = [] ∧ k = []) ∨ ∃ c t q, s = c :: t ∧ startFrac k c = some q ∧ Accepts q t

theorem ends_stack {m : Mode} {k : List Frame} (h : (⟨m, k⟩ : State).Ends []) : k = [] := by
  rcases h with h | h | h | h | h <;> exact (State.mk.inj h).2

theorem accepts_exp {k : List Frame} {s : List Char} (hs : Accepts ⟨.exp, k⟩ s) :
    ∃ d t, s = d ++ t ∧ Digits d ∧ Accepts ⟨.after, k⟩ t := by
  obtain ⟨d, t, rfl, hd, ht, hhead⟩ := accepts_skip
    (fun c (hc : isDigit c = true) => show step ⟨.exp, k⟩ c = some ⟨.exp, k⟩ from if_pos hc) hs
  refine ⟨d, t, rfl, hd, ?_⟩
  cases t with
  | nil =>
      obtain rfl := ends_stack (accepts_nil.mp ht)
      exact accepts_nil.mpr (Or.inl rfl)
  | cons c t =>
      obtain ⟨q, hstep, ht⟩ := accepts_cons.mp ht
      rw [step, hhead c t rfl, if_neg Bool.false_ne_true] at hstep
      exact accepts_cons.mpr ⟨q, hstep, ht⟩

theorem AcceptsExp.split {k : List Frame} {s : List Char} (hs : AcceptsExp k s) :
    ∃ e t, s = e ++ t ∧ ExpPart e ∧ Accepts ⟨.after, k⟩ t := by
  rcases hs with ⟨rfl, rfl⟩ | ⟨c, t, q, rfl, hstart, ht⟩
  · exact ⟨[], [], rfl, .absent, accepts_nil.mpr (Or.inl rfl)⟩
  · rw [startExp] at hstart
    split at hstart
    · rename_i he
      obtain rfl := Option.some.inj hstart
      obtain ⟨c₁, t₁, q₁, rfl, hstep₁, ht₁⟩ := accepts_more ht (by simp [State.Ends])
      rw [step] at hstep₁
      split at hstep₁
      · rename_i hsign
        obtain rfl := Option.some.inj hstep₁
        obtain ⟨c₂, t₂, q₂, rfl, hstep₂, ht₂⟩ := accepts_more ht₁ (by simp [State.Ends])
        rw [step] at hstep₂
        split at hstep₂
        · rename_i hdigit
          obtain rfl := Option.some.inj hstep₂
          obtain ⟨d, t, rfl, hd, ht⟩ := accepts_exp ht₂
          exact ⟨c :: c₁ :: c₂ :: d, t, rfl, .signed he hsign hdigit hd, ht⟩
        · cases hstep₂
      · split at hstep₁
        · rename_i hdigit
          obtain rfl := Option.some.inj hstep₁
          obtain ⟨d, t, rfl, hd, ht⟩ := accepts_exp ht₁
          exact ⟨c :: c₁ :: d, t, rfl, .unsigned he hdigit hd, ht⟩
        · cases hstep₁
    · exact ⟨[], c :: t, rfl, .absent, accepts_cons.mpr ⟨q, hstart, ht⟩⟩

theorem accepts_frac {k : List Frame} {s : List Char} (hs : Accepts ⟨.frac, k⟩ s) :
    ∃ d t, s = d ++ t ∧ Digits d ∧ AcceptsExp k t := by
  obtain ⟨d, t, rfl, hd, ht, hhead⟩ := accepts_skip
    (fun c (hc : isDigit c = true) => show step ⟨.frac, k⟩ c = some ⟨.frac, k⟩ from if_pos hc) hs
  refine ⟨d, t, rfl, hd, ?_⟩
  cases t with
  | nil => exact Or.inl ⟨rfl, ends_stack (accepts_nil.mp ht)⟩
  | cons c t =>
      obtain ⟨q, hstep, ht⟩ := accepts_cons.mp ht
      rw [step, hhead c t rfl, if_neg Bool.false_ne_true] at hstep
      exact Or.inr ⟨c, t, q, rfl, hstep, ht⟩

theorem AcceptsFrac.split {k : List Frame} {s : List Char} (hs : AcceptsFrac k s) :
    ∃ f t, s = f ++ t ∧ FracPart f ∧ AcceptsExp k t := by
  rcases hs with ⟨rfl, rfl⟩ | ⟨c, t, q, rfl, hstart, ht⟩
  · exact ⟨[], [], rfl, .absent, Or.inl ⟨rfl, rfl⟩⟩
  · rw [startFrac] at hstart
    split at hstart
    · rename_i hdot
      obtain rfl := Option.some.inj hstart
      obtain ⟨c₁, t₁, q₁, rfl, hstep₁, ht₁⟩ := accepts_more ht (by simp [State.Ends])
      rw [step] at hstep₁
      split at hstep₁
      · rename_i hdigit
        obtain rfl := Option.some.inj hstep₁
        obtain ⟨d, t, rfl, hd, ht⟩ := accepts_frac ht₁
        exact ⟨c :: c₁ :: d, t, rfl, hdot ▸ .present hdigit hd, ht⟩
      · cases hstep₁
    · exact ⟨[], c :: t, rfl, .absent, Or.inr ⟨c, t, q, rfl, hstart, ht⟩⟩

/-- A number's fraction and exponent, and what follows the number. -/
theorem AcceptsFrac.unsigned {k : List Frame} {i s : List Char} (hi : IntPart i)
    (hs : AcceptsFrac k s) :
    ∃ u t, i ++ s = u ++ t ∧ Unsigned u ∧ Accepts ⟨.after, k⟩ t := by
  obtain ⟨f, t, rfl, hf, ht⟩ := hs.split
  obtain ⟨e, t, rfl, he, ht⟩ := ht.split
  exact ⟨i ++ (f ++ e), t, by simp, .mk hi hf he, ht⟩

theorem accepts_zero {k : List Frame} {s : List Char} (hs : Accepts ⟨.zero, k⟩ s) :
    AcceptsFrac k s := by
  cases s with
  | nil => exact Or.inl ⟨rfl, ends_stack (accepts_nil.mp hs)⟩
  | cons c t =>
      obtain ⟨q, hstep, ht⟩ := accepts_cons.mp hs
      exact Or.inr ⟨c, t, q, rfl, hstep, ht⟩

theorem accepts_int {k : List Frame} {s : List Char} (hs : Accepts ⟨.int, k⟩ s) :
    ∃ d t, s = d ++ t ∧ Digits d ∧ AcceptsFrac k t := by
  obtain ⟨d, t, rfl, hd, ht, hhead⟩ := accepts_skip
    (fun c (hc : isDigit c = true) => show step ⟨.int, k⟩ c = some ⟨.int, k⟩ from if_pos hc) hs
  refine ⟨d, t, rfl, hd, ?_⟩
  cases t with
  | nil => exact Or.inl ⟨rfl, ends_stack (accepts_nil.mp ht)⟩
  | cons c t =>
      obtain ⟨q, hstep, ht⟩ := accepts_cons.mp ht
      rw [step, hhead c t rfl, if_neg Bool.false_ne_true] at hstep
      exact Or.inr ⟨c, t, q, rfl, hstep, ht⟩

theorem accepts_zero_unsigned {k : List Frame} {s : List Char} (hs : Accepts ⟨.zero, k⟩ s) :
    ∃ u t, '0' :: s = u ++ t ∧ Unsigned u ∧ Accepts ⟨.after, k⟩ t :=
  (accepts_zero hs).unsigned .zero

theorem accepts_int_unsigned {k : List Frame} {c : Char} {s : List Char}
    (hc : isDigit c = true) (hzero : c ≠ '0') (hs : Accepts ⟨.int, k⟩ s) :
    ∃ u t, c :: s = u ++ t ∧ Unsigned u ∧ Accepts ⟨.after, k⟩ t := by
  obtain ⟨d, t, rfl, hd, ht⟩ := accepts_int hs
  exact ht.unsigned (.digits hc hzero hd)

theorem accepts_minus {k : List Frame} {s : List Char} (hs : Accepts ⟨.minus, k⟩ s) :
    ∃ u t, s = u ++ t ∧ Unsigned u ∧ Accepts ⟨.after, k⟩ t := by
  obtain ⟨c, t, q, rfl, hstep, ht⟩ := accepts_more hs (by simp [State.Ends])
  rw [step] at hstep
  split at hstep
  · rename_i hzero
    obtain rfl := Option.some.inj hstep
    rw [hzero]
    exact accepts_zero_unsigned ht
  · rename_i hzero
    split at hstep
    · rename_i hdigit
      obtain rfl := Option.some.inj hstep
      exact accepts_int_unsigned hdigit hzero ht
    · cases hstep

/-! ## Strings -/

/-- Four hexadecimal digits. -/
theorem accepts_hex {name : Bool} {k : List Frame} {s : List Char}
    (hs : Accepts ⟨.hex name 3, k⟩ s) :
    ∃ a b c d t, s = a :: b :: c :: d :: t ∧ isHex a = true ∧ isHex b = true ∧ isHex c = true ∧
      isHex d = true ∧ Accepts ⟨.chars name, k⟩ t := by
  have hdigit : ∀ (n : ℕ) {s : List Char}, Accepts ⟨.hex name (n + 1), k⟩ s →
      ∃ c t, s = c :: t ∧ isHex c = true ∧ Accepts ⟨.hex name n, k⟩ t := by
    intro n s hs
    obtain ⟨c, t, q, rfl, hstep, ht⟩ := accepts_more hs (by simp [State.Ends])
    rw [step] at hstep
    split at hstep
    · obtain rfl := Option.some.inj hstep
      exact ⟨c, t, rfl, ‹_›, ht⟩
    · cases hstep
  obtain ⟨a, t, rfl, ha, ht⟩ := hdigit 2 hs
  obtain ⟨b, t, rfl, hb, ht⟩ := hdigit 1 ht
  obtain ⟨c, t, rfl, hc, ht⟩ := hdigit 0 ht
  obtain ⟨d, t, q, rfl, hstep, ht⟩ := accepts_more ht (by simp [State.Ends])
  rw [step] at hstep
  split at hstep
  · obtain rfl := Option.some.inj hstep
    exact ⟨a, b, c, d, t, rfl, ha, hb, hc, ‹_›, ht⟩
  · cases hstep

theorem accepts_chars {name : Bool} {k : List Frame} {s : List Char}
    (hs : Accepts ⟨.chars name, k⟩ s) :
    ∃ b t, s = b ++ '"' :: t ∧ Chars b ∧
      Accepts ⟨if name then .colon else .after, k⟩ t := by
  induction hn : s.length using Nat.strong_induction_on generalizing s with
  | _ n ih =>
      obtain ⟨c, s, q, rfl, hstep, hs⟩ := accepts_more hs (by simp [State.Ends])
      subst hn
      rw [step] at hstep
      split at hstep
      · rename_i hquote
        obtain rfl := Option.some.inj hstep
        exact ⟨[], s, by rw [hquote]; rfl, .nil, hs⟩
      · split at hstep
        · rename_i hslash
          obtain rfl := Option.some.inj hstep
          obtain ⟨c₁, s₁, q₁, rfl, hstep₁, hs₁⟩ := accepts_more hs (by simp [State.Ends])
          rw [step] at hstep₁
          split at hstep₁
          · rename_i hu
            obtain rfl := Option.some.inj hstep₁
            obtain ⟨h₁, h₂, h₃, h₄, t, rfl, hh₁, hh₂, hh₃, hh₄, ht⟩ := accepts_hex hs₁
            obtain ⟨b, t, rfl, hb, ht⟩ := ih _ (by simp only [List.length_cons]; omega) ht rfl
            exact ⟨'\\' :: 'u' :: h₁ :: h₂ :: h₃ :: h₄ :: b, t, by rw [hslash, hu]; rfl,
              .unicode hh₁ hh₂ hh₃ hh₄ hb, ht⟩
          · split at hstep₁
            · obtain rfl := Option.some.inj hstep₁
              obtain ⟨b, t, rfl, hb, ht⟩ := ih _ (by simp only [List.length_cons]; omega) hs₁ rfl
              exact ⟨'\\' :: c₁ :: b, t, by rw [hslash]; rfl, .escape ‹_› hb, ht⟩
            · cases hstep₁
        · split at hstep
          · obtain rfl := Option.some.inj hstep
            obtain ⟨b, t, rfl, hb, ht⟩ := ih _ (by simp) hs rfl
            exact ⟨c :: b, t, rfl, .plain ‹_› hb, ht⟩
          · cases hstep

theorem accepts_literal {k : List Frame} {c : Char} {l s : List Char}
    (hs : Accepts ⟨.literal c l, k⟩ s) :
    ∃ t, s = c :: l ++ t ∧ Accepts ⟨.after, k⟩ t := by
  induction l generalizing c s with
  | nil =>
      obtain ⟨d, t, q, rfl, hstep, ht⟩ := accepts_more hs (by simp [State.Ends])
      rw [step] at hstep
      split at hstep
      · rename_i heq
        obtain rfl := Option.some.inj hstep
        exact ⟨t, by rw [heq]; rfl, ht⟩
      · cases hstep
  | cons c' l ih =>
      obtain ⟨d, t, q, rfl, hstep, ht⟩ := accepts_more hs (by simp [State.Ends])
      rw [step] at hstep
      split at hstep
      · rename_i heq
        obtain rfl := Option.some.inj hstep
        obtain ⟨t', rfl, ht'⟩ := ih ht
        exact ⟨t', by rw [heq]; rfl, ht'⟩
      · cases hstep

/-! ## Brackets -/

/-- Every accepted text shorter than the bound has a value in front. -/
def Splits (n : ℕ) : Prop :=
  ∀ {s : List Char}, s.length < n → ∀ {k : List Frame}, Accepts ⟨.value, k⟩ s →
    ∃ w v t, s = w ++ (v ++ t) ∧ Ws w ∧ Value v ∧ Accepts ⟨.after, k⟩ t

/-- White space after a value is followed by the end or by what the frame expects. -/
theorem accepts_after {f : Frame} {k : List Frame} {s : List Char}
    (hs : Accepts ⟨.after, f :: k⟩ s) :
    ∃ w c t q, s = w ++ c :: t ∧ Ws w ∧ isWs c = false ∧ afterValue (f :: k) c = some q ∧
      Accepts q t := by
  obtain ⟨w, t, rfl, hw, ht, hhead⟩ := accepts_skip
    (fun c (hc : isWs c = true) =>
      show step ⟨.after, f :: k⟩ c = some ⟨.after, f :: k⟩ from afterValue_ws hc _) hs
  obtain ⟨c, t, q, rfl, hstep, ht⟩ := accepts_more ht (by simp [State.Ends])
  exact ⟨w, c, t, q, rfl, hw, hhead c t rfl, hstep, ht⟩

/-- The rest of an array after an element. -/
theorem accepts_elements {n : ℕ} (hn : Splits n) {k : List Frame} {s : List Char}
    (hlen : s.length < n) (hs : Accepts ⟨.after, .array :: k⟩ s) :
    ∃ r t, s = r ++ ']' :: t ∧ Accepts ⟨.after, k⟩ t ∧
      ∀ w v, Ws w → Value v → Elements (w ++ (v ++ r)) := by
  induction hm : s.length using Nat.strong_induction_on generalizing s with
  | _ m ih =>
      obtain ⟨w, c, t, q, rfl, hw, hc, hafter, ht⟩ := accepts_after hs
      subst hm
      rw [afterValue, hc, if_neg Bool.false_ne_true] at hafter
      split at hafter
      · rename_i hcomma
        obtain rfl := Option.some.inj hafter
        have htlen : t.length < n := by
          rw [List.length_append, List.length_cons] at hlen
          omega
        obtain ⟨w', v', t', rfl, hw', hv', ht'⟩ := hn htlen ht
        have hshort : t'.length < (w ++ c :: (w' ++ (v' ++ t'))).length := by
          simp only [List.length_append, List.length_cons]
          omega
        obtain ⟨r, t, rfl, ht, hr⟩ := ih _ hshort (Nat.lt_trans hshort hlen) ht' rfl
        refine ⟨w ++ ',' :: (w' ++ (v' ++ r)), t, by simp [hcomma], ht, ?_⟩
        intro w₀ v₀ hw₀ hv₀
        have hcons := Elements.cons (.mk hw₀ hv₀ hw) (hr w' v' hw' hv')
        simpa only [List.append_assoc] using hcons
      · split at hafter
        · rename_i hbracket
          obtain rfl := Option.some.inj hafter
          exact ⟨w, t, by rw [hbracket], ht, fun w₀ v₀ hw₀ hv₀ => .one (.mk hw₀ hv₀ hw)⟩
        · cases hafter

/-- A member from behind the quote that opens its name. -/
theorem accepts_member {n : ℕ} (hn : Splits n) {k : List Frame} {s : List Char}
    (hlen : s.length < n) (hs : Accepts ⟨.chars true, k⟩ s) :
    ∃ b w w' v t, s = b ++ '"' :: (w ++ ':' :: (w' ++ (v ++ t))) ∧ Chars b ∧ Ws w ∧ Ws w' ∧
      Value v ∧ Accepts ⟨.after, k⟩ t := by
  obtain ⟨b, s, rfl, hb, hs⟩ := accepts_chars hs
  obtain ⟨w, s, rfl, hw, hs, hhead⟩ := accepts_skip
    (fun c (hc : isWs c = true) => show step ⟨.colon, k⟩ c = some ⟨.colon, k⟩ from if_pos hc) hs
  obtain ⟨c, s, q, rfl, hstep, hs⟩ := accepts_more hs (by simp [State.Ends])
  rw [step, hhead c s rfl, if_neg Bool.false_ne_true] at hstep
  split at hstep
  · rename_i hcolon
    obtain rfl := Option.some.inj hstep
    have hslen : s.length < n := by
      simp only [List.length_append, List.length_cons] at hlen
      omega
    obtain ⟨w', v, t, rfl, hw', hv, ht⟩ := hn hslen hs
    exact ⟨b, w, w', v, t, by rw [hcolon], hb, hw, hw', hv, ht⟩
  · cases hstep

/-- The rest of an object after a member. -/
theorem accepts_members {n : ℕ} (hn : Splits n) {k : List Frame} {s : List Char}
    (hlen : s.length < n) (hs : Accepts ⟨.after, .object :: k⟩ s) :
    ∃ r t, s = r ++ '\x7d' :: t ∧ Accepts ⟨.after, k⟩ t ∧
      ∀ w b w' w'' v, Ws w → Chars b → Ws w' → Ws w'' → Value v →
        Members (w ++ '"' :: (b ++ '"' :: (w' ++ ':' :: (w'' ++ (v ++ r))))) := by
  induction hm : s.length using Nat.strong_induction_on generalizing s with
  | _ m ih =>
      obtain ⟨w₁, c, s, q, rfl, hw₁, hc, hafter, hs⟩ := accepts_after hs
      subst hm
      have hmember : ∀ {w b w' w'' v : List Char}, Ws w → Chars b → Ws w' → Ws w'' → Value v →
          Member (w ++ '"' :: (b ++ '"' :: (w' ++ ':' :: (w'' ++ (v ++ w₁))))) := by
        intro w b w' w'' v hw hb hw' hw'' hv
        have hmk := Member.mk hw (.mk hb) hw' (.mk hw'' hv hw₁)
        simpa only [List.cons_append, List.append_assoc, List.nil_append] using hmk
      rw [afterValue, hc, if_neg Bool.false_ne_true] at hafter
      split at hafter
      · rename_i hcomma
        obtain rfl := Option.some.inj hafter
        obtain ⟨w₂, s, rfl, hw₂, hs, hhead⟩ := accepts_skip
          (fun c (hc : isWs c = true) =>
            show step ⟨.key, .object :: k⟩ c = some ⟨.key, .object :: k⟩ from if_pos hc) hs
        obtain ⟨d, s, q, rfl, hstep, hs⟩ := accepts_more hs (by simp [State.Ends])
        rw [step, hhead d s rfl, if_neg Bool.false_ne_true] at hstep
        split at hstep
        · rename_i hquote
          obtain rfl := Option.some.inj hstep
          have hslen : s.length < n := by
            simp only [List.length_append, List.length_cons] at hlen
            omega
          obtain ⟨b, w₃, w₄, v, t, rfl, hb, hw₃, hw₄, hv, ht⟩ := accepts_member hn hslen hs
          have hshort : t.length <
              (w₁ ++ c :: (w₂ ++ d :: (b ++ '"' :: (w₃ ++ ':' :: (w₄ ++ (v ++ t)))))).length := by
            simp only [List.length_append, List.length_cons]
            omega
          obtain ⟨r, t, rfl, ht, hr⟩ := ih _ hshort (Nat.lt_trans hshort hlen) ht rfl
          refine ⟨w₁ ++ ',' :: (w₂ ++ '"' :: (b ++ '"' :: (w₃ ++ ':' :: (w₄ ++ (v ++ r))))), t,
            by simp [hcomma, hquote], ht, ?_⟩
          intro w b₀ w' w'' v₀ hw hb₀ hw' hw'' hv₀
          have hcons := Members.cons (hmember hw hb₀ hw' hw'' hv₀)
            (hr w₂ b w₃ w₄ v hw₂ hb hw₃ hw₄ hv)
          simpa using hcons
        · cases hstep
      · split at hafter
        · rename_i hbrace
          obtain rfl := Option.some.inj hafter
          exact ⟨w₁, s, by rw [hbrace], hs, fun w b w' w'' v hw hb hw' hw'' hv =>
            .one (hmember hw hb hw' hw'' hv)⟩
        · cases hafter

/-- An array from behind its opening bracket. -/
theorem accepts_array {n : ℕ} (hn : Splits n) {k : List Frame} {s : List Char}
    (hlen : s.length < n) (hs : Accepts ⟨.elements, .array :: k⟩ s) :
    ∃ v t, '[' :: s = v ++ t ∧ Value v ∧ Accepts ⟨.after, k⟩ t := by
  obtain ⟨w, s, rfl, hw, hs, hhead⟩ := accepts_skip
    (fun c (hc : isWs c = true) =>
      show step ⟨.elements, .array :: k⟩ c = some ⟨.elements, .array :: k⟩ from if_pos hc) hs
  obtain ⟨c, s, q, rfl, hstep, hs⟩ := accepts_more hs (by simp [State.Ends])
  have hc := hhead c s rfl
  rw [step, hc, if_neg Bool.false_ne_true] at hstep
  split at hstep
  · rename_i hbracket
    obtain rfl := Option.some.inj hstep
    exact ⟨'[' :: (w ++ [']']), s, by simp [hbracket], .emptyArray hw, hs⟩
  · have hvalue : Accepts ⟨.value, .array :: k⟩ (c :: s) := by
      refine accepts_cons.mpr ⟨q, ?_, hs⟩
      rw [step, hc, if_neg Bool.false_ne_true, hstep]
    rw [List.length_append] at hlen
    obtain ⟨w₁, v, t, heq, hw₁, hv, ht⟩ := hn (by omega) hvalue
    have htlen : t.length < n := by
      have := congrArg List.length heq
      simp only [List.length_append] at this
      omega
    obtain ⟨r, t, rfl, ht, hr⟩ := accepts_elements hn htlen ht
    have hall : Ws (w ++ w₁) := by
      intro d hd
      exact (List.mem_append.mp hd).elim (hw d) (hw₁ d)
    refine ⟨'[' :: (((w ++ w₁) ++ (v ++ r)) ++ [']']), t, ?_, .array (hr _ v hall hv), ht⟩
    rw [heq]
    simp

/-- An object from behind its opening brace. -/
theorem accepts_object {n : ℕ} (hn : Splits n) {k : List Frame} {s : List Char}
    (hlen : s.length < n) (hs : Accepts ⟨.members, .object :: k⟩ s) :
    ∃ v t, '\x7b' :: s = v ++ t ∧ Value v ∧ Accepts ⟨.after, k⟩ t := by
  obtain ⟨w, s, rfl, hw, hs, hhead⟩ := accepts_skip
    (fun c (hc : isWs c = true) =>
      show step ⟨.members, .object :: k⟩ c = some ⟨.members, .object :: k⟩ from if_pos hc) hs
  obtain ⟨c, s, q, rfl, hstep, hs⟩ := accepts_more hs (by simp [State.Ends])
  rw [step, hhead c s rfl, if_neg Bool.false_ne_true] at hstep
  split at hstep
  · rename_i hbrace
    obtain rfl := Option.some.inj hstep
    exact ⟨'\x7b' :: (w ++ ['\x7d']), s, by simp [hbrace], .emptyObject hw, hs⟩
  · split at hstep
    · rename_i hquote
      obtain rfl := Option.some.inj hstep
      simp only [List.length_append, List.length_cons] at hlen
      obtain ⟨b, w₁, w₂, v, t, rfl, hb, hw₁, hw₂, hv, ht⟩ := accepts_member hn (by omega) hs
      simp only [List.length_append, List.length_cons] at hlen
      obtain ⟨r, t, rfl, ht, hr⟩ := accepts_members hn (by omega) ht
      refine ⟨'\x7b' :: ((w ++ '"' :: (b ++ '"' :: (w₁ ++ ':' :: (w₂ ++ (v ++ r))))) ++ ['\x7d']),
        t, by simp [hquote], .object (hr w b w₁ w₂ v hw hb hw₁ hw₂ hv), ht⟩
    · cases hstep

/-- A value from behind its first character. -/
theorem accepts_start {n : ℕ} (hn : Splits n) {k : List Frame} {c : Char} {s : List Char}
    (hlen : s.length < n) {q : State} (hstart : startValue k c = some q) (hs : Accepts q s) :
    ∃ v t, c :: s = v ++ t ∧ Value v ∧ Accepts ⟨.after, k⟩ t := by
  rw [startValue] at hstart
  split at hstart
  · rename_i hc
    obtain rfl := Option.some.inj hstart
    obtain ⟨b, t, rfl, hb, ht⟩ := accepts_chars hs
    exact ⟨'"' :: (b ++ ['"']), t, by simp [hc], .string (.mk hb), ht⟩
  split at hstart
  · rename_i hc
    obtain rfl := Option.some.inj hstart
    rw [hc]
    exact accepts_array hn hlen hs
  split at hstart
  · rename_i hc
    obtain rfl := Option.some.inj hstart
    rw [hc]
    exact accepts_object hn hlen hs
  split at hstart
  · rename_i hc
    obtain rfl := Option.some.inj hstart
    obtain ⟨u, t, rfl, hu, ht⟩ := accepts_minus hs
    exact ⟨'-' :: u, t, by rw [hc]; rfl, .number (.minus hu), ht⟩
  split at hstart
  · rename_i hc
    obtain rfl := Option.some.inj hstart
    obtain ⟨u, t, heq, hu, ht⟩ := accepts_zero_unsigned hs
    exact ⟨u, t, by rw [hc, heq], .number (.plus hu), ht⟩
  rename_i hzero
  split at hstart
  · rename_i hc
    obtain rfl := Option.some.inj hstart
    obtain ⟨u, t, heq, hu, ht⟩ := accepts_int_unsigned hc hzero hs
    exact ⟨u, t, heq, .number (.plus hu), ht⟩
  split at hstart
  · rename_i hc
    obtain rfl := Option.some.inj hstart
    obtain ⟨t, rfl, ht⟩ := accepts_literal hs
    exact ⟨_, t, by rw [hc]; rfl, .litNull, ht⟩
  split at hstart
  · rename_i hc
    obtain rfl := Option.some.inj hstart
    obtain ⟨t, rfl, ht⟩ := accepts_literal hs
    exact ⟨_, t, by rw [hc]; rfl, .litTrue, ht⟩
  split at hstart
  · rename_i hc
    obtain rfl := Option.some.inj hstart
    obtain ⟨t, rfl, ht⟩ := accepts_literal hs
    exact ⟨_, t, by rw [hc]; rfl, .litFalse, ht⟩
  · cases hstart

theorem splits (n : ℕ) : Splits n := by
  induction n with
  | zero => exact fun hlen => absurd hlen (Nat.not_lt_zero _)
  | succ n ih =>
      intro s hlen k hs
      obtain ⟨w, s, rfl, hw, hs, hhead⟩ := accepts_skip
        (fun c (hc : isWs c = true) =>
          show step ⟨.value, k⟩ c = some ⟨.value, k⟩ from if_pos hc) hs
      obtain ⟨c, s, q, rfl, hstep, hs⟩ := accepts_more hs (by simp [State.Ends])
      rw [step, hhead c s rfl, if_neg Bool.false_ne_true] at hstep
      simp only [List.length_append, List.length_cons] at hlen
      obtain ⟨v, t, heq, hv, ht⟩ := accepts_start ih (by omega) hstep hs
      exact ⟨w, v, t, by rw [heq], hw, hv, ht⟩

/-- After the outermost value there is only white space. -/
theorem accepts_end {s : List Char} (hs : Accepts ⟨.after, []⟩ s) : Ws s := by
  induction s with
  | nil => intro c hc; cases hc
  | cons d s ih =>
      obtain ⟨q, hstep, hs⟩ := accepts_cons.mp hs
      rw [step, afterValue] at hstep
      split at hstep
      · obtain rfl := Option.some.inj hstep
        intro c hc
        rcases List.mem_cons.mp hc with rfl | hc
        · assumption
        · exact ih hs c hc
      · cases hstep

/-- The machine accepts the JSON texts and no others. -/
theorem accepts_iff {s : List Char} : Accepts ⟨.value, []⟩ s ↔ Text s := by
  constructor
  · intro hs
    obtain ⟨w, v, t, rfl, hw, hv, ht⟩ := splits _ (Nat.lt_succ_self _) hs
    exact .mk hw hv (accepts_end ht)
  · exact Text.accepts

end Json
