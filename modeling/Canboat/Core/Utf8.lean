import Canboat.Core.Str
import Mathlib.Data.List.Induction

/-!
# Text and its bytes

The bytes of text are read as the text, and none of them pads it where no character does.
-/

namespace Canboat

/-! ## Sequences -/

theorem utf8LossyFrom_last {p : Utf8Pending} (hneeded : p.needed = 1) {b : UInt8}
    (hlo : p.lower.toNat ≤ b.toNat) (hhi : b.toNat ≤ p.upper.toNat) (bytes : List UInt8) :
    utf8LossyFrom (some p) (b :: bytes) =
      Char.ofNat (p.code * 64 + (b.toNat - 128)) :: utf8LossyFrom none bytes := by
  have hin : p.lower ≤ b ∧ b ≤ p.upper :=
    ⟨UInt8.le_iff_toNat_le.mpr hlo, UInt8.le_iff_toNat_le.mpr hhi⟩
  have hnext : utf8Next p b = ([Char.ofNat (p.code * 64 + (b.toNat - 128))], none) := by
    rw [utf8Next, if_pos hin, if_pos hneeded]
  rw [utf8LossyFrom, hnext]
  rfl

theorem utf8LossyFrom_next {p : Utf8Pending} (hneeded : p.needed ≠ 1) {b : UInt8}
    (hlo : p.lower.toNat ≤ b.toNat) (hhi : b.toNat ≤ p.upper.toNat) (bytes : List UInt8) :
    utf8LossyFrom (some p) (b :: bytes) =
      utf8LossyFrom (some ⟨p.code * 64 + (b.toNat - 128), p.needed - 1, 0x80, 0xbf⟩) bytes := by
  have hin : p.lower ≤ b ∧ b ≤ p.upper :=
    ⟨UInt8.le_iff_toNat_le.mpr hlo, UInt8.le_iff_toNat_le.mpr hhi⟩
  have hnext : utf8Next p b =
      ([], some ⟨p.code * 64 + (b.toNat - 128), p.needed - 1, 0x80, 0xbf⟩) := by
    rw [utf8Next, if_pos hin, if_neg hneeded]
  rw [utf8LossyFrom, hnext]
  rfl

theorem utf8LossyFrom_first {b : UInt8} {p : Utf8Pending} (h : utf8First b = ([], some p))
    (bytes : List UInt8) :
    utf8LossyFrom none (b :: bytes) = utf8LossyFrom (some p) bytes := by
  rw [utf8LossyFrom, h]
  rfl

theorem utf8First_two {b : UInt8} (hlo : 194 ≤ b.toNat) (hhi : b.toNat ≤ 223) :
    utf8First b = ([], some ⟨b.toNat - 192, 1, 0x80, 0xbf⟩) := by
  have hb : ¬b < 0x80 ∧ (0xc2 ≤ b ∧ b ≤ 0xdf) := by
    simp only [UInt8.lt_iff_toNat_lt, UInt8.le_iff_toNat_le, UInt8.reduceToNat]
    omega
  rw [utf8First, if_neg hb.1, if_pos hb.2]

/-- The second byte of three is bounded so that no shorter sequence and no surrogate is meant. -/
theorem utf8First_three {b : UInt8} (hlo : 224 ≤ b.toNat) (hhi : b.toNat ≤ 239) :
    ∃ lower upper : UInt8, utf8First b = ([], some ⟨b.toNat - 224, 2, lower, upper⟩) ∧
      lower.toNat = (if b.toNat = 224 then 160 else 128) ∧
      upper.toNat = (if b.toNat = 237 then 159 else 191) := by
  rw [utf8First]
  simp only [UInt8.lt_iff_toNat_lt, UInt8.le_iff_toNat_le, ← UInt8.toNat_inj, UInt8.reduceToNat]
  rw [if_neg (by omega), if_neg (by omega)]
  by_cases h224 : b.toNat = 224
  · rw [h224]
    exact ⟨0xa0, 0xbf, rfl, rfl, rfl⟩
  rw [if_neg h224, if_neg h224]
  by_cases h237 : b.toNat = 237
  · rw [h237]
    exact ⟨0x80, 0x9f, rfl, rfl, rfl⟩
  · rw [if_neg h237, if_neg h237, if_pos (by omega)]
    exact ⟨0x80, 0xbf, rfl, rfl, rfl⟩

theorem utf8First_four {b : UInt8} (hlo : 240 ≤ b.toNat) (hhi : b.toNat ≤ 244) :
    ∃ lower upper : UInt8, utf8First b = ([], some ⟨b.toNat - 240, 3, lower, upper⟩) ∧
      lower.toNat = (if b.toNat = 240 then 144 else 128) ∧
      upper.toNat = (if b.toNat = 244 then 143 else 191) := by
  rw [utf8First]
  simp only [UInt8.lt_iff_toNat_lt, UInt8.le_iff_toNat_le, ← UInt8.toNat_inj, UInt8.reduceToNat]
  rw [if_neg (by omega), if_neg (by omega), if_neg (by omega), if_neg (by omega), if_neg (by omega)]
  by_cases h240 : b.toNat = 240
  · rw [h240]
    exact ⟨0x90, 0xbf, rfl, rfl, rfl⟩
  rw [if_neg h240, if_neg h240]
  by_cases h244 : b.toNat = 244
  · rw [h244]
    exact ⟨0x80, 0x8f, rfl, rfl, rfl⟩
  · rw [if_neg h244, if_pos (by omega)]
    exact ⟨0x80, 0xbf, rfl, rfl, (if_neg h244).symm⟩

/-- The numbers that are characters. -/
theorem toNat_char (c : Char) : c.toNat < 0xd800 ∨ 0xdfff < c.toNat ∧ c.toNat < 0x110000 :=
  c.valid

/-- One character out of its bytes, whatever follows. -/
theorem utf8LossyFrom_encode (c : Char) (bytes : List UInt8) :
    utf8LossyFrom none (String.utf8EncodeChar c ++ bytes) = c :: utf8LossyFrom none bytes := by
  have hvalid := toNat_char c
  have hval : c.val.toNat = c.toNat := rfl
  have hbyte : ∀ n < 256, (UInt8.ofNat n).toNat = n := by
    intro n hn
    rw [UInt8.toNat_ofNat', Nat.mod_eq_of_lt hn]
  have hchar : ∀ n, n = c.toNat → Char.ofNat n = c := by
    rintro n rfl
    exact Char.ofNat_toNat c
  rw [String.utf8EncodeChar]
  simp only [hval]
  split_ifs with hone htwo hthree
  · have hfirst : utf8First (UInt8.ofNat c.toNat) = ([c], none) := by
      have hlt : UInt8.ofNat c.toNat < 0x80 := by
        rw [UInt8.lt_iff_toNat_lt, hbyte _ (by omega)]
        exact Nat.lt_succ_of_le hone
      rw [utf8First, if_pos hlt, hbyte _ (by omega), Char.ofNat_toNat]
    rw [List.singleton_append, utf8LossyFrom, hfirst]
    rfl
  · have h₀ := hbyte (c.toNat / 64 % 32 + 192) (by omega)
    have h₁ := hbyte (c.toNat % 64 + 128) (by omega)
    rw [List.cons_append, List.singleton_append,
      utf8LossyFrom_first (utf8First_two (by omega) (by omega)),
      utf8LossyFrom_last rfl (by rw [h₁]; exact Nat.le_add_left _ _)
        (by rw [h₁]; show _ ≤ 191; omega), h₀, h₁, hchar _ (by dsimp only; omega)]
  · have h₀ := hbyte (c.toNat / 4096 % 16 + 224) (by omega)
    have h₁ := hbyte (c.toNat / 64 % 64 + 128) (by omega)
    have h₂ := hbyte (c.toNat % 64 + 128) (by omega)
    obtain ⟨lower, upper, hfirst, hlower, hupper⟩ :=
      utf8First_three (b := UInt8.ofNat (c.toNat / 4096 % 16 + 224)) (by omega) (by omega)
    rw [h₀] at hlower hupper
    rw [List.cons_append, List.cons_append, List.singleton_append, utf8LossyFrom_first hfirst,
      utf8LossyFrom_next (by simp) (by rw [h₁, hlower]; split_ifs <;> omega)
        (by rw [h₁, hupper]; split_ifs <;> omega),
      utf8LossyFrom_last rfl (by rw [h₂]; exact Nat.le_add_left _ _)
        (by rw [h₂]; show _ ≤ 191; omega), h₀, h₁, h₂, hchar _ (by dsimp only; omega)]
  · have h₀ := hbyte (c.toNat / 262144 % 8 + 240) (by omega)
    have h₁ := hbyte (c.toNat / 4096 % 64 + 128) (by omega)
    have h₂ := hbyte (c.toNat / 64 % 64 + 128) (by omega)
    have h₃ := hbyte (c.toNat % 64 + 128) (by omega)
    obtain ⟨lower, upper, hfirst, hlower, hupper⟩ :=
      utf8First_four (b := UInt8.ofNat (c.toNat / 262144 % 8 + 240)) (by omega) (by omega)
    rw [h₀] at hlower hupper
    rw [List.cons_append, List.cons_append, List.cons_append, List.singleton_append,
      utf8LossyFrom_first hfirst,
      utf8LossyFrom_next (by simp) (by rw [h₁, hlower]; split_ifs <;> omega)
        (by rw [h₁, hupper]; split_ifs <;> omega),
      utf8LossyFrom_next (by simp) (by rw [h₂]; exact Nat.le_add_left _ _)
        (by rw [h₂]; show _ ≤ 191; omega),
      utf8LossyFrom_last rfl (by rw [h₃]; exact Nat.le_add_left _ _)
        (by rw [h₃]; show _ ≤ 191; omega), h₀, h₁, h₂, h₃, hchar _ (by dsimp only; omega)]

/-- **Text comes back from its bytes.** -/
theorem fromUtf8Lossy_utf8Bytes (s : List Char) : fromUtf8Lossy (utf8Bytes s) = s := by
  rw [fromUtf8Lossy]
  induction s with
  | nil => rfl
  | cons c s ih =>
      rw [utf8Bytes, List.flatMap_cons, utf8LossyFrom_encode]
      exact congrArg (c :: ·) ih

/-! ## Bytes that look like padding -/

/-- The last byte of a character pads only where the character does. -/
theorem isPaddingByte_of_getLast {c : Char} {b : UInt8}
    (hb : (String.utf8EncodeChar c).getLast? = some b) (hpad : isPaddingByte b = true) :
    c = '\x00' ∨ c = '@' ∨ c = ' ' := by
  have hval : c.val.toNat = c.toNat := rfl
  have hcases : b.toNat = 255 ∨ b.toNat = 0 ∨ b.toNat = 64 ∨ b.toNat = 32 := by
    simp only [isPaddingByte, Bool.or_eq_true, beq_iff_eq] at hpad
    rcases hpad with ((rfl | rfl) | rfl) | rfl
    · exact .inl rfl
    · exact .inr (.inl rfl)
    · exact .inr (.inr (.inl rfl))
    · exact .inr (.inr (.inr rfl))
  have hbyte : ∀ n < 256, b = UInt8.ofNat n → b.toNat = n := by
    rintro n hn rfl
    rw [UInt8.toNat_ofNat', Nat.mod_eq_of_lt hn]
  rw [String.utf8EncodeChar] at hb
  simp only [hval] at hb
  have hc : ∀ d : Char, c.toNat = d.toNat → c = d := fun d h => Char.toNat_inj.mp h
  split_ifs at hb with hone
  · have h := hbyte c.toNat (by omega) (Option.some.inj hb).symm
    rcases hcases with hn | hn | hn | hn
    · omega
    · exact .inl (hc '\x00' (h.symm.trans hn))
    · exact .inr (.inl (hc '@' (h.symm.trans hn)))
    · exact .inr (.inr (hc ' ' (h.symm.trans hn)))
  -- a byte that goes on with a sequence is none of the four
  all_goals
    have h := hbyte (c.toNat % 64 + 128) (by omega) (Option.some.inj hb).symm
    omega

theorem zero_not_mem_encode {c : Char} (hc : c ≠ '\x00') : 0 ∉ String.utf8EncodeChar c := by
  have hval : c.val.toNat = c.toNat := rfl
  have hpos : c.toNat ≠ 0 := fun h => hc (Char.toNat_inj.mp h)
  have hbyte : ∀ n, 0 < n → n < 256 → (0 : UInt8) ≠ UInt8.ofNat n := by
    intro n hn hlt heq
    have h := congrArg UInt8.toNat heq
    rw [UInt8.toNat_ofNat', Nat.mod_eq_of_lt hlt, UInt8.toNat_zero] at h
    omega
  rw [String.utf8EncodeChar]
  simp only [hval]
  split_ifs <;> simp only [List.mem_cons, List.not_mem_nil, or_false, not_or]
  · exact hbyte _ (by omega) (by omega)
  · exact ⟨hbyte _ (by omega) (by omega), hbyte _ (by omega) (by omega)⟩
  · exact ⟨hbyte _ (by omega) (by omega), hbyte _ (by omega) (by omega),
      hbyte _ (by omega) (by omega)⟩
  · exact ⟨hbyte _ (by omega) (by omega), hbyte _ (by omega) (by omega),
      hbyte _ (by omega) (by omega), hbyte _ (by omega) (by omega)⟩

theorem zero_not_mem_utf8Bytes {s : List Char} (hs : '\x00' ∉ s) : 0 ∉ utf8Bytes s := by
  intro h
  obtain ⟨c, hc, h⟩ := List.mem_flatMap.mp h
  refine zero_not_mem_encode ?_ h
  rintro rfl
  exact hs hc

theorem trimEnd_concat_of_pos {α : Type} {p : α → Bool} {a : α} (ha : p a = true) (l : List α) :
    trimEnd p (l ++ [a]) = trimEnd p l := by
  rw [trimEnd, List.reverse_append, List.reverse_singleton, List.singleton_append,
    List.dropWhile_cons_of_pos ha, trimEnd]

theorem trimEnd_concat_of_neg {α : Type} {p : α → Bool} {a : α} (ha : ¬p a = true) (l : List α) :
    trimEnd p (l ++ [a]) = l ++ [a] := by
  rw [trimEnd, List.reverse_append, List.reverse_singleton, List.singleton_append,
    List.dropWhile_cons_of_neg ha, List.reverse_cons, List.reverse_reverse]

theorem length_trimEnd_le {α : Type} (p : α → Bool) (l : List α) : (trimEnd p l).length ≤ l.length := by
  rw [trimEnd, List.length_reverse]
  exact le_trans (List.dropWhile_suffix p).length_le (Nat.le_of_eq List.length_reverse)

/-- The bytes of text end in padding only where the text does. -/
theorem trimEnd_utf8Bytes {s : List Char} (hs : ∀ c ∈ s.getLast?, c ≠ '\x00' ∧ c ≠ '@' ∧ c ≠ ' ') :
    trimEnd isPaddingByte (utf8Bytes s) = utf8Bytes s := by
  induction s using List.reverseRecOn with
  | nil => rfl
  | append_singleton s c ih =>
      have hc := hs c (by rw [List.getLast?_concat]; rfl)
      have hne : String.utf8EncodeChar c ≠ [] := String.utf8EncodeChar_ne_nil
      have hbytes : utf8Bytes (s ++ [c]) = utf8Bytes s ++ String.utf8EncodeChar c := by
        rw [utf8Bytes, List.flatMap_append, List.flatMap_singleton]
        rfl
      obtain ⟨init, b, hsplit⟩ : ∃ init b, String.utf8EncodeChar c = init ++ [b] :=
        ⟨_, _, (List.dropLast_concat_getLast hne).symm⟩
      have hpad : ¬isPaddingByte b = true := by
        intro hpad
        have hlast : (String.utf8EncodeChar c).getLast? = some b := by
          rw [hsplit, List.getLast?_concat]
        rcases isPaddingByte_of_getLast hlast hpad with h | h | h
        · exact hc.1 h
        · exact hc.2.1 h
        · exact hc.2.2 h
      rw [hbytes, hsplit, ← List.append_assoc, trimEnd_concat_of_neg hpad]

/-! ## Bytes that come in pieces -/

/-- The sequence that the bytes end in, if they end in one. -/
def utf8After : Option Utf8Pending → List UInt8 → Option Utf8Pending
  | p, [] => p
  | none, b :: bytes => utf8After (utf8First b).2 bytes
  | some p, b :: bytes => utf8After (utf8Next p b).2 bytes

/-- The byte is one that the sequence can go on with. -/
def Utf8Pending.GoesOn (p : Utf8Pending) (b : UInt8) : Prop := p.lower ≤ b ∧ b ≤ p.upper

instance (p : Utf8Pending) (b : UInt8) : Decidable (p.GoesOn b) :=
  inferInstanceAs (Decidable (p.lower ≤ b ∧ b ≤ p.upper))

/-- The next bytes go on with a sequence that the first ones end in. -/
def CutsSequence (bytes next : List UInt8) : Prop :=
  ∃ p ∈ utf8After none bytes, ∃ b ∈ next.head?, p.GoesOn b

instance (bytes next : List UInt8) : Decidable (CutsSequence bytes next) :=
  decidable_of_iff
    ((utf8After none bytes).any (fun p => next.head?.any fun b => decide (p.GoesOn b)) = true) <| by
    simp only [CutsSequence, Option.any_eq_true, decide_eq_true_eq, Option.mem_def]

/-- No piece ends in a sequence that the bytes after it go on with. -/
def WholeSequences : List (List UInt8) → Prop
  | [] => True
  | piece :: pieces => ¬CutsSequence piece pieces.flatten ∧ WholeSequences pieces

instance decidableWholeSequences : (pieces : List (List UInt8)) → Decidable (WholeSequences pieces)
  | [] => inferInstanceAs (Decidable True)
  | piece :: pieces =>
      have := decidableWholeSequences pieces
      inferInstanceAs (Decidable (¬CutsSequence piece pieces.flatten ∧ WholeSequences pieces))

/-- What a sequence gives that is not gone on with. -/
def utf8Broken (p : Option Utf8Pending) : List Char := (p.map fun _ => replacementChar).toList

theorem utf8LossyFrom_broken {p : Option Utf8Pending} {bytes : List UInt8}
    (h : ∀ q ∈ p, ∀ b ∈ bytes.head?, ¬q.GoesOn b) :
    utf8LossyFrom p bytes = utf8Broken p ++ fromUtf8Lossy bytes := by
  cases p with
  | none => rfl
  | some p =>
      cases bytes with
      | nil => rfl
      | cons b bytes =>
          have hnext : utf8Next p b = (replacementChar :: (utf8First b).1, (utf8First b).2) :=
            if_neg (h p rfl b rfl)
          rw [utf8LossyFrom, hnext, fromUtf8Lossy, utf8LossyFrom]
          rfl

/-- What the bytes give for certain, before what the sequence at their end gives. -/
theorem utf8LossyFrom_append (p : Option Utf8Pending) (bytes : List UInt8) :
    ∃ text, ∀ next, utf8LossyFrom p (bytes ++ next) =
      text ++ utf8LossyFrom (utf8After p bytes) next := by
  induction bytes generalizing p with
  | nil =>
      refine ⟨[], fun next => ?_⟩
      cases p <;> rfl
  | cons b bytes ih =>
      cases p with
      | none =>
          obtain ⟨text, htext⟩ := ih (utf8First b).2
          refine ⟨(utf8First b).1 ++ text, fun next => ?_⟩
          rw [List.cons_append, utf8LossyFrom, htext, List.append_assoc]
          rfl
      | some p =>
          obtain ⟨text, htext⟩ := ih (utf8Next p b).2
          refine ⟨(utf8Next p b).1 ++ text, fun next => ?_⟩
          rw [List.cons_append, utf8LossyFrom, htext, List.append_assoc]
          rfl

/-- Two pieces are read as the text of one, unless a sequence is cut. -/
theorem fromUtf8Lossy_append {bytes next : List UInt8} (h : ¬CutsSequence bytes next) :
    fromUtf8Lossy (bytes ++ next) = fromUtf8Lossy bytes ++ fromUtf8Lossy next := by
  obtain ⟨text, htext⟩ := utf8LossyFrom_append none bytes
  have hbytes : fromUtf8Lossy bytes = text ++ utf8Broken (utf8After none bytes) := by
    have hnil := htext []
    rw [List.append_nil] at hnil
    rw [fromUtf8Lossy, hnil]
    cases utf8After none bytes <;> rfl
  have hnext : utf8LossyFrom (utf8After none bytes) next =
      utf8Broken (utf8After none bytes) ++ fromUtf8Lossy next :=
    utf8LossyFrom_broken fun p hp b hb hon => h ⟨p, hp, b, hb, hon⟩
  rw [hbytes, fromUtf8Lossy, htext, hnext, List.append_assoc]

/-- **The text of the stream.** Pieces that cut no sequence give the text of the whole. -/
theorem flatMap_fromUtf8Lossy {pieces : List (List UInt8)} (h : WholeSequences pieces) :
    pieces.flatMap fromUtf8Lossy = fromUtf8Lossy pieces.flatten := by
  induction pieces with
  | nil => rfl
  | cons piece pieces ih =>
      rw [List.flatMap_cons, List.flatten_cons, fromUtf8Lossy_append h.1, ih h.2]

end Canboat
