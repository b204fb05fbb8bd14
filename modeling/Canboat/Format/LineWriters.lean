import Canboat.Format.Lines
import Canboat.Format.PlainWriter
import Mathlib.Data.List.Forall2

/-!
# Writing lines of other gateways

The YDWG-02 and the Actisense N2K ASCII writer, and what the parsers find in the numbers and in
the tokens that they write.
-/

namespace Canboat

open Checked

/-! ## The time of day -/

def midnight : List Char := "00:00:00.000".toList

/-- `time_of_day`, with a slice that may fall between the bytes of a character. -/
def timeOfDay (ts : Option (List Char)) : Except Fault (List Char) :=
  match ts with
  | none => .ok midnight
  | some raw =>
      let s := normalizeTimestamp raw
      let b := utf8Bytes s
      if b.length = 24 ∧ b[10]? = some 0x54 then sliceText s 11 23
      else if b.length = 12 ∧ b[2]? = some 0x3a then .ok s
      else .ok midnight

/-! ## Hexadecimal numbers -/

/-- `{:X}`. -/
def upperHex (n : ℕ) : List Char := toAsciiUppercase (Nat.toDigits 16 n)

/-- `{:0width$X}`. -/
def paddedHex (width n : ℕ) : List Char :=
  List.replicate (width - (upperHex n).length) '0' ++ upperHex n

/-! ## The lines -/

namespace Ydwg02

def writeLine (f : RawFrame) : Except Fault (List Char) := do
  let canid := iso11783Compose f.prio f.pgn f.src f.dst
  let tod ← timeOfDay (f.timestamp.map (·.toList))
  pure (tod ++ ' ' :: 'R' :: ' ' :: (paddedHex 8 canid.toNat ++
    f.data.flatMap fun b => ' ' :: paddedHex 2 b.toNat))

end Ydwg02

namespace ActisenseAscii

def writeLine (f : RawFrame) : Except Fault (List Char) := do
  let tod ← timeOfDay (f.timestamp.map (·.toList))
  -- the time has no colons here
  let tod := tod.filter (· ≠ ':')
  let sdp := (f.src.toUInt32 <<< 12) ||| (f.dst.toUInt32 <<< 4) ||| f.prio.toUInt32
  pure ('A' :: (tod ++ ' ' :: (upperHex sdp.toNat ++ ' ' :: (upperHex f.pgn.toNat ++
    if f.data = [] then [] else ' ' :: f.data.flatMap fun b => paddedHex 2 b.toNat))))

end ActisenseAscii

/-! ## Digits that are read back -/

/-- A digit that `upperHex` writes. -/
def IsUpperHex (c : Char) : Prop := ∃ n < 16, c = (toAsciiUppercase [Nat.digitChar n]).headD '0'

theorem toAsciiUppercase_digitChar :
    ∀ n < 16, toAsciiUppercase [Nat.digitChar n] =
      [(toAsciiUppercase [Nat.digitChar n]).headD '0'] ∧
      hexValue ((toAsciiUppercase [Nat.digitChar n]).headD '0') = some n := by decide

theorem IsUpperHex.spec {c : Char} (hc : IsUpperHex c) :
    c ≠ '+' ∧ isWhitespace c = false ∧ Plain.Ascii c ∧ c ≠ 'R' := by
  obtain ⟨n, hn, rfl⟩ := hc
  have hall : ∀ n < 16, (toAsciiUppercase [Nat.digitChar n]).headD '0' ≠ '+' ∧
      isWhitespace ((toAsciiUppercase [Nat.digitChar n]).headD '0') = false ∧
      ((toAsciiUppercase [Nat.digitChar n]).headD '0').toNat < 128 ∧
      (toAsciiUppercase [Nat.digitChar n]).headD '0' ≠ 'R' := by decide
  exact hall n hn

theorem parseHexDigits_append (acc : ℕ) (a b : List Char) :
    parseHexDigits acc (a ++ b) = (parseHexDigits acc a).bind fun acc => parseHexDigits acc b := by
  induction a generalizing acc with
  | nil => rfl
  | cons c a ih =>
      rw [List.cons_append, parseHexDigits, parseHexDigits]
      cases hexValue c with
      | none => rfl
      | some d => exact ih (16 * acc + d)

theorem upperHex_eq (n : ℕ) :
    upperHex n = if n < 16 then [(toAsciiUppercase [Nat.digitChar n]).headD '0']
      else upperHex (n / 16) ++ [(toAsciiUppercase [Nat.digitChar (n % 16)]).headD '0'] := by
  rw [upperHex, Nat.toDigits_eq_if (by decide)]
  split_ifs with hn
  · exact (toAsciiUppercase_digitChar n hn).1
  · have hlast := (toAsciiUppercase_digitChar (n % 16) (Nat.mod_lt n (by decide))).1
    rw [toAsciiUppercase, List.map_append, upperHex, ← hlast]
    rfl

/-- The text of a number is read as that number. -/
theorem parseHexDigits_upperHex (n : ℕ) :
    parseHexDigits 0 (upperHex n) = some n ∧ upperHex n ≠ [] ∧ ∀ c ∈ upperHex n, IsUpperHex c := by
  induction n using Nat.strongRecOn with
  | ind n ih =>
      rw [upperHex_eq]
      split_ifs with hn
      · refine ⟨?_, List.cons_ne_nil _ _, ?_⟩
        · rw [parseHexDigits, (toAsciiUppercase_digitChar n hn).2]
          exact congrArg some (by omega)
        · intro c hc
          exact ⟨n, hn, List.mem_singleton.mp hc⟩
      · have hmod : n % 16 < 16 := Nat.mod_lt n (by decide)
        obtain ⟨hvalue, hne, hhex⟩ := ih (n / 16) (by omega)
        refine ⟨?_, List.append_ne_nil_of_left_ne_nil hne _, ?_⟩
        · rw [parseHexDigits_append, hvalue, Option.bind_some, parseHexDigits,
            (toAsciiUppercase_digitChar _ hmod).2]
          exact congrArg some (Nat.div_add_mod n 16)
        · intro c hc
          rcases List.mem_append.mp hc with hc | hc
          · exact hhex c hc
          · exact ⟨n % 16, hmod, List.mem_singleton.mp hc⟩

theorem paddedHex_ne_nil (width n : ℕ) : paddedHex width n ≠ [] :=
  List.append_ne_nil_of_right_ne_nil _ (parseHexDigits_upperHex n).2.1

theorem isUpperHex_of_mem {width n : ℕ} {c : Char} (hc : c ∈ paddedHex width n) : IsUpperHex c := by
  rcases List.mem_append.mp hc with hc | hc
  · exact ⟨0, by decide, List.eq_of_mem_replicate hc⟩
  · exact (parseHexDigits_upperHex n).2.2 c hc

theorem parseHex_paddedHex (width : ℕ) {max n : ℕ} (hn : n ≤ max) :
    parseHex max (paddedHex width n) = some n := by
  have hzeros : ∀ (k : ℕ) (s : List Char),
      parseHexDigits 0 (List.replicate k '0' ++ s) = parseHexDigits 0 s := by
    intro k s
    induction k with
    | zero => rfl
    | succ k ih =>
        rw [List.replicate_succ, List.cons_append, parseHexDigits]
        exact ih
  have hvalue : parseHexDigits 0 (paddedHex width n) = some n := by
    rw [paddedHex, hzeros]
    exact (parseHexDigits_upperHex n).1
  obtain ⟨c, s, hs⟩ := List.exists_cons_of_ne_nil (paddedHex_ne_nil width n)
  have hplus : c ≠ '+' := (@isUpperHex_of_mem width n c (hs ▸ List.mem_cons_self)).spec.1
  rw [hs] at hvalue ⊢
  rw [parseHex, if_neg (List.cons_ne_nil c s), hvalue]
  · exact Option.filter_some_pos (decide_eq_true hn)
  · rintro t ⟨⟩
    exact hplus rfl

theorem paddedHex_zero (n : ℕ) : paddedHex 0 n = upperHex n := by
  rw [paddedHex, Nat.zero_sub]
  rfl

theorem parseHex_upperHex {max n : ℕ} (hn : n ≤ max) : parseHex max (upperHex n) = some n := by
  rw [← paddedHex_zero]
  exact parseHex_paddedHex 0 hn

/-- A byte is two digits. -/
theorem length_paddedHex_two {n : ℕ} (hn : n < 256) : (paddedHex 2 n).length = 2 := by
  have hle : (upperHex n).length ≤ 2 := by
    rw [upperHex, toAsciiUppercase, List.length_map]
    exact (Nat.length_toDigits_le_iff (by decide) (by decide)).mpr hn
  rw [paddedHex, List.length_append, List.length_replicate, Nat.sub_add_cancel hle]

/-! ## Tokens -/

/-- Text that is not parted by blanks. -/
def IsToken (t : List Char) : Prop := t ≠ [] ∧ ∀ c ∈ t, isWhitespace c = false

theorem isToken_paddedHex (width n : ℕ) : IsToken (paddedHex width n) :=
  ⟨paddedHex_ne_nil width n, fun _ hc => (isUpperHex_of_mem hc).spec.2.1⟩

theorem splitWhitespace_token {t : List Char} (h : IsToken t) : splitWhitespace t = [t] := by
  rw [splitWhitespace, List.splitOnP_eq_singleton h.2]
  exact List.filter_cons_of_pos (decide_eq_true h.1)

theorem splitWhitespace_append (a b : List Char) :
    splitWhitespace (a ++ ' ' :: b) = splitWhitespace a ++ splitWhitespace b := by
  have hblank : isWhitespace ' ' = true := by decide
  rw [splitWhitespace, List.splitOnP_append_cons a b hblank, List.filter_append]
  rfl

theorem splitWhitespace_flatMap {α : Type} {g : α → List Char} (hg : ∀ b, IsToken (g b))
    (a : List Char) (l : List α) :
    splitWhitespace (a ++ l.flatMap fun b => ' ' :: g b) = splitWhitespace a ++ l.map g := by
  induction l generalizing a with
  | nil => rw [List.flatMap_nil, List.append_nil, List.map_nil, List.append_nil]
  | cons b l ih =>
      rw [List.flatMap_cons, List.cons_append, splitWhitespace_append, ih (g b),
        splitWhitespace_token (hg b)]
      rfl

theorem of_mem_splitOnP {p : Char → Bool} {s t : List Char} (h : t ∈ s.splitOnP p) :
    (∀ c ∈ t, p c = false) ∧ t.length ≤ s.length := by
  induction s generalizing t with
  | nil =>
      rw [List.splitOnP_nil, List.mem_singleton] at h
      rw [h]
      exact ⟨nofun, Nat.le_refl 0⟩
  | cons c s ih =>
      rw [List.splitOnP_cons_eq_if_modifyHead] at h
      split_ifs at h with hc
      · rcases List.mem_cons.mp h with rfl | h
        · exact ⟨nofun, Nat.zero_le _⟩
        · obtain ⟨hall, hle⟩ := ih h
          exact ⟨hall, Nat.le_succ_of_le hle⟩
      · obtain ⟨x, l, hl⟩ := List.exists_cons_of_ne_nil (List.splitOnP_ne_nil p s)
        rw [hl, List.modifyHead_cons] at h
        rcases List.mem_cons.mp h with rfl | h
        · obtain ⟨hall, hle⟩ := ih (hl ▸ List.mem_cons_self)
          refine ⟨?_, Nat.succ_le_succ hle⟩
          intro d hd
          rcases List.mem_cons.mp hd with rfl | hd
          · exact Bool.eq_false_iff.mpr hc
          · exact hall d hd
        · obtain ⟨hall, hle⟩ := ih (hl ▸ List.mem_cons_of_mem x h)
          exact ⟨hall, Nat.le_succ_of_le hle⟩

/-- A part between two blanks has no blank in it. -/
theorem isToken_of_mem {s t : List Char} (ht : t ∈ splitWhitespace s) :
    IsToken t ∧ t.length ≤ s.length := by
  obtain ⟨hmem, hne⟩ := List.mem_filter.mp ht
  obtain ⟨hall, hle⟩ := of_mem_splitOnP hmem
  exact ⟨⟨of_decide_eq_true hne, hall⟩, hle⟩

theorem trimNewlines_append {a b : List Char} (hne : b ≠ [])
    (hb : ∀ c ∈ b, c ≠ '\r' ∧ c ≠ '\n') : trimNewlines (a ++ b) = a ++ b := by
  obtain ⟨s, c, rfl⟩ : ∃ s c, b = s ++ [c] :=
    ⟨b.dropLast, b.getLast hne, (List.dropLast_append_getLast hne).symm⟩
  obtain ⟨hr, hn⟩ := hb c (List.mem_append_right _ List.mem_cons_self)
  rw [trimNewlines, trimEnd, ← List.append_assoc, List.reverse_append, List.reverse_singleton,
    List.singleton_append, List.dropWhile_cons_of_neg, List.reverse_cons, List.reverse_reverse]
  simp [hr, hn]

/-! ## Payloads that are read back -/

variable {ε α β : Type}

/-- What each step adds, the run adds. -/
theorem length_of_foldlM {f : List β → α → Checked ε (List β)} {k : α → ℕ}
    (hf : ∀ acc a out, f acc a = pure out → out.length = acc.length + k a) {l : List α}
    {acc out : List β} (h : l.foldlM f acc = pure out) :
    out.length = acc.length + (l.map k).sum := by
  induction l generalizing acc with
  | nil =>
      rw [List.foldlM_nil, pure_inj] at h
      rw [h, List.map_nil, List.sum_nil, Nat.add_zero]
  | cons a l ih =>
      rw [List.foldlM_cons, bind_eq_pure] at h
      obtain ⟨mid, hmid, h⟩ := h
      rw [ih h, hf acc a mid hmid, List.map_cons, List.sum_cons, Nat.add_assoc]

/-- Steps that each add one element. -/
theorem foldlM_map {f : List β → α → Checked ε (List β)} {g : β → α}
    (hf : ∀ acc b, f acc (g b) = pure (acc ++ [b])) (l acc : List β) :
    (l.map g).foldlM f acc = pure (acc ++ l) := by
  induction l generalizing acc with
  | nil => rw [List.map_nil, List.foldlM_nil, List.append_nil]
  | cons b l ih =>
      rw [List.map_cons, List.foldlM_cons, hf, pure_bind, ih, List.append_assoc]
      rfl

theorem parseHex_byte (b : UInt8) : parseHex 255 (paddedHex 2 b.toNat) = some b.toNat := by
  have hb := b.toNat_lt
  exact parseHex_paddedHex 2 (by omega)

namespace ActisenseAscii

theorem length_pairs (l : List β) : (pairs l).length = (l.length + 1) / 2 := by
  induction l using pairs.induct with
  | case1 a b l ih =>
      rw [pairs, List.length_cons, ih, List.length_cons, List.length_cons]
      omega
  | case2 a => simp [pairs]
  | case3 => simp [pairs]

theorem length_utf8Bytes (s : List Char) : (utf8Bytes s).length = byteLen s := by
  induction s with
  | nil => rfl
  | cons c s ih =>
      rw [utf8Bytes, List.flatMap_cons, List.length_append, String.length_utf8EncodeChar, byteLen,
        ← ih]
      rfl

theorem length_le_byteLen (s : List Char) : s.length ≤ byteLen s := by
  induction s with
  | nil => exact Nat.zero_le _
  | cons c s ih =>
      have hpos := c.utf8Size_pos
      rw [List.length_cons, byteLen]
      omega

/-- Two characters of a token are one byte. -/
theorem length_of_appendToken {data out : List UInt8} {t : List Char}
    (h : appendToken data t = pure out) :
    byteLen t % 2 = 0 ∧ out.length = data.length + byteLen t / 2 := by
  rw [appendToken, ite_throw_eq_pure, not_not] at h
  obtain ⟨heven, h⟩ := h
  refine ⟨heven, ?_⟩
  have hlen := length_of_foldlM (k := fun _ => 1) (fun acc pair out h => by
    rw [bind_eq_pure] at h
    obtain ⟨s, -, h⟩ := h
    rw [bind_eq_pure] at h
    obtain ⟨b, -, h⟩ := h
    rw [pure_inj] at h
    rw [← h, List.length_append]
    rfl) h
  rw [hlen, List.map_const', List.sum_replicate_nat, length_pairs, length_utf8Bytes]
  omega

theorem pairs_flatMap {g : β → List α} (hg : ∀ b, (g b).length = 2) (l : List β) :
    pairs (l.flatMap g) = l.map g := by
  induction l with
  | nil => rfl
  | cons b l ih =>
      obtain ⟨x, y, hxy⟩ := List.length_eq_two.mp (hg b)
      rw [List.flatMap_cons, hxy, List.map_cons, hxy, ← ih]
      rfl

/-- The run of digits that a payload is written as. -/
theorem appendToken_hex (acc data : List UInt8) :
    appendToken acc (data.flatMap fun b => paddedHex 2 b.toNat) = pure (acc ++ data) := by
  have hascii : ∀ b : UInt8, ∀ c ∈ paddedHex 2 b.toNat, Plain.Ascii c :=
    fun _ _ hc => (isUpperHex_of_mem hc).spec.2.2.1
  have hbytes : ∀ b : UInt8, (utf8Bytes (paddedHex 2 b.toNat)).length = 2 := by
    intro b
    rw [Plain.utf8Bytes_ascii (hascii b), List.length_map]
    exact length_paddedHex_two b.toNat_lt
  have hutf8 : utf8Bytes (data.flatMap fun b => paddedHex 2 b.toNat) =
      data.flatMap fun b => utf8Bytes (paddedHex 2 b.toNat) := List.flatMap_assoc
  have heven : byteLen (data.flatMap fun b => paddedHex 2 b.toNat) % 2 = 0 := by
    rw [← length_utf8Bytes, hutf8, List.length_flatMap]
    simp only [hbytes, List.map_const', List.sum_replicate_nat]
    exact Nat.mul_mod_left _ _
  rw [appendToken, if_neg (not_not.mpr heven), hutf8, pairs_flatMap hbytes]
  apply foldlM_map
  intro acc b
  rw [Plain.fromUtf8_ascii (hascii b), orError, pure_bind, parseHex_byte, orError, pure_bind,
    UInt8.ofNat_toNat]

end ActisenseAscii

end Canboat
