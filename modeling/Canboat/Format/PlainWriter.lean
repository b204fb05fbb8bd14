import Canboat.Format.Plain
import Canboat.Format.Timestamp

/-!
# Writing PLAIN and FAST lines

The writer of the lines that `parse_line` reads. The timestamp is brought to its canonical form;
the rest of a frame comes back as it was.
-/

namespace Canboat

/-- The frame with its timestamp in canonical form. -/
def stamp (f : RawFrame) : RawFrame :=
  { f with timestamp := f.timestamp.map fun ts => String.ofList (normalizeTimestamp ts.toList) }

namespace Plain

open Checked

def decimal (n : ℕ) : List Char := n.repr.toList

/-- `{:02x}`. -/
def hexPair (b : UInt8) : List Char :=
  [Nat.digitChar (b.toNat / 16), Nat.digitChar (b.toNat % 16)]

def writeLine (f : RawFrame) : List Char :=
  ((f.timestamp.map fun ts => normalizeTimestamp ts.toList).getD []) ++
    ',' :: (decimal f.prio.toNat ++ ',' :: (decimal f.pgn.toNat ++ ',' :: (decimal f.src.toNat ++
      ',' :: (decimal f.dst.toNat ++ ',' :: (decimal f.data.length ++
        f.data.flatMap fun b => ',' :: hexPair b)))))

/-! ## Bytes of the line -/

/-- A character of one byte. -/
def Ascii (c : Char) : Prop := c.toNat < 128

theorem utf8Bytes_append (a b : List Char) : utf8Bytes (a ++ b) = utf8Bytes a ++ utf8Bytes b :=
  List.flatMap_append

theorem utf8EncodeChar_ascii {c : Char} (hc : Ascii c) :
    String.utf8EncodeChar c = [UInt8.ofNat c.toNat] := by
  have hval : c.val.toNat ≤ 127 := Nat.le_of_lt_succ hc
  rw [String.utf8EncodeChar]
  simp only [if_pos hval]
  rfl

theorem utf8Bytes_ascii {s : List Char} (hs : ∀ c ∈ s, Ascii c) :
    utf8Bytes s = s.map fun c => UInt8.ofNat c.toNat := by
  induction s with
  | nil => rfl
  | cons c s ih =>
      rw [List.forall_mem_cons] at hs
      rw [utf8Bytes, List.flatMap_cons, utf8EncodeChar_ascii hs.1, List.map_cons, ← ih hs.2]
      rfl

theorem fromUtf8Lossy_ascii {s : List Char} (hs : ∀ c ∈ s, Ascii c) :
    fromUtf8Lossy (utf8Bytes s) = s := by
  rw [utf8Bytes_ascii hs, fromUtf8Lossy]
  induction s with
  | nil => rfl
  | cons c s ih =>
      obtain ⟨hc, hs⟩ := List.forall_mem_cons.mp hs
      have hc' : c.toNat < 128 := hc
      have hbyte : (UInt8.ofNat c.toNat).toNat = c.toNat := by
        rw [UInt8.toNat_ofNat', Nat.mod_eq_of_lt (by omega)]
      have hfirst : utf8First (UInt8.ofNat c.toNat) = ([c], none) := by
        have hlt : UInt8.ofNat c.toNat < 0x80 := by
          rw [UInt8.lt_iff_toNat_lt, hbyte]
          exact hc'
        rw [utf8First, if_pos hlt, hbyte, Char.ofNat_toNat]
      rw [List.map_cons, utf8LossyFrom, hfirst, ih hs]
      rfl

theorem fromUtf8_ascii {s : List Char} (hs : ∀ c ∈ s, Ascii c) :
    fromUtf8 (utf8Bytes s) = some s := by
  rw [fromUtf8, fromUtf8Lossy_ascii hs, if_pos rfl]

/-- A byte of ASCII begins no other character. -/
theorem eq_of_utf8EncodeChar_head {c d : Char} (hd : Ascii d)
    (h : (String.utf8EncodeChar c).head? = some (UInt8.ofNat d.toNat)) : c = d := by
  have hd : d.toNat < 128 := hd
  have hval : c.val.toNat = c.toNat := rfl
  have hbyte : (UInt8.ofNat d.toNat).toNat = d.toNat := by
    rw [UInt8.toNat_ofNat', Nat.mod_eq_of_lt (by omega)]
  rw [String.utf8EncodeChar] at h
  simp only [hval] at h
  split_ifs at h <;> rw [List.head?_cons, Option.some.injEq] at h <;>
    have hnat := congrArg UInt8.toNat h <;> rw [hbyte] at hnat <;> simp at hnat
  · exact Char.toNat_inj.mp (by omega)
  all_goals omega

theorem prefix_of_utf8Bytes_prefix {s t : List Char} (hs : ∀ c ∈ s, Ascii c)
    (h : utf8Bytes s <+: utf8Bytes t) : s <+: t := by
  induction s generalizing t with
  | nil => exact List.nil_prefix
  | cons c s ih =>
      obtain ⟨hc, hrest⟩ := List.forall_mem_cons.mp hs
      have hcons : utf8Bytes (c :: s) = UInt8.ofNat c.toNat :: utf8Bytes s := by
        rw [utf8Bytes, List.flatMap_cons, utf8EncodeChar_ascii hc]
        rfl
      rw [hcons] at h
      cases t with
      | nil => exact absurd (List.prefix_nil.mp h) (List.cons_ne_nil _ _)
      | cons d t =>
          have hne : String.utf8EncodeChar d ≠ [] := String.utf8EncodeChar_ne_nil
          have hhead : (String.utf8EncodeChar d).head? = some (UInt8.ofNat c.toNat) := by
            obtain ⟨r, hr⟩ := h
            have hbytes : utf8Bytes (d :: t) = String.utf8EncodeChar d ++ utf8Bytes t := rfl
            rw [← List.head?_append_of_ne_nil _ hne, ← hbytes, ← hr]
            rfl
          obtain rfl := eq_of_utf8EncodeChar_head hc hhead
          have htail : utf8Bytes (d :: t) = UInt8.ofNat d.toNat :: utf8Bytes t := by
            rw [utf8Bytes, List.flatMap_cons, utf8EncodeChar_ascii hc]
            rfl
          rw [htail, List.cons_prefix_cons] at h
          rw [List.cons_prefix_cons]
          exact ⟨rfl, ih hrest h.2⟩

theorem toNat_of_isDigit {c : Char} (hc : c.isDigit = true) : 48 ≤ c.toNat ∧ c.toNat ≤ 57 := by
  rw [Char.isDigit, Bool.and_eq_true, decide_eq_true_eq, decide_eq_true_eq] at hc
  exact ⟨UInt32.le_iff_toNat_le.mp hc.1, UInt32.le_iff_toNat_le.mp hc.2⟩

theorem ascii_of_isDigit {c : Char} (hc : c.isDigit = true) : Ascii c :=
  Nat.lt_of_le_of_lt (toNat_of_isDigit hc).2 (by decide)

theorem toNat_ofNat_of_isDigit {c : Char} (hc : c.isDigit = true) :
    (UInt8.ofNat c.toNat).toNat = c.toNat := by
  have hle := (toNat_of_isDigit hc).2
  exact UInt8.toNat_ofNat_of_lt' (by rw [UInt8.size]; omega)

theorem isDigitByte_ofNat {c : Char} (hc : c.isDigit = true) :
    isDigitByte (UInt8.ofNat c.toNat) = true := by
  have hnat := toNat_ofNat_of_isDigit hc
  obtain ⟨hlo, hhi⟩ := toNat_of_isDigit hc
  rw [isDigitByte, Bool.and_eq_true, decide_eq_true_eq, decide_eq_true_eq, UInt8.le_iff_toNat_le,
    UInt8.le_iff_toNat_le, hnat]
  exact ⟨hlo, hhi⟩

/-! ## Numbers -/

theorem isDigit_of_mem_decimal {n : ℕ} {c : Char} (hc : c ∈ decimal n) : c.isDigit = true := by
  rw [decimal, Nat.toList_repr] at hc
  exact Nat.isDigit_of_mem_toDigits (by decide) (by decide) hc

theorem utf8Bytes_decimal (n : ℕ) :
    utf8Bytes (decimal n) = (decimal n).map fun c => UInt8.ofNat c.toNat :=
  utf8Bytes_ascii fun _ hc => ascii_of_isDigit (isDigit_of_mem_decimal hc)

theorem decimal_bytes_ne_nil (n : ℕ) : utf8Bytes (decimal n) ≠ [] := by
  rw [utf8Bytes_decimal, Ne, List.map_eq_nil_iff, decimal, Nat.toList_repr]
  exact Nat.toDigits_ne_nil

theorem isDigitByte_of_mem {n : ℕ} {b : UInt8} (hb : b ∈ utf8Bytes (decimal n)) :
    isDigitByte b = true := by
  rw [utf8Bytes_decimal, List.mem_map] at hb
  obtain ⟨c, hc, rfl⟩ := hb
  exact isDigitByte_ofNat (isDigit_of_mem_decimal hc)

theorem numberOf_digits {s : List Char} (hs : ∀ c ∈ s, c.isDigit = true) (acc : ℕ) :
    numberOf acc (s.map fun c => UInt8.ofNat c.toNat) = Nat.ofDigitChars 10 s acc := by
  induction s generalizing acc with
  | nil => rfl
  | cons c s ih =>
      rw [List.forall_mem_cons] at hs
      rw [List.map_cons, numberOf, List.foldl_cons, Nat.ofDigitChars_cons, ← ih hs.2, numberOf,
        toNat_ofNat_of_isDigit hs.1, Nat.mul_comm]
      rfl

theorem numberOf_decimal (n : ℕ) : numberOf 0 (utf8Bytes (decimal n)) = n := by
  rw [utf8Bytes_decimal, numberOf_digits fun c => isDigit_of_mem_decimal, decimal,
    Nat.toList_repr, Nat.ofDigitChars_ten_toDigits]

/-- What may come behind a number. -/
def Delimits (post : List UInt8) : Prop := ∀ b ∈ post.head?, isDigitByte b = false ∧ b ≠ 0x20

theorem skipSpaces_append (pre : List UInt8) {post : List UInt8} (h : ∀ b ∈ post.head?, b ≠ 0x20) :
    skipSpaces (pre ++ post) pre.length = pre.length := by
  rw [skipSpaces, List.drop_left]
  cases post with
  | nil => rfl
  | cons b post =>
      have hb : ¬(b == 0x20) = true := fun hb => h b rfl (eq_of_beq hb)
      rw [List.takeWhile_cons_of_neg (p := (· == 0x20)) hb]
      rfl

theorem numberAt_append (pre : List UInt8) {post : List UInt8} (hpost : Delimits post) (n : ℕ) :
    skipSpaces (pre ++ (utf8Bytes (decimal n) ++ post)) pre.length = pre.length ∧
      numberAt (pre ++ (utf8Bytes (decimal n) ++ post)) pre.length = utf8Bytes (decimal n) := by
  have hhead : ∀ b ∈ (utf8Bytes (decimal n) ++ post).head?, b ≠ 0x20 := by
    rintro b hb rfl
    rw [List.head?_append_of_ne_nil _ (decimal_bytes_ne_nil n)] at hb
    cases isDigitByte_of_mem (List.mem_of_mem_head? hb)
  have hskip := skipSpaces_append pre hhead
  refine ⟨hskip, ?_⟩
  rw [numberAt, hskip, digitsAt, List.drop_left,
    List.takeWhile_append_of_pos fun b hb => isDigitByte_of_mem hb]
  cases post with
  | nil => rw [List.takeWhile_nil, List.append_nil]
  | cons b post =>
      have hb : ¬isDigitByte b = true := by
        rw [(hpost b rfl).1]
        exact Bool.false_ne_true
      rw [List.takeWhile_cons_of_neg hb, List.append_nil]

/-- A number is read, and the position is behind it and its comma. -/
theorem takeUint_append {max n : ℕ} (hmax : n ≤ max) (hn : n ≤ u64Max) (pre : List UInt8)
    {post : List UInt8} (hpost : Delimits post) (base : ℕ) (field : String) :
    takeUintUntilComma max (pre ++ (utf8Bytes (decimal n) ++ post)) pre.length base field =
      pure (n, skipComma (pre ++ (utf8Bytes (decimal n) ++ post))
        (pre ++ utf8Bytes (decimal n)).length) := by
  obtain ⟨hskip, hnumber⟩ := numberAt_append pre hpost n
  have hacc : accumulate u64Max 0 (utf8Bytes (decimal n)) = .ok n := by
    rw [accumulate_ok_iff (Nat.zero_le _), numberOf_decimal]
    exact ⟨hn, rfl⟩
  have hafter : afterNumber (pre ++ (utf8Bytes (decimal n) ++ post)) pre.length =
      skipComma (pre ++ (utf8Bytes (decimal n) ++ post)) (pre ++ utf8Bytes (decimal n)).length := by
    rw [afterNumber, hskip, hnumber, ← List.length_append, ← List.append_assoc,
      skipSpaces_append _ fun b hb => (hpost b hb).2]
  rw [takeUintUntilComma, hskip, hnumber, hacc, hafter]
  show (if utf8Bytes (decimal n) = [] then _ else _) = _
  rw [if_neg (decimal_bytes_ne_nil n), if_pos hmax]

theorem getElem?_length_append (pre post : List UInt8) : (pre ++ post)[pre.length]? = post[0]? := by
  rw [List.getElem?_append_right (Nat.le_refl _), Nat.sub_self]

/-- The header up to a comma, whatever is before and behind. -/
theorem takeUint_bind {α : Type} {max n : ℕ} (hmax : n ≤ max) (hn : n ≤ u64Max)
    {bytes pre post : List UInt8} (hbytes : bytes = pre ++ (utf8Bytes (decimal n) ++ 0x2c :: post))
    {base : ℕ} {field : String} {next : ℕ × ℕ → Checked ParseError α}
    {res : Checked ParseError α}
    (h : ∀ pre, bytes = pre ++ post → next (n, pre.length) = res) :
    (takeUintUntilComma max bytes pre.length base field >>= next) = res := by
  have hpost : Delimits (0x2c :: post) := by
    rintro _ ⟨⟩
    exact ⟨by decide, by decide⟩
  have hcomma : skipComma bytes (pre ++ utf8Bytes (decimal n)).length =
      (pre ++ (utf8Bytes (decimal n) ++ [0x2c])).length := by
    rw [hbytes, skipComma, ← List.append_assoc, getElem?_length_append, List.getElem?_cons_zero,
      if_pos rfl, ← List.append_assoc]
    exact (@List.length_append _ _ [0x2c]).symm
  have hrest := h (pre ++ (utf8Bytes (decimal n) ++ [0x2c]))
    (by rw [hbytes, List.append_assoc, List.append_assoc, List.singleton_append])
  rw [hbytes, takeUint_append hmax hn pre hpost, ← hbytes, hcomma, pure_bind]
  exact hrest

/-! ## The payload -/

theorem hexNibble_digitChar : ∀ n < 16,
    hexNibble (UInt8.ofNat (Nat.digitChar n).toNat) = UInt8.ofNat n := by decide

theorem nibbles_eq : ∀ n < 256,
    (UInt8.ofNat (n / 16) <<< 4) ||| UInt8.ofNat (n % 16) = UInt8.ofNat n := by decide +kernel

theorem ascii_digitChar : ∀ n < 16, (Nat.digitChar n).toNat < 128 := by decide

/-- The two bytes for a byte. -/
def hexBytes (b : UInt8) : List UInt8 :=
  [UInt8.ofNat (Nat.digitChar (b.toNat / 16)).toNat,
    UInt8.ofNat (Nat.digitChar (b.toNat % 16)).toNat]

theorem utf8Bytes_hexPair (b : UInt8) : utf8Bytes (hexPair b) = hexBytes b := by
  have hb := b.toNat_lt
  rw [hexPair, utf8Bytes_ascii]
  · rfl
  · intro c hc
    rcases List.mem_pair.mp hc with rfl | rfl
    · exact ascii_digitChar _ (by omega)
    · exact ascii_digitChar _ (by omega)

/-- The bytes of the payload, each behind a comma. -/
def listed (data : List UInt8) : List UInt8 := data.flatMap fun b => 0x2c :: hexBytes b

theorem hexNibble_hexBytes (b : UInt8) : ∃ hi lo, hexBytes b = [hi, lo] ∧ hi ≠ 0x20 ∧
    hexNibble hi ≠ 0xff ∧ hexNibble lo ≠ 0xff ∧ (hexNibble hi <<< 4) ||| hexNibble lo = b := by
  have hb := b.toNat_lt
  have hhi := hexNibble_digitChar (b.toNat / 16) (by omega)
  have hlo := hexNibble_digitChar (b.toNat % 16) (by omega)
  have hsmall : ∀ n < 16, UInt8.ofNat n ≠ 0xff := by decide
  refine ⟨_, _, rfl, ?_, ?_, ?_, ?_⟩
  · intro hspace
    rw [hspace] at hhi
    exact hsmall _ (by omega) hhi.symm
  · rw [hhi]
    exact hsmall _ (by omega)
  · rw [hlo]
    exact hsmall _ (by omega)
  · rw [hhi, hlo, nibbles_eq _ hb, UInt8.ofNat_toNat]

theorem skipComma_listed (pre : List UInt8) (data : List UInt8) :
    ∃ sep, listed data = sep ++ (listed data).drop 1 ∧
      skipComma (pre ++ listed data) pre.length = (pre ++ sep).length := by
  rw [skipComma, getElem?_length_append]
  cases data with
  | nil => exact ⟨[], rfl, by rw [List.append_nil]; rfl⟩
  | cons b data => exact ⟨[0x2c], rfl, by rw [List.length_append]; rfl⟩

theorem payload_listed (base : ℕ) (data pre before : List UInt8) :
    payload (pre ++ (listed data).drop 1) base data.length pre.length before =
      pure (before ++ data) := by
  induction data generalizing pre before with
  | nil => rw [List.length_nil, payload, List.append_nil]
  | cons b data ih =>
      obtain ⟨hi, lo, hbytes, hspace, hhi, hlo, hvalue⟩ := hexNibble_hexBytes b
      obtain ⟨sep, hsep, hcomma⟩ := skipComma_listed (pre ++ [hi, lo]) data
      have hdrop : (listed (b :: data)).drop 1 = [hi, lo] ++ listed data := by
        rw [listed, List.flatMap_cons, hbytes]
        rfl
      have hskip : skipSpaces (pre ++ ([hi, lo] ++ listed data)) pre.length = pre.length := by
        apply skipSpaces_append
        rintro _ ⟨⟩
        exact hspace
      have hbehind : skipSpaces (pre ++ ([hi, lo] ++ listed data)) (pre.length + 2) =
          (pre ++ [hi, lo]).length := by
        have hcomma : ∀ b ∈ (listed data).head?, b ≠ 0x20 := by
          cases data with
          | nil => rintro _ ⟨⟩
          | cons c data =>
              rintro _ ⟨⟩
              decide
        have h := skipSpaces_append (pre ++ [hi, lo]) hcomma
        rw [List.length_append, List.append_assoc] at h
        rw [List.length_append]
        exact h
      have hlen : (pre ++ ([hi, lo] ++ listed data)).length =
          pre.length + 2 + (listed data).length := by
        rw [List.length_append, List.length_append, Nat.add_assoc]
        rfl
      have hget₀ : (pre ++ ([hi, lo] ++ listed data))[pre.length]? = some hi :=
        getElem?_length_append _ _
      have hget₁ : (pre ++ ([hi, lo] ++ listed data))[pre.length + 1]? = some lo := by
        rw [List.getElem?_append_right (Nat.le_add_right _ _), Nat.add_sub_cancel_left]
        rfl
      rw [hdrop, List.length_cons, payload, if_pos (by omega), hskip]
      dsimp only
      rw [if_neg (by omega), byteAt, hget₀, byteAt, hget₁]
      show (if hexNibble hi = 0xff ∨ hexNibble lo = 0xff then _ else _) = _
      rw [if_neg (not_or.mpr ⟨hhi, hlo⟩), hvalue, hbehind, ← List.append_assoc, hcomma]
      have h := ih ((pre ++ [hi, lo]) ++ sep) (before ++ [b])
      rw [List.append_assoc, ← hsep, List.append_assoc before] at h
      exact h

/-- The length, and the payload as it is left behind it. -/
theorem takeUint_length {data : List UInt8} (hlen : data.length ≤ u64Max) {bytes pre : List UInt8}
    (hbytes : bytes = pre ++ (utf8Bytes (decimal data.length) ++ listed data)) (base : ℕ)
    (field : String) :
    ∃ cursor, takeUintUntilComma u64Max bytes pre.length base field = pure (data.length, cursor) ∧
      slice bytes cursor bytes.length = .ok ((listed data).drop 1) := by
  have hdelimits : Delimits (listed data) := by
    cases data with
    | nil => exact nofun
    | cons b data =>
        rintro _ ⟨⟩
        exact ⟨by decide, by decide⟩
  obtain ⟨sep, hsep, hcomma⟩ := skipComma_listed (pre ++ utf8Bytes (decimal data.length)) data
  rw [List.append_assoc, ← hbytes] at hcomma
  have hnumber := takeUint_append hlen hlen pre hdelimits base field
  rw [← hbytes, hcomma] at hnumber
  refine ⟨_, hnumber, ?_⟩
  have hsplit : bytes = (pre ++ utf8Bytes (decimal data.length) ++ sep) ++
      (listed data).drop 1 := by
    rw [hbytes, List.append_assoc, List.append_assoc, ← hsep]
  have hle : (pre ++ utf8Bytes (decimal data.length) ++ sep).length ≤ bytes.length := by
    rw [hsplit]
    exact (List.prefix_append _ _).length_le
  rw [slice_of_le hle (Nat.le_refl _), List.take_length, hsplit, List.drop_left]

/-! ## The line comes back -/

/-- The timestamp as it is written. -/
def stampText (f : RawFrame) : List Char :=
  (f.timestamp.map fun ts => normalizeTimestamp ts.toList).getD []

/-- A frame that the reader takes from the line. -/
structure Readable (f : RawFrame) : Prop where
  length : f.data.length ≤ RAWFRAME_MAX_SIZE
  timestamp : f.timestamp ≠ none → stampText f ≠ []
  comma : ',' ∉ stampText f
  newline : '\n' ∉ stampText f
  comment : (stampText f).head? ≠ some '#'

/-- The line behind the timestamp. -/
def body (f : RawFrame) : List Char :=
  decimal f.prio.toNat ++ ',' :: (decimal f.pgn.toNat ++ ',' :: (decimal f.src.toNat ++
    ',' :: (decimal f.dst.toNat ++ ',' :: (decimal f.data.length ++
      f.data.flatMap fun b => ',' :: hexPair b))))

theorem body_ne_nil (f : RawFrame) : body f ≠ [] := by
  rw [body, decimal, Nat.toList_repr]
  exact List.append_ne_nil_of_left_ne_nil Nat.toDigits_ne_nil _

theorem writeLine_eq (f : RawFrame) : writeLine f = stampText f ++ ',' :: body f := rfl

theorem writeLine_ne_nil (f : RawFrame) : writeLine f ≠ [] := by
  rw [writeLine_eq]
  exact List.append_ne_nil_of_right_ne_nil _ (List.cons_ne_nil _ _)

theorem utf8Bytes_comma (s : List Char) : utf8Bytes (',' :: s) = 0x2c :: utf8Bytes s := by
  rw [utf8Bytes, List.flatMap_cons, utf8EncodeChar_ascii (show ','.toNat < 128 by decide)]
  rfl

theorem utf8Bytes_pairs (data : List UInt8) :
    utf8Bytes (data.flatMap fun b => ',' :: hexPair b) = listed data := by
  induction data with
  | nil => rfl
  | cons b data ih =>
      rw [List.flatMap_cons, List.cons_append, utf8Bytes_comma, utf8Bytes_append, ih,
        utf8Bytes_hexPair, listed, listed, List.flatMap_cons, List.cons_append]

theorem utf8Bytes_body (f : RawFrame) :
    utf8Bytes (body f) =
      utf8Bytes (decimal f.prio.toNat) ++ 0x2c :: (utf8Bytes (decimal f.pgn.toNat) ++
        0x2c :: (utf8Bytes (decimal f.src.toNat) ++ 0x2c :: (utf8Bytes (decimal f.dst.toNat) ++
          0x2c :: (utf8Bytes (decimal f.data.length) ++ listed f.data)))) := by
  simp only [body, utf8Bytes_append, utf8Bytes_comma, utf8Bytes_pairs]

theorem toNat_digitChar : ∀ n < 16, 44 ≤ (Nat.digitChar n).toNat := by decide

/-- No white space behind the timestamp. -/
theorem le_toNat_of_mem_body {f : RawFrame} {c : Char} (hc : c ∈ body f) : 44 ≤ c.toNat := by
  have hdigit : ∀ {n : ℕ}, c ∈ decimal n → 44 ≤ c.toNat := fun h =>
    Nat.le_trans (by decide) (toNat_of_isDigit (isDigit_of_mem_decimal h)).1
  have hcomma : c = ',' → 44 ≤ c.toNat := by
    rintro rfl
    decide
  simp only [body, List.mem_append, List.mem_cons, List.mem_flatMap] at hc
  rcases hc with h | h | h | h | h | h | h | h | h | ⟨b, -, h | h⟩
  · exact hdigit h
  · exact hcomma h
  · exact hdigit h
  · exact hcomma h
  · exact hdigit h
  · exact hcomma h
  · exact hdigit h
  · exact hcomma h
  · exact hdigit h
  · exact hcomma h
  · have hb := b.toNat_lt
    rcases List.mem_pair.mp h with rfl | rfl
    · exact toNat_digitChar _ (by omega)
    · exact toNat_digitChar _ (by omega)

theorem trimNewlines_line (ts : List Char) (f : RawFrame) :
    trimNewlines (ts ++ ',' :: body f) = ts ++ ',' :: body f := by
  have hend : ∀ c ∈ (ts ++ ',' :: body f).reverse.head?, (c == '\r' || c == '\n') = false := by
    intro c hc
    have hmem : c ∈ body f := by
      rw [List.head?_reverse, List.append_cons,
        List.getLast?_append_of_ne_nil _ (body_ne_nil f)] at hc
      exact List.mem_of_mem_getLast? hc
    have hle := le_toNat_of_mem_body hmem
    rw [Bool.or_eq_false_iff, beq_eq_false_iff_ne, beq_eq_false_iff_ne]
    constructor
    · rintro rfl
      exact absurd hle (by decide)
    · rintro rfl
      exact absurd hle (by decide)
  rw [trimNewlines, trimEnd]
  cases hline : (ts ++ ',' :: body f).reverse with
  | nil => rw [List.dropWhile_nil, ← hline, List.reverse_reverse]
  | cons c s =>
      rw [hline] at hend
      rw [List.dropWhile_cons_of_neg, ← hline, List.reverse_reverse]
      rw [hend c rfl]
      exact Bool.false_ne_true

theorem splitOnce_line {ts : List Char} (hts : ',' ∉ ts) (s : List Char) :
    splitOnce ',' (ts ++ ',' :: s) = some (ts, s) := by
  have hne : ∀ c ∈ ts, decide (c ≠ ',') = true := by
    intro c hc
    rw [decide_eq_true_eq]
    rintro rfl
    exact hts hc
  rw [splitOnce, List.dropWhile_append_of_pos hne, List.takeWhile_append_of_pos hne]
  rw [List.dropWhile_cons_of_neg (by decide), List.takeWhile_cons_of_neg (by decide),
    List.append_nil]

/-- The frame comes back from behind any timestamp. -/
theorem parseLine_line {ts : List Char} (hts : ',' ∉ ts) {f : RawFrame}
    (hlength : f.data.length ≤ RAWFRAME_MAX_SIZE) :
    parseLine (ts ++ ',' :: body f) =
      pure { f with timestamp := if ts = [] then none else some (String.ofList ts) } := by
  have hbyte : ∀ b : UInt8, b.toNat ≤ 255 ∧ b.toNat ≤ u64Max := by
    intro b
    have hb := b.toNat_lt
    rw [u64Max]
    omega
  have hpgn : f.pgn.toNat ≤ 4294967295 ∧ f.pgn.toNat ≤ u64Max := by
    have hlt := f.pgn.toNat_lt
    rw [u64Max]
    omega
  have hlen : f.data.length ≤ u64Max := Nat.le_trans hlength (by decide)
  have hsplit : orError (some (ts, body f)) ParseError.missingTimestamp =
      (pure (ts, body f) : Checked ParseError _) := rfl
  have hbytes := utf8Bytes_body f
  rw [parseLine]
  dsimp only
  rw [trimNewlines_line, if_neg (List.append_ne_nil_of_right_ne_nil _ (List.cons_ne_nil _ _)),
    splitOnce_line hts, hsplit, pure_bind]
  dsimp only
  generalize utf8Bytes (body f) = bytes at hbytes ⊢
  generalize byteLen ts + 1 = base
  rw [← List.nil_append (utf8Bytes _ ++ _)] at hbytes
  refine takeUint_bind (hbyte f.prio).1 (hbyte f.prio).2 hbytes fun pre hbytes => ?_
  refine takeUint_bind hpgn.1 hpgn.2 hbytes fun pre hbytes => ?_
  refine takeUint_bind (hbyte f.src).1 (hbyte f.src).2 hbytes fun pre hbytes => ?_
  refine takeUint_bind (hbyte f.dst).1 (hbyte f.dst).2 hbytes fun pre hbytes => ?_
  obtain ⟨cursor, hnumber, hslice⟩ := takeUint_length hlen hbytes base "len"
  have hcheck : (check (.ok ((listed f.data).drop 1)) : Checked ParseError _) =
      pure ((listed f.data).drop 1) := rfl
  have hpayload := payload_listed (base + cursor) f.data [] []
  rw [List.nil_append, List.nil_append] at hpayload
  have hmax : ¬f.data.length > RAWFRAME_MAX_SIZE := Nat.not_lt.mpr hlength
  rw [hnumber, pure_bind, if_neg hmax, hslice, hcheck, pure_bind]
  show (payload _ _ _ ([] : List UInt8).length [] >>= _) = _
  rw [hpayload, pure_bind, if_neg (not_not.mpr rfl)]
  simp only [UInt8.ofNat_toNat, UInt32.ofNat_toNat]

theorem trimNewlines_writeLine (f : RawFrame) : trimNewlines (writeLine f) = writeLine f :=
  trimNewlines_line (stampText f) f

/-- Once in canonical form, the timestamp stays. -/
theorem stamp_stamp (f : RawFrame) : stamp (stamp f) = stamp f := by
  rw [stamp, stamp]
  cases f.timestamp with
  | none => rfl
  | some ts =>
      dsimp only [Option.map_some]
      rw [String.toList_ofList, normalizeTimestamp_idem]

/-- The reader takes the frame from the line, with its timestamp in canonical form. -/
theorem parseLine_writeLine {f : RawFrame} (hf : Readable f) :
    parseLine (writeLine f) = pure (stamp f) := by
  rw [writeLine_eq, parseLine_line hf.comma hf.length]
  have hstamp := hf.timestamp
  rw [stampText] at hstamp ⊢
  rw [stamp]
  cases hts : f.timestamp with
  | none => rfl
  | some ts =>
      rw [hts] at hstamp
      have hne := hstamp (Option.some_ne_none ts)
      rw [if_neg hne]
      rfl

theorem newline_not_mem_writeLine {f : RawFrame} (hf : '\n' ∉ stampText f) :
    '\n' ∉ writeLine f := by
  rw [writeLine_eq, List.mem_append, List.mem_cons, not_or, not_or]
  refine ⟨hf, by decide, fun hmem => ?_⟩
  exact absurd (le_toNat_of_mem_body hmem) (by decide)

theorem head_writeLine {f : RawFrame} (hf : (stampText f).head? ≠ some '#') :
    (writeLine f).head? ≠ some '#' := by
  rw [writeLine_eq]
  cases hts : stampText f with
  | nil =>
      rw [List.nil_append, List.head?_cons, Ne, Option.some.injEq]
      decide
  | cons c ts =>
      rw [hts] at hf
      exact hf

end Plain

end Canboat
