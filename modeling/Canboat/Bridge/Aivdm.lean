import Canboat.Bridge.BitVector
import Canboat.Format.PlainWriter
import Mathlib.Data.List.Forall2

/-!
# AIVDM sentences

The bits of a message in groups of six, a letter for each, in sentences of at most sixty letters.
-/

namespace Canboat

open BitString Plain

namespace Ais

/-! ## The sentences -/

def readBits (bytes : List UInt8) (offset len : ℕ) : UInt8 :=
  (List.range len).foldl (fun out i =>
    let byte := bytes.getD ((offset + i) / 8) 0
    let bit := (byte >>> UInt8.ofNat (7 - (offset + i) % 8)) &&& 1
    (out <<< 1) ||| bit) 0

def sixBitAscii (v : UInt8) : Char :=
  let v := v &&& 0x3f
  if v < 40 then Char.ofNat (48 + v).toNat else Char.ofNat (48 + v + 8).toNat

/-- The payload for so many bits, and the number of zeros in its last letter. -/
def armour (bytes : List UInt8) : ℕ → ℕ → List Char × ℕ
  | offset, n + 6 =>
      let r := armour bytes (offset + 6) n
      (sixBitAscii (readBits bytes offset 6) :: r.1, r.2)
  | _, 0 => ([], 0)
  | offset, n => ([sixBitAscii (readBits bytes offset n <<< UInt8.ofNat (6 - n))], 6 - n)

/-- From the talker to the padding. -/
def sentenceBody (talker : List Char) (fragments frag : ℕ) (seq : Option Char) (channel : Char)
    (payload : List Char) (padding : ℕ) : List Char :=
  'A' :: 'I' :: (talker ++ ',' :: (decimal fragments ++ ',' :: (decimal frag ++ ',' ::
    (seq.toList ++ ',' :: channel :: ',' :: (payload ++ ',' :: decimal padding)))))

def hexChecksum (chk : UInt8) : List Char := toAsciiUppercase (hexPair chk)

def appendAivdm (out body : List Char) : List Char :=
  let text := out ++ '!' :: body
  let chk := ((utf8Bytes text).drop ((utf8Bytes out).length + 1)).foldl (· ^^^ ·) 0
  text ++ '*' :: (hexChecksum chk ++ ['\r', '\n'])

/-- The text, the bits that are out, and the number of sentences, with one sentence more. -/
def emitFragment (bv : BitVector) (talker : List Char) (channel : Char) (fragments : ℕ)
    (seq : Option Char) (s : List Char × ℕ × ℕ) (frag : ℕ) : List Char × ℕ × ℕ :=
  let fragBits := min (bv.pos - s.2.1) 360
  let r := armour bv.bytes s.2.1 fragBits
  (appendAivdm s.1 (sentenceBody talker fragments frag seq channel r.1 r.2), s.2.1 + fragBits,
    s.2.2 + 1)

def seqDigit (c : UInt8) : Char := Char.ofNat (48 + c).toNat

/-- With the counter and the number of sentences. -/
def emitSentences (out : List Char) (bv : BitVector) (talker : List Char) (channel : Char)
    (seqCounter : UInt8) : List Char × UInt8 × ℕ :=
  if bv.pos = 0 then (out, seqCounter, 0)
  else
    let fragments := (bv.pos + 359) / 360
    let (seqCounter, seq) :=
      if fragments > 1 then
        let c := (seqCounter + 1) % 10
        (c, some (seqDigit c))
      else (seqCounter, none)
    let r := (List.range' 1 fragments).foldl (emitFragment bv talker channel fragments seq)
      (out, 0, 0)
    (r.1, seqCounter, r.2.2)

example : emitSentences [] ⟨[0b00000000, 0b00011111, 0b11000000], 18⟩ "VDM".toList 'A' 0 =
    ("!AIVDM,1,1,,A,01w,0*50\r\n".toList, 0, 1) := by decide +kernel

/-! ## Letters -/

/-- The six bits of a letter. -/
def letterValue (c : Char) : ℕ :=
  let v := c.toNat - 48
  if v < 40 then v else v - 8

/-- The letters of payloads; there is no comma and no asterisk among them. -/
def Letter (c : Char) : Prop := (48 ≤ c.toNat ∧ c.toNat < 88) ∨ (96 ≤ c.toNat ∧ c.toNat < 120)

instance (c : Char) : Decidable (Letter c) := by
  unfold Letter
  infer_instance

theorem letter_sixBitAscii (v : UInt8) :
    Letter (sixBitAscii v) ∧ letterValue (sixBitAscii v) = v.toNat % 64 := by
  have hall : ∀ n < 256, Letter (sixBitAscii (UInt8.ofNat n)) ∧
      letterValue (sixBitAscii (UInt8.ofNat n)) = n % 64 := by
    decide +kernel
  have h := hall v.toNat v.toNat_lt
  rwa [UInt8.ofNat_toNat] at h

theorem toNat_bit (byte : UInt8) {s : ℕ} (hs : s < 8) :
    ((byte >>> UInt8.ofNat s) &&& 1).toNat = (byte.toNat.testBit s).toNat := by
  have hnat : (UInt8.ofNat s).toNat = s := UInt8.toNat_ofNat_of_lt (hs.trans (by decide))
  rw [UInt8.toNat_and, UInt8.toNat_shiftRight, hnat, Nat.mod_eq_of_lt hs, UInt8.toNat_one,
    Nat.and_one_is_mod, Nat.toNat_testBit, Nat.shiftRight_eq_div_pow]

theorem toNat_or_bit_below {out bit : UInt8} (hout : out.toNat < 2 ^ 7) (hbit : bit.toNat < 2) :
    ((out <<< 1) ||| bit).toNat = 2 * out.toNat + bit.toNat := by
  have hshift : (out <<< 1).toNat = out.toNat <<< 1 := by
    rw [UInt8.toNat_shiftLeft, UInt8.toNat_one, Nat.mod_eq_of_lt (show 1 < 8 by decide),
      Nat.shiftLeft_eq, Nat.mod_eq_of_lt (by omega)]
  rw [UInt8.toNat_or, hshift, ← Nat.shiftLeft_add_eq_or_of_lt (by rwa [pow_one]), Nat.shiftLeft_eq,
    pow_one, Nat.mul_comm]

section

variable {bytes : List UInt8} {offset len : ℕ}

/-- The number of the bits, the highest first. -/
theorem toNat_readBits (hlen : len ≤ 8) (hin : offset + len ≤ 8 * bytes.length) :
    (readBits bytes offset len).toNat =
      value (((join 8 (bytes.map UInt8.toNat)).drop offset).take len) := by
  induction len with
  | zero => rfl
  | succ len ih =>
      have hbefore := ih (by omega) (by omega)
      have hj : (offset + len) / 8 < bytes.length := by omega
      have hbit : (((join 8 (bytes.map UInt8.toNat)).drop offset)[len]?) =
          some (bytes[(offset + len) / 8].toNat.testBit (7 - (offset + len) % 8)) := by
        rw [List.getElem?_drop, join_getElem? (by decide), List.getElem?_map,
          List.getElem?_eq_getElem hj]
        rfl
      have hlt : (readBits bytes offset len).toNat < 2 ^ 7 := by
        rw [hbefore]
        refine (value_lt _).trans_le (Nat.pow_le_pow_right (by decide) ?_)
        exact (List.length_take_le _ _).trans (by omega)
      have hone := toNat_bit (bytes.getD ((offset + len) / 8) 0)
        (show 7 - (offset + len) % 8 < 8 by omega)
      have hbyte : bytes.getD ((offset + len) / 8) 0 = bytes[(offset + len) / 8] := by simp [hj]
      have hstep : readBits bytes offset (len + 1) = (readBits bytes offset len <<< 1) |||
          ((bytes.getD ((offset + len) / 8) 0 >>> UInt8.ofNat (7 - (offset + len) % 8)) &&& 1) := by
        rw [readBits, List.range_succ, List.foldl_append]
        rfl
      rw [List.take_add_one, hbit, Option.toList_some, value_append_singleton, hstep,
        toNat_or_bit_below hlt (by rw [hone]; exact (Bool.toNat_le _).trans_lt (by decide)), hone,
        hbefore, hbyte]

/-- So many bits behind the offset. -/
def slice (bytes : List UInt8) (offset n : ℕ) : List Bool :=
  ((join 8 (bytes.map UInt8.toNat)).drop offset).take n

theorem length_slice (hin : offset + len ≤ 8 * bytes.length) :
    (slice bytes offset len).length = len := by
  rw [slice, List.length_take, List.length_drop, length_join, List.length_map]
  exact Nat.min_eq_left (by omega)

theorem slice_add (bytes : List UInt8) (offset m n : ℕ) :
    slice bytes offset (m + n) = slice bytes offset m ++ slice bytes (offset + m) n := by
  rw [slice, slice, slice, List.take_add, List.drop_drop]

/-- A letter for fewer than six bits is filled up with zeros. -/
theorem letter_bits (hlen : len ≤ 6) (hin : offset + len ≤ 8 * bytes.length) :
    bits 6 (letterValue (sixBitAscii (readBits bytes offset len <<< UInt8.ofNat (6 - len)))) =
      slice bytes offset len ++ List.replicate (6 - len) false := by
  have hread := toNat_readBits (hlen.trans (by decide)) hin
  rw [← slice] at hread
  have hlt : (readBits bytes offset len).toNat < 2 ^ len := by
    have h := value_lt (slice bytes offset len)
    rwa [← hread, length_slice hin] at h
  have hplace : (UInt8.ofNat (6 - len)).toNat = 6 - len :=
    UInt8.toNat_ofNat_of_lt (Nat.lt_of_le_of_lt (Nat.sub_le _ _) (by decide))
  have hfit : (readBits bytes offset len).toNat * 2 ^ (6 - len) < 2 ^ 6 := by
    calc (readBits bytes offset len).toNat * 2 ^ (6 - len) < 2 ^ len * 2 ^ (6 - len) :=
          Nat.mul_lt_mul_of_pos_right hlt (Nat.two_pow_pos _)
      _ = 2 ^ 6 := by rw [← pow_add, Nat.add_sub_cancel' hlen]
  have hshift : (readBits bytes offset len <<< UInt8.ofNat (6 - len)).toNat =
      (readBits bytes offset len).toNat * 2 ^ (6 - len) := by
    rw [UInt8.toNat_shiftLeft, hplace, Nat.mod_eq_of_lt (show 6 - len < 8 by omega),
      Nat.shiftLeft_eq, Nat.mod_eq_of_lt (hfit.trans (by decide))]
  have hbits := bits_append len (readBits bytes offset len).toNat (Nat.two_pow_pos (6 - len))
  rw [Nat.add_zero, Nat.add_sub_cancel' hlen, bits_zero] at hbits
  have hvalue := bits_value (slice bytes offset len)
  rw [length_slice hin] at hvalue
  rw [(letter_sixBitAscii _).2, hshift, Nat.mod_eq_of_lt (b := 64) hfit, ← hbits, hread, hvalue]

/-- The payload's letters have the bits, and as many zeros as it says behind them. -/
theorem armour_bits (offset : ℕ) {n : ℕ} (hin : offset + n ≤ 8 * bytes.length) :
    join 6 ((armour bytes offset n).1.map letterValue) =
        slice bytes offset n ++ List.replicate (armour bytes offset n).2 false ∧
      (armour bytes offset n).2 < 6 ∧ ∀ c ∈ (armour bytes offset n).1, Letter c := by
  induction n using Nat.strongRecOn generalizing offset with
  | ind n ih =>
      by_cases hsix : 6 ≤ n
      · obtain ⟨m, rfl⟩ := Nat.exists_eq_add_of_le' hsix
        obtain ⟨hbits, hfill, hletters⟩ := ih m (by omega) (offset + 6) (by omega)
        have hletter := @letter_bits bytes offset 6 (le_refl 6) (by omega)
        have hshift : readBits bytes offset 6 <<< UInt8.ofNat (6 - 6) = readBits bytes offset 6 :=
          UInt8.shiftLeft_zero
        rw [hshift, Nat.sub_self, List.replicate_zero, List.append_nil] at hletter
        rw [armour]
        refine ⟨?_, hfill, ?_⟩
        · rw [List.map_cons, join_cons, hbits, hletter, Nat.add_comm m 6, slice_add,
            List.append_assoc]
        · rw [List.forall_mem_cons]
          exact ⟨(letter_sixBitAscii _).1, hletters⟩
      · by_cases hzero : n = 0
        · subst hzero
          rw [armour]
          exact ⟨by rw [slice, List.take_zero]; rfl, by decide, by simp⟩
        · rw [armour.eq_3 _ _ _ (by omega) hzero]
          refine ⟨?_, by dsimp only; omega, ?_⟩
          · rw [List.map_singleton, join_cons, join_nil, List.append_nil,
              letter_bits (by omega) hin]
          · rw [List.forall_mem_singleton]
            exact (letter_sixBitAscii _).1

end

/-! ## Sentences -/

/-- What a sentence says. -/
structure Sentence where
  total : ℕ
  number : ℕ
  digit : Option Char
  payload : List Char
  fill : ℕ
deriving DecidableEq, Repr

namespace Sentence

def body (talker : List Char) (channel : Char) (s : Sentence) : List Char :=
  sentenceBody talker s.total s.number s.digit channel s.payload s.fill

/-- The checksum is over what stands between the marks. -/
def text (talker : List Char) (channel : Char) (s : Sentence) : List Char :=
  '!' :: (s.body talker channel ++
    '*' :: (hexChecksum ((utf8Bytes (s.body talker channel)).foldl (· ^^^ ·) 0) ++ ['\r', '\n']))

/-- The bits of the letters without the fill. -/
def bits (s : Sentence) : List Bool :=
  (join 6 (s.payload.map letterValue)).take (6 * s.payload.length - s.fill)

end Sentence

theorem appendAivdm_eq (out body : List Char) :
    appendAivdm out body = out ++ '!' :: (body ++
      '*' :: (hexChecksum ((utf8Bytes body).foldl (· ^^^ ·) 0) ++ ['\r', '\n'])) := by
  have hmark : utf8Bytes ('!' :: body) = 0x21 :: utf8Bytes body := rfl
  have hdrop : (utf8Bytes (out ++ '!' :: body)).drop ((utf8Bytes out).length + 1) =
      utf8Bytes body := by
    rw [utf8Bytes_append, hmark, List.drop_length_add_append]
    rfl
  rw [appendAivdm, hdrop]
  simp

/-- One of the sentences of a message, with its digit and the number of them. -/
structure Sentence.OneOf (total : ℕ) (digit : Option Char) (s : Sentence) : Prop where
  total_eq : s.total = total
  digit_eq : s.digit = digit
  payload_le : s.payload.length ≤ 60
  fill_lt : s.fill < 6
  letters : ∀ c ∈ s.payload, Letter c

section

variable {bv : BitVector} {talker : List Char} {channel : Char} {fragments : ℕ}
  {seq : Option Char} {s : List Char × ℕ × ℕ}

/-- A fragment is whole bits of the vector, and little enough for one line. -/
theorem emitFragment_eq (frag : ℕ) (hin : bv.pos ≤ 8 * bv.bytes.length) (hs : s.2.1 ≤ bv.pos) :
    ∃ sentence : Sentence, sentence.number = frag ∧ sentence.OneOf fragments seq ∧
      sentence.bits = slice bv.bytes s.2.1 (min (bv.pos - s.2.1) 360) ∧
      emitFragment bv talker channel fragments seq s frag =
        (s.1 ++ sentence.text talker channel, s.2.1 + min (bv.pos - s.2.1) 360, s.2.2 + 1) := by
  obtain ⟨n, hn⟩ : ∃ n, n = min (bv.pos - s.2.1) 360 := ⟨_, rfl⟩
  obtain ⟨hbits, hfill, hletters⟩ := @armour_bits bv.bytes s.2.1 n (by omega)
  have hslice := @length_slice bv.bytes s.2.1 n (by omega)
  have hlength := congrArg List.length hbits
  rw [length_join, List.length_map, List.length_append, List.length_replicate, hslice] at hlength
  refine ⟨⟨fragments, frag, seq, (armour bv.bytes s.2.1 n).1, (armour bv.bytes s.2.1 n).2⟩, rfl,
    ⟨rfl, rfl, by dsimp only; omega, hfill, hletters⟩, ?_, ?_⟩
  · rw [Sentence.bits, ← hn, hbits, hlength, Nat.add_sub_cancel]
    exact List.take_left' hslice
  · rw [emitFragment, ← hn, appendAivdm_eq]
    rfl

theorem foldl_emitFragment (start count : ℕ) (hin : bv.pos ≤ 8 * bv.bytes.length)
    (hs : s.2.1 ≤ bv.pos) (hcount : bv.pos ≤ s.2.1 + 360 * count) :
    ∃ sentences : List Sentence, sentences.map Sentence.number = List.range' start count ∧
      (∀ t ∈ sentences, t.OneOf fragments seq) ∧
      sentences.flatMap Sentence.bits = slice bv.bytes s.2.1 (bv.pos - s.2.1) ∧
      (List.range' start count).foldl (emitFragment bv talker channel fragments seq) s =
        (s.1 ++ sentences.flatMap (Sentence.text talker channel), bv.pos, s.2.2 + count) := by
  induction count generalizing start s with
  | zero =>
      obtain ⟨out, offset, emitted⟩ := s
      obtain rfl : offset = bv.pos := Nat.le_antisymm hs hcount
      refine ⟨[], rfl, by simp, ?_, by simp⟩
      rw [Nat.sub_self, slice, List.take_zero]
      rfl
  | succ count ih =>
      obtain ⟨sentence, hnumber, hone, hbits, hemit⟩ :=
        @emitFragment_eq bv talker channel fragments seq s start hin hs
      obtain ⟨n, hn⟩ : ∃ n, n = min (bv.pos - s.2.1) 360 := ⟨_, rfl⟩
      rw [← hn] at hbits hemit
      obtain ⟨sentences, hnumbers, hall, hrest, hfold⟩ :=
        @ih (s.1 ++ sentence.text talker channel, s.2.1 + n, s.2.2 + 1) (start + 1)
          (by dsimp only; omega) (by dsimp only; omega)
      refine ⟨sentence :: sentences, ?_, ?_, ?_, ?_⟩
      · rw [List.map_cons, hnumber, hnumbers, List.range'_succ]
      · rw [List.forall_mem_cons]
        exact ⟨hone, hall⟩
      · rw [List.flatMap_cons, hbits, hrest, ← slice_add]
        congr 1
        dsimp only
        omega
      · rw [List.range'_succ, List.foldl_cons, hemit, hfold, List.flatMap_cons, List.append_assoc]
        congr 2
        dsimp only
        omega

end

/-- What the sentences of a message are, with their digit: all of its bits in all of them. -/
structure Carries (l : List Bool) (digit : Option Char) (sentences : List Sentence) : Prop where
  numbers : sentences.map Sentence.number = List.range' 1 ((l.length + 359) / 360)
  oneOf : ∀ s ∈ sentences, s.OneOf ((l.length + 359) / 360) digit
  bits_eq : sentences.flatMap Sentence.bits = l

/-- The counter behind a message, and the digit of its sentences. -/
def nextDigit (l : List Bool) (c : UInt8) : UInt8 × Option Char :=
  if 360 < l.length then ((c + 1) % 10, some (seqDigit ((c + 1) % 10))) else (c, none)

theorem emitSentences_carries {bv : BitVector} {l : List Bool} (h : bv.Holds l) (hne : l ≠ [])
    (talker : List Char) (channel : Char) (c : UInt8) (out : List Char) :
    ∃ sentences, Carries l (nextDigit l c).2 sentences ∧
      emitSentences out bv talker channel c =
        (out ++ sentences.flatMap (Sentence.text talker channel), (nextDigit l c).1,
          sentences.length) := by
  have hpos := List.length_pos_iff.mpr hne
  have hroom := congrArg List.length h.join_eq
  rw [length_join, List.length_map, List.length_append] at hroom
  obtain ⟨sentences, hnumbers, hone, hbits, hfold⟩ := @foldl_emitFragment bv talker
    channel ((bv.pos + 359) / 360) (nextDigit l c).2 (out, 0, 0) 1 ((bv.pos + 359) / 360)
    (by rw [h.pos_eq, hroom]; exact Nat.le_add_right _ _) (Nat.zero_le _) (by dsimp only; omega)
  have hslice : slice bv.bytes 0 (bv.pos - 0) = l := by
    rw [slice, h.join_eq, Nat.sub_zero, h.pos_eq, List.drop_zero, List.take_left]
  rw [hslice] at hbits
  have hlength := congrArg List.length hnumbers
  rw [List.length_map, List.length_range'] at hlength
  refine ⟨sentences, ⟨?_, ?_, hbits⟩, ?_⟩
  · rw [hnumbers, h.pos_eq]
  · rw [← h.pos_eq]
    exact hone
  · have hcounter : (if (bv.pos + 359) / 360 > 1 then
        ((c + 1) % 10, some (seqDigit ((c + 1) % 10))) else (c, none)) = nextDigit l c := by
      rw [nextDigit, ← h.pos_eq]
      by_cases hmany : 360 < bv.pos
      · rw [if_pos hmany, if_pos (by omega)]
      · rw [if_neg hmany, if_neg (by omega)]
    rw [emitSentences, if_neg (by rw [h.pos_eq]; exact Nat.ne_of_gt hpos)]
    dsimp only
    rw [hcounter, hfold, hlength, Nat.zero_add]

/-- A message, as it is handed to the vector and the sentences. -/
structure Message where
  calls : List Call
  talker : List Char
  channel : Char
deriving DecidableEq, Repr

def Message.bits (m : Message) : List Bool := m.calls.flatMap Call.bits

/-- The numbers have widths, and the vector has room. -/
structure Message.Fits (m : Message) : Prop where
  calls : ∀ c ∈ m.calls, c.Fits
  nonempty : 1 ≤ m.bits.length
  room : m.bits.length ≤ 1808

/-- Messages behind one another, with the counter of all; none where the vector is full. -/
def emitMessages (s : List Char × UInt8) (messages : List Message) :
    Option (List Char × UInt8) :=
  messages.foldlM (fun s m => (packed m.calls).map fun bv =>
    let r := emitSentences s.1 bv m.talker m.channel s.2
    (r.1, r.2.1)) s

/-- The digit of messages of more than one sentence. -/
def commonDigit (sentences : List Sentence) : Option Char := sentences.head?.bind Sentence.digit

theorem Carries.commonDigit_eq {l : List Bool} {digit : Option Char} {sentences : List Sentence}
    (h : Carries l digit sentences) (hne : l ≠ []) : commonDigit sentences = digit := by
  have hpos := List.length_pos_iff.mpr hne
  cases sentences with
  | nil =>
      have hlength := congrArg List.length h.numbers
      rw [List.map_nil, List.length_nil, List.length_range'] at hlength
      omega
  | cons s sentences =>
      rw [commonDigit, List.head?_cons, Option.bind_some]
      exact (h.oneOf s List.mem_cons_self).digit_eq

/-- Another digit than before, and the counter stays one. -/
theorem seqDigit_succ {c : UInt8} (hc : c < 10) :
    (c + 1) % 10 < 10 ∧ seqDigit c ≠ seqDigit ((c + 1) % 10) := by
  have hall : ∀ n < 10, (UInt8.ofNat n + 1) % 10 < 10 ∧
      seqDigit (UInt8.ofNat n) ≠ seqDigit ((UInt8.ofNat n + 1) % 10) := by decide
  have h := hall c.toNat (UInt8.lt_iff_toNat_lt.mp hc)
  rwa [UInt8.ofNat_toNat] at h

/-- The vector of every message holds its bits, and its sentences carry them: numbered, with the
digit that the message before did not have, and each with its checksum. -/
theorem armoured_exact (messages : List Message) (hfits : ∀ m ∈ messages, m.Fits) (c : UInt8)
    (hc : c < 10) (out : List Char) :
    (∀ m ∈ messages, ∃ bv, packed m.calls = some bv ∧ bv.Holds m.bits) ∧
    ∃ c' < 10, ∃ groups : List (List Sentence),
      emitMessages (out, c) messages = some (out ++ (List.zipWith
        (fun m sentences => sentences.flatMap (Sentence.text m.talker m.channel))
          messages groups).flatten, c') ∧
      List.Forall₂ (fun m sentences => ∃ digit, Carries m.bits digit sentences ∧
        (digit.isSome ↔ 360 < m.bits.length)) messages groups ∧
      List.IsChain (· ≠ ·) (seqDigit c :: groups.filterMap commonDigit) := by
  constructor
  · intro m hm
    exact packed_holds (hfits m hm).calls (hfits m hm).room
  · induction messages generalizing c out with
    | nil => exact ⟨c, hc, [], by simp [emitMessages], .nil, .singleton _⟩
    | cons m messages ih =>
        rw [List.forall_mem_cons] at hfits
        obtain ⟨bv, hpacked, hholds⟩ : ∃ bv, packed m.calls = some bv ∧ bv.Holds m.bits :=
          packed_holds hfits.1.calls hfits.1.room
        have hne : m.bits ≠ [] := List.length_pos_iff.mp hfits.1.nonempty
        obtain ⟨sentences, hcarries, hemit⟩ :=
          emitSentences_carries hholds hne m.talker m.channel c out
        have hdigit := hcarries.commonDigit_eq hne
        have hnext : (nextDigit m.bits c).1 < 10 := by
          rw [nextDigit]
          split_ifs
          · exact (seqDigit_succ hc).1
          · exact hc
        obtain ⟨c', hc', groups, hrun, hall, hchain⟩ := ih hfits.2 (nextDigit m.bits c).1 hnext
          (out ++ sentences.flatMap (Sentence.text m.talker m.channel))
        refine ⟨c', hc', sentences :: groups, ?_, .cons ⟨_, hcarries, ?_⟩ hall, ?_⟩
        · rw [emitMessages, List.foldlM_cons, hpacked, Option.map_some, hemit]
          rw [List.zipWith_cons_cons, List.flatten_cons, ← List.append_assoc]
          exact hrun
        · rw [nextDigit]
          split_ifs with hmany <;> simp [hmany]
        · rw [List.filterMap_cons, hdigit]
          rw [nextDigit] at hchain ⊢
          split_ifs at hchain ⊢ with hmany
          · exact .cons_cons (seqDigit_succ hc).2 hchain
          · exact hchain

/-- Of two sentences. -/
def longMessage : Message := ⟨[.int (-1) 64, .string [] 301], "VDM".toList, 'A'⟩

def shortMessage : Message := ⟨[.int 5 6], "VDM".toList, 'A'⟩

/-- A long message and a short one, behind the last of the digits. -/
theorem armoured_exact_two :
    ∃ c' < 10, ∃ sentences rest : List Sentence,
      emitMessages ([], 9) [longMessage, shortMessage] =
        some (sentences.flatMap (Sentence.text "VDM".toList 'A') ++
          rest.flatMap (Sentence.text "VDM".toList 'A'), c') ∧
      rest.flatMap Sentence.bits = [false, false, false, true, false, true] := by
  have hlong : longMessage.Fits := ⟨by decide, by decide +kernel, by decide +kernel⟩
  have hshort : shortMessage.Fits := ⟨by decide, by decide, by decide⟩
  have hfits : ∀ m ∈ [longMessage, shortMessage], m.Fits := by
    rw [List.forall_mem_cons, List.forall_mem_singleton]
    exact ⟨hlong, hshort⟩
  obtain ⟨-, c', hc', groups, hrun, hall, -⟩ :=
    armoured_exact [longMessage, shortMessage] hfits 9 (by decide) []
  obtain ⟨sentences, behind, -, hbehind, rfl⟩ := List.forall₂_cons_left_iff.mp hall
  obtain ⟨rest, none, ⟨digit, hcarries, -⟩, hnone, rfl⟩ := List.forall₂_cons_left_iff.mp hbehind
  obtain rfl := List.forall₂_nil_left_iff.mp hnone
  have hbits : shortMessage.bits = [false, false, false, true, false, true] := by decide
  refine ⟨c', hc', sentences, rest, ?_, hcarries.bits_eq.trans hbits⟩
  rw [hrun, List.nil_append, List.zipWith_cons_cons, List.zipWith_cons_cons, List.zipWith_nil_left,
    List.flatten_cons, List.flatten_cons, List.flatten_nil, List.append_nil]
  rfl

end Ais

end Canboat
