import Canboat.Format.Instant
import Canboat.Format.Lines
import Canboat.Lib.BitString

/-!
# Base64 of the iKonvert

The writer beside the reader, and RFC 4648 as bits: the bytes and the letters are the same bits in
groups of eight and of six, filled up with zeros, and the padding fills up the last four letters.
-/

namespace Canboat

open BitString

namespace Ikonvert

def TABLE : List Char :=
  "ABCDEFGHIJKLMNOPQRSTUVWXYZabcdefghijklmnopqrstuvwxyz0123456789+/".toList

/-- The letter of six bits. -/
def tableChar (n : UInt32) : Char := TABLE.getD n.toNat 'A'

def b64Encode : List UInt8 → List Char
  | a :: b :: c :: bytes =>
      let n := (a.toUInt32 <<< 16) ||| (b.toUInt32 <<< 8) ||| c.toUInt32
      tableChar ((n >>> 18) &&& 63) :: tableChar ((n >>> 12) &&& 63) ::
        tableChar ((n >>> 6) &&& 63) :: tableChar (n &&& 63) :: b64Encode bytes
  | [a, b] =>
      let n := (a.toUInt32 <<< 16) ||| (b.toUInt32 <<< 8)
      [tableChar ((n >>> 18) &&& 63), tableChar ((n >>> 12) &&& 63),
        tableChar ((n >>> 6) &&& 63), '=']
  | [a] =>
      let n := a.toUInt32 <<< 16
      [tableChar ((n >>> 18) &&& 63), tableChar ((n >>> 12) &&& 63), '=', '=']
  | [] => []

example : String.ofList (b64Encode (utf8Bytes "fooba".toList)) = "Zm9vYmE=" := by decide +kernel

/-! ## RFC 4648 -/

/-- The letter of six bits, as a byte. -/
def letter (n : ℕ) : UInt8 := UInt8.ofNat (TABLE.getD n 'A').toNat

/-- The letters of some bytes, and the padding behind them. -/
structure Spelling (x text : List UInt8) (sextets : List ℕ) (pad unused : ℕ) : Prop where
  text_eq : text = sextets.map letter ++ List.replicate pad 0x3d
  small : ∀ n ∈ sextets, n < 64
  bits_eq : join 6 sextets = join 8 (x.map UInt8.toNat) ++ List.replicate unused false
  unused_lt : unused < 6
  groups : (sextets.length + pad) % 4 = 0
  pad_lt : pad < 4

/-- The text is the encoding of the bytes. -/
def Encodes (x text : List UInt8) : Prop :=
  ∃ sextets pad unused, Spelling x text sextets pad unused

/-- The six bits of a byte of text. -/
def sextet (b : UInt8) : ℕ := ((b64Value b).map fun r => r.1.toNat).getD 0

/-- Padding is only the last one or two of the letters, and no bits are lost to it. -/
def WellPadded (text : List UInt8) : Prop :=
  ∃ body pad, text = body ++ List.replicate pad 0x3d ∧ 0x3d ∉ body ∧ pad ≤ 2 ∧
    ∀ b ∈ body.getLast?, sextet b % 4 ^ pad = 0

/-- The reader accepts the encodings, and only them. -/
def Strict (s : List Char) : Prop :=
  ∃ r, b64Decode s = .ok r ∧ ∀ x, r = some x ↔ Encodes x (utf8Bytes (trim s))

/-- The text has no whole groups, or a byte that is no letter, or it is well padded. -/
def StrictlyRead (s : List Char) : Prop :=
  (utf8Bytes (trim s)).length % 4 = 0 → (∀ b ∈ utf8Bytes (trim s), (b64Value b).isSome) →
    WellPadded (utf8Bytes (trim s))

/-! ## Groups of bits -/

theorem letter_value : ∀ n < 64, b64Value (letter n) = some (UInt32.ofNat n, false) := by
  decide +kernel

theorem letter_ne_pad : ∀ n < 64, letter n ≠ 0x3d := by decide +kernel

theorem sextet_letter {n : ℕ} (hn : n < 64) : sextet (letter n) = n := by
  rw [sextet, letter_value n hn, Option.map_some, Option.getD_some, UInt32.toNat_ofNat',
    Nat.mod_eq_of_lt (by omega)]

/-- A letter is the one of its six bits. -/
theorem letter_sextet {b : UInt8} (hb : (b64Value b).isSome) (hpad : b ≠ 0x3d) :
    sextet b < 64 ∧ letter (sextet b) = b := by
  have hall : ∀ n < 256, (b64Value (UInt8.ofNat n)).isSome → UInt8.ofNat n ≠ 0x3d →
      sextet (UInt8.ofNat n) < 64 ∧ letter (sextet (UInt8.ofNat n)) = UInt8.ofNat n := by
    decide +kernel
  have h := hall b.toNat b.toNat_lt
  rw [UInt8.ofNat_toNat] at h
  exact h hb hpad

theorem sextet_lt {b : UInt8} {r : UInt32 × Bool} (hb : b64Value b = some r) :
    r.1.toNat = sextet b ∧ sextet b < 64 := by
  have hsextet : sextet b = r.1.toNat := by
    rw [sextet, hb]
    rfl
  refine ⟨hsextet.symm, ?_⟩
  by_cases hpad : b = 0x3d
  · subst hpad
    decide
  · exact (letter_sextet (by rw [hb]; rfl) hpad).1

/-- Twenty-four bits, in three groups and in four. -/
theorem join_three_four (m : ℕ) :
    join 8 [m / 65536 % 256, m / 256 % 256, m % 256] =
      join 6 [m / 262144 % 64, m / 4096 % 64, m / 64 % 64, m % 64] := by
  have hthree : join 8 [m / 65536 % 256, m / 256 % 256, m % 256] = bits 24 m := by
    rw [bits_add 8 16, bits_add 8 8, ← bits_mod 8 (m / 2 ^ 16), ← bits_mod 8 (m / 2 ^ 8),
      ← bits_mod 8 m]
    simp only [join_cons, join_nil, List.append_nil]
    rfl
  have hfour : join 6 [m / 262144 % 64, m / 4096 % 64, m / 64 % 64, m % 64] = bits 24 m := by
    rw [bits_add 6 18, bits_add 6 12, bits_add 6 6, ← bits_mod 6 (m / 2 ^ 18),
      ← bits_mod 6 (m / 2 ^ 12), ← bits_mod 6 (m / 2 ^ 6), ← bits_mod 6 m]
    simp only [join_cons, join_nil, List.append_nil]
    rfl
  rw [hthree, hfour]

theorem toNat_byte (m : UInt32) (s : UInt32) {k : ℕ} (hs : s.toNat = k) (hk : k < 32) :
    ((m >>> s) &&& 0xff).toUInt8.toNat = m.toNat / 2 ^ k % 256 := by
  rw [toUInt8_and_mask _ _ (show (0xff : UInt32).toNat = 2 ^ 8 - 1 from rfl) (by decide),
    toNat_shiftRight m s hs hk]
  rfl

theorem toNat_sextet (m : UInt32) (s : UInt32) {k : ℕ} (hs : s.toNat = k) (hk : k < 32) :
    ((m >>> s) &&& 63).toNat = m.toNat / 2 ^ k % 64 := by
  rw [toNat_and_mask _ _ (show (63 : UInt32).toNat = 2 ^ 6 - 1 from rfl),
    toNat_shiftRight m s hs hk]
  rfl

/-- The bits of a group of letters are the bits of its bytes. -/
theorem group_decoded {a b c d : UInt32} (ha : a.toNat < 64) (hb : b.toNat < 64)
    (hc : c.toNat < 64) (hd : d.toNat < 64) {m : UInt32}
    (hm : m = (a <<< 18) ||| (b <<< 12) ||| (c <<< 6) ||| d) :
    join 8 [((m >>> 16) &&& 0xff).toUInt8.toNat, ((m >>> 8) &&& 0xff).toUInt8.toNat,
      (m &&& 0xff).toUInt8.toNat] = join 6 [a.toNat, b.toNat, c.toNat, d.toNat] := by
  have hvalue : m.toNat = a.toNat * 262144 + b.toNat * 4096 + c.toNat * 64 + d.toNat := by
    have ha' : (a <<< 18).toNat = a.toNat * 2 ^ 18 :=
      toNat_shiftLeft a 18 rfl (by decide) (by omega)
    have hb' : (b <<< 12).toNat = b.toNat * 2 ^ 12 :=
      toNat_shiftLeft b 12 rfl (by decide) (by omega)
    have hc' : (c <<< 6).toNat = c.toNat * 2 ^ 6 :=
      toNat_shiftLeft c 6 rfl (by decide) (by omega)
    have h₁ : d.toNat ||| c.toNat * 2 ^ 6 = d.toNat + c.toNat * 2 ^ 6 := or_mul_two_pow hd
    have h₂ : d.toNat + c.toNat * 2 ^ 6 ||| b.toNat * 2 ^ 12 =
        d.toNat + c.toNat * 2 ^ 6 + b.toNat * 2 ^ 12 := or_mul_two_pow (by omega)
    have h₃ : d.toNat + c.toNat * 2 ^ 6 + b.toNat * 2 ^ 12 ||| a.toNat * 2 ^ 18 =
        d.toNat + c.toNat * 2 ^ 6 + b.toNat * 2 ^ 12 + a.toNat * 2 ^ 18 :=
      or_mul_two_pow (by omega)
    rw [hm, UInt32.toNat_or, UInt32.toNat_or, UInt32.toNat_or, ha', hb', hc', Nat.lor_assoc,
      Nat.lor_comm, Nat.lor_comm (c.toNat * 2 ^ 6), h₁, Nat.lor_comm (a.toNat * 2 ^ 18),
      ← Nat.lor_assoc, h₂, h₃]
    ring
  have hlow : (m &&& 0xff).toUInt8.toNat = m.toNat % 256 :=
    toUInt8_and_mask _ _ (show (0xff : UInt32).toNat = 2 ^ 8 - 1 from rfl) (by decide)
  rw [toNat_byte m 16 rfl (by decide), toNat_byte m 8 rfl (by decide), hlow]
  have h := join_three_four m.toNat
  have h₁ : m.toNat / 262144 % 64 = a.toNat := by omega
  have h₂ : m.toNat / 4096 % 64 = b.toNat := by omega
  have h₃ : m.toNat / 64 % 64 = c.toNat := by omega
  have h₄ : m.toNat % 64 = d.toNat := by omega
  rw [h₁, h₂, h₃, h₄] at h
  exact h

/-- The bits of three bytes are the bits of their letters. -/
theorem group_encoded (a b c : UInt8) {n : UInt32}
    (hn : n = (a.toUInt32 <<< 16) ||| (b.toUInt32 <<< 8) ||| c.toUInt32) :
    join 6 [((n >>> 18) &&& 63).toNat, ((n >>> 12) &&& 63).toNat, ((n >>> 6) &&& 63).toNat,
      (n &&& 63).toNat] = join 8 [a.toNat, b.toNat, c.toNat] := by
  have ha := a.toNat_lt
  have hb := b.toNat_lt
  have hc := c.toNat_lt
  have hvalue : n.toNat = a.toNat * 65536 + b.toNat * 256 + c.toNat := by
    rw [hn, toNat_three_bytes]
  have hlow : (n &&& 63).toNat = n.toNat % 64 :=
    toNat_and_mask _ _ (show (63 : UInt32).toNat = 2 ^ 6 - 1 from rfl)
  rw [toNat_sextet n 18 rfl (by decide), toNat_sextet n 12 rfl (by decide),
    toNat_sextet n 6 rfl (by decide), hlow]
  have h := join_three_four n.toNat
  have h₁ : n.toNat / 65536 % 256 = a.toNat := by omega
  have h₂ : n.toNat / 256 % 256 = b.toNat := by omega
  have h₃ : n.toNat % 256 = c.toNat := by omega
  rw [h₁, h₂, h₃] at h
  exact h.symm

/-! ## Reading -/

theorem b64Value_sextet {b : UInt8} {r : UInt32 × Bool} (hb : b64Value b = some r) :
    r.1.toNat = sextet b ∧ r.1.toNat < 64 := by
  obtain ⟨heq, hlt⟩ := sextet_lt hb
  exact ⟨heq, heq ▸ hlt⟩

/-- What is read has the bits of the letters. -/
theorem decodeGroups_bits {text : List UInt8} (hlen : text.length % 4 = 0)
    {r : List UInt8 × ℕ} (h : decodeGroups text = some r) :
    join 8 (r.1.map UInt8.toNat) = join 6 (text.map sextet) := by
  induction text using decodeGroups.induct generalizing r with
  | case1 a b c d text ih =>
      simp only [decodeGroups, Option.bind_eq_bind, Option.bind_eq_some_iff] at h
      obtain ⟨va, ha, vb, hb, vc, hc, vd, hd, s, hs, h⟩ := h
      obtain ⟨hva, hla⟩ := b64Value_sextet ha
      obtain ⟨hvb, hlb⟩ := b64Value_sextet hb
      obtain ⟨hvc, hlc⟩ := b64Value_sextet hc
      obtain ⟨hvd, hld⟩ := b64Value_sextet hd
      have hgroup := group_decoded hla hlb hlc hld rfl
      obtain rfl := Option.some.inj h
      simp only [List.length_cons] at hlen
      have hrest := ih (by omega) hs
      rw [hva, hvb, hvc, hvd] at hgroup
      simp only [List.map_cons, join_cons, hrest]
      simp only [join_cons, join_nil, List.append_nil] at hgroup
      rw [← List.append_assoc, ← List.append_assoc, List.append_assoc (bits 8 _), hgroup]
      simp only [List.append_assoc]
  | case2 text hshort =>
      rw [eq_nil_of_short hlen hshort] at h ⊢
      obtain rfl := Option.some.inj h
      rfl

theorem sextet_pad : sextet 0x3d = 0 := rfl

theorem map_sextet_letters {sextets : List ℕ} (h : ∀ n ∈ sextets, n < 64) :
    (sextets.map letter).map sextet = sextets := by
  rw [List.map_map]
  conv_rhs => rw [← List.map_id sextets]
  exact List.map_congr_left fun n hn => sextet_letter (h n hn)

/-- The padding leaves two bits for each of it. -/
theorem Spelling.lengths {x text : List UInt8} {sextets : List ℕ} {pad unused : ℕ}
    (h : Spelling x text sextets pad unused) :
    unused = 2 * pad ∧ pad ≤ 2 ∧ 6 * sextets.length = 8 * x.length + unused ∧
      text.length = sextets.length + pad := by
  have hbits := congrArg List.length h.bits_eq
  rw [length_join, List.length_append, length_join, List.length_map, List.length_replicate] at hbits
  have htext := congrArg List.length h.text_eq
  rw [List.length_append, List.length_map, List.length_replicate] at htext
  have h₁ := h.unused_lt
  have h₂ := h.groups
  have h₃ := h.pad_lt
  refine ⟨by omega, by omega, hbits, htext⟩

theorem Spelling.decodes {x text : List UInt8} {sextets : List ℕ} {pad unused : ℕ}
    (h : Spelling x text sextets pad unused) :
    decodeGroups text = some (x ++ List.replicate pad 0, pad) := by
  obtain ⟨hunused, hpad, hlen, htext⟩ := h.lengths
  have hgroups : text.length % 4 = 0 := by
    rw [htext]
    exact h.groups
  have hletters : ∀ b ∈ text, (b64Value b).isSome := by
    rw [h.text_eq, List.forall_mem_append]
    constructor
    · intro b hb
      obtain ⟨n, hn, rfl⟩ := List.mem_map.mp hb
      rw [letter_value n (h.small n hn)]
      rfl
    · intro b hb
      rw [List.eq_of_mem_replicate hb]
      rfl
  obtain ⟨out, hout, -⟩ := decodeGroups_eq text hgroups hletters
  have hcount : text.count 0x3d = pad := by
    have hnone : (sextets.map letter).count 0x3d = 0 := by
      rw [List.count_eq_zero]
      intro hmem
      obtain ⟨n, hn, heq⟩ := List.mem_map.mp hmem
      exact letter_ne_pad n (h.small n hn) heq
    rw [h.text_eq, List.count_append, hnone, List.count_replicate_self, Nat.zero_add]
  have hsextets : text.map sextet = sextets ++ List.replicate pad 0 := by
    rw [h.text_eq, List.map_append, map_sextet_letters h.small, List.map_replicate, sextet_pad]
  have hbits := decodeGroups_bits hgroups hout
  have hzeros : (List.replicate pad (0 : UInt8)).map UInt8.toNat = List.replicate pad 0 := by
    rw [List.map_replicate]
    rfl
  -- the unused bits and the padding make whole bytes of zeros
  have hbytes : join 8 (out.map UInt8.toNat) =
      join 8 ((x ++ List.replicate pad 0).map UInt8.toNat) := by
    rw [hbits, hsextets, join_append, h.bits_eq, List.append_assoc, join_replicate_zero,
      List.replicate_append_replicate, List.map_append, hzeros, join_append, join_replicate_zero,
      hunused]
    congr 2
    ring
  have hlt : ∀ l : List UInt8, ∀ n ∈ l.map UInt8.toNat, n < 2 ^ 8 := by
    intro l n hn
    obtain ⟨b, -, rfl⟩ := List.mem_map.mp hn
    exact b.toNat_lt
  have heq := join_inj (by decide) (hlt _) (hlt _) hbytes
  rw [hout, hcount, List.map_injective_iff.mpr (fun a b => UInt8.toNat_inj.mp) heq]

/-- The encoding is read as what it encodes. -/
theorem b64Decode_of_encodes {x : List UInt8} {s : List Char}
    (h : Encodes x (utf8Bytes (trim s))) : b64Decode s = .ok (some x) := by
  obtain ⟨sextets, pad, unused, h⟩ := h
  obtain ⟨-, -, hlen, htext⟩ := h.lengths
  have hdecodes := h.decodes
  have hgroups := h.groups
  rw [← htext] at hgroups
  rw [b64Decode]
  split_ifs with hempty hodd
  · have hnone : utf8Bytes (trim s) = [] := by
      rw [hempty]
      rfl
    rw [hnone, List.length_nil] at htext
    have hx : x = [] := List.eq_nil_of_length_eq_zero (by omega)
    rw [hx]
  · exact absurd hgroups hodd
  · rw [hdecodes]
    dsimp only
    split_ifs with hpad
    · have hsub : checkedSub (x ++ List.replicate pad 0).length pad = .ok x.length := by
        rw [checkedSub_ok_iff, List.length_append, List.length_replicate]
        omega
      rw [hsub]
      show Except.ok (some ((x ++ List.replicate pad 0).take x.length)) = _
      rw [List.take_left]
    · obtain rfl : pad = 0 := Nat.eq_zero_of_not_pos hpad
      rw [List.replicate_zero, List.append_nil]

/-- A well padded text of letters is the encoding of some bytes. -/
theorem encodes_of_wellPadded {text : List UInt8} (hgroups : text.length % 4 = 0)
    (hletters : ∀ b ∈ text, (b64Value b).isSome) (h : WellPadded text) :
    ∃ x, Encodes x text := by
  obtain ⟨body, pad, rfl, hbody, hpad, hlast⟩ := h
  obtain ⟨out, hout, hlen⟩ := decodeGroups_eq _ hgroups hletters
  have hbits := decodeGroups_bits hgroups hout
  rw [List.length_append, List.length_replicate] at hgroups hlen
  rw [List.map_append, List.map_replicate, sextet_pad, join_append, join_replicate_zero] at hbits
  rw [List.forall_mem_append] at hletters
  have hsame : (body.map sextet).map letter = body := by
    rw [List.map_map]
    conv_rhs => rw [← List.map_id body]
    apply List.map_congr_left
    intro b hb
    exact (letter_sextet (hletters.1 b hb) fun heq => hbody (heq ▸ hb)).2
  have hsmall : ∀ n ∈ body.map sextet, n < 64 := by
    intro n hn
    obtain ⟨b, hb, rfl⟩ := List.mem_map.mp hn
    exact (letter_sextet (hletters.1 b hb) fun heq => hbody (heq ▸ hb)).1
  -- the bits of the last letter that no byte takes are zeros
  have hzeros : ∃ used, join 6 (body.map sextet) = used ++ List.replicate (2 * pad) false := by
    cases hb : body.getLast? with
    | none =>
        rw [List.getLast?_eq_none_iff] at hb
        subst hb
        rw [List.length_nil, Nat.zero_add] at hgroups
        obtain rfl : pad = 0 := by omega
        exact ⟨[], rfl⟩
    | some b =>
        obtain ⟨init, rfl⟩ := List.getLast?_eq_some_iff.mp hb
        have hdivides : sextet b % 2 ^ (2 * pad) = 0 := by
          rw [pow_mul]
          exact hlast b (by rw [hb]; rfl)
        have hlow : bits (2 * pad) (sextet b) = List.replicate (2 * pad) false := by
          rw [← bits_mod, hdivides, bits_zero]
        have hsplit : bits 6 (sextet b) =
            bits (6 - 2 * pad) (sextet b / 2 ^ (2 * pad)) ++ List.replicate (2 * pad) false := by
          rw [← hlow, ← bits_add, Nat.sub_add_cancel (by omega)]
        refine ⟨join 6 (init.map sextet) ++ bits (6 - 2 * pad) (sextet b / 2 ^ (2 * pad)), ?_⟩
        rw [List.map_append, join_append, List.map_singleton, join_cons, join_nil,
          List.append_nil, hsplit, List.append_assoc]
  obtain ⟨used, hused⟩ := hzeros
  have husedLen : used.length + 2 * pad = 6 * body.length := by
    have h := congrArg List.length hused
    rw [length_join, List.length_map, List.length_append, List.length_replicate] at h
    exact h.symm
  refine ⟨out.take (out.length - pad), body.map sextet, pad, 2 * pad, ?_, hsmall, ?_, by omega,
    by rw [List.length_map]; exact hgroups, by omega⟩
  · rw [hsame]
  · rw [List.map_take, ← join_take, hbits, hused]
    congr 1
    rw [List.append_assoc, List.take_left']
    omega

/-- The encodings are well padded texts of letters. -/
theorem wellPadded_of_encodes {x text : List UInt8} (h : Encodes x text) : WellPadded text := by
  obtain ⟨sextets, pad, unused, h⟩ := h
  obtain ⟨hunused, hpad, hlen, -⟩ := h.lengths
  refine ⟨sextets.map letter, pad, h.text_eq, ?_, hpad, ?_⟩
  · intro hmem
    obtain ⟨n, hn, heq⟩ := List.mem_map.mp hmem
    exact letter_ne_pad n (h.small n hn) heq
  · intro b hb
    rw [List.getLast?_map, Option.mem_def, Option.map_eq_some_iff] at hb
    obtain ⟨n, hn, rfl⟩ := hb
    obtain ⟨init, rfl⟩ := List.getLast?_eq_some_iff.mp hn
    have hsmall := h.small n (List.mem_append_right _ (List.mem_singleton_self n))
    have hbits := h.bits_eq
    have hsplit : bits 6 n = bits (6 - unused) (n / 2 ^ unused) ++ bits unused n := by
      rw [← bits_add, Nat.sub_add_cancel (Nat.le_of_lt h.unused_lt)]
    rw [join_append, join_cons, join_nil, List.append_nil, hsplit, ← List.append_assoc] at hbits
    have hlow := (List.append_inj' hbits (by rw [length_bits, List.length_replicate])).2
    have hvalue := congrArg value hlow
    rw [value_bits, ← bits_zero, value_bits, Nat.zero_mod] at hvalue
    rw [sextet_letter hsmall, show 4 = 2 ^ 2 from rfl, ← pow_mul, ← hunused]
    exact hvalue

/-- The reader is strict just where the padding of whole groups of letters is. -/
theorem strict_iff (s : List Char) : Strict s ↔ StrictlyRead s := by
  constructor
  · rintro ⟨r, hr, hiff⟩ hgroups hletters
    obtain ⟨out, hout, -⟩ := decodeGroups_eq _ hgroups hletters
    have hsome : ∃ x, r = some x := by
      rw [b64Decode] at hr
      split_ifs at hr with hempty hodd
      · exact ⟨[], (Except.ok.inj hr).symm⟩
      · exact absurd hgroups hodd
      · rw [hout] at hr
        dsimp only at hr
        split_ifs at hr with hpad
        · obtain ⟨n, -, hr⟩ := Fault.bind_ok_iff.mp hr
          exact ⟨_, (Except.ok.inj hr).symm⟩
        · exact ⟨_, (Except.ok.inj hr).symm⟩
    obtain ⟨x, rfl⟩ := hsome
    exact wellPadded_of_encodes ((hiff x).mp rfl)
  · intro h
    by_cases hgroups : (utf8Bytes (trim s)).length % 4 = 0
    · by_cases hletters : ∀ b ∈ utf8Bytes (trim s), (b64Value b).isSome
      · obtain ⟨x, hx⟩ := encodes_of_wellPadded hgroups hletters (h hgroups hletters)
        refine ⟨some x, b64Decode_of_encodes hx, fun y => ⟨?_, fun hy => ?_⟩⟩
        · rintro ⟨⟩
          exact hx
        · have hsame := b64Decode_of_encodes hy
          rw [b64Decode_of_encodes hx] at hsame
          exact Except.ok.inj hsame
      · refine ⟨none, ?_, fun y => ⟨by rintro ⟨⟩, fun hy => ?_⟩⟩
        · rw [b64Decode]
          have hne : trim s ≠ [] := by
            intro hempty
            rw [hempty] at hletters
            exact hletters (by rintro _ ⟨⟩)
          rw [if_neg hne, if_neg (not_not.mpr hgroups)]
          cases hout : decodeGroups (utf8Bytes (trim s)) with
          | none => rfl
          | some r => exact absurd (isSome_of_decodeGroups hgroups hout) hletters
        · obtain ⟨sextets, pad, unused, hy⟩ := hy
          exact absurd (isSome_of_decodeGroups hgroups hy.decodes) hletters
    · refine ⟨none, ?_, fun y => ⟨by rintro ⟨⟩, fun hy => ?_⟩⟩
      · have hne : trim s ≠ [] := by
          intro hempty
          rw [hempty] at hgroups
          exact hgroups rfl
        rw [b64Decode, if_neg hne, if_pos hgroups]
      · obtain ⟨sextets, pad, unused, hy⟩ := hy
        have hlen := hy.groups
        rw [← hy.lengths.2.2.2] at hlen
        exact absurd hlen hgroups

/-! ## Writing -/

theorem tableChar_mem (n : UInt32) : tableChar n ∈ TABLE := by
  rw [tableChar, List.getD_eq_getElem?_getD]
  cases h : TABLE[n.toNat]? with
  | none => exact show 'A' ∈ TABLE by decide
  | some c => exact List.mem_of_getElem? h

theorem mem_b64Encode {x : List UInt8} {c : Char} (h : c ∈ b64Encode x) : c ∈ '=' :: TABLE := by
  have htable : ∀ n, tableChar n ∈ '=' :: TABLE := fun n => List.mem_cons_of_mem _ (tableChar_mem n)
  have hpad : '=' ∈ '=' :: TABLE := List.mem_cons_self
  induction x using b64Encode.induct with
  | case1 a b d bytes ih =>
      rw [b64Encode] at h
      simp only [List.mem_cons] at h
      rcases h with rfl | rfl | rfl | rfl | h
      · exact htable _
      · exact htable _
      · exact htable _
      · exact htable _
      · exact ih h
  | case2 a b =>
      rw [b64Encode] at h
      simp only [List.mem_cons, List.not_mem_nil, or_false] at h
      rcases h with rfl | rfl | rfl | rfl
      · exact htable _
      · exact htable _
      · exact htable _
      · exact hpad
  | case3 a =>
      rw [b64Encode] at h
      simp only [List.mem_cons, List.not_mem_nil, or_false] at h
      rcases h with rfl | rfl | rfl | rfl
      · exact htable _
      · exact htable _
      · exact hpad
      · exact hpad
  | case4 => cases h

theorem table_plain : ∀ c ∈ '=' :: TABLE, isWhitespace c = false ∧ c.toNat < 128 := by
  have hall : ('=' :: TABLE).all (fun c => isWhitespace c = false ∧ c.toNat < 128) = true := by
    decide
  intro c hc
  exact of_decide_eq_true (List.all_eq_true.mp hall c hc)

/-- The bytes of the text; a letter is the one of its six bits. -/
theorem utf8Bytes_b64Encode (x : List UInt8) :
    utf8Bytes (b64Encode x) = (b64Encode x).map fun c => UInt8.ofNat c.toNat :=
  Plain.utf8Bytes_ascii fun _ hc => (table_plain _ (mem_b64Encode hc)).2

theorem letter_tableChar (n : UInt32) :
    UInt8.ofNat (tableChar n).toNat = letter n.toNat := rfl

theorem trim_b64Encode (x : List UInt8) : trim (b64Encode x) = b64Encode x := by
  apply trim_eq_self
  · exact fun c hc => (table_plain c (mem_b64Encode (List.mem_of_mem_head? hc))).1
  · exact fun c hc => (table_plain c (mem_b64Encode (List.mem_of_mem_getLast? hc))).1

theorem toNat_and_lt (n : UInt32) : (n &&& 63).toNat < 64 := by
  rw [toNat_and_mask _ _ (show (63 : UInt32).toNat = 2 ^ 6 - 1 from rfl)]
  exact Nat.mod_lt _ (by decide)

theorem encodes_b64Encode (x : List UInt8) : Encodes x (utf8Bytes (b64Encode x)) := by
  rw [utf8Bytes_b64Encode]
  induction x using b64Encode.induct with
  | case1 a b c bytes ih =>
      obtain ⟨sextets, pad, unused, h⟩ := ih
      obtain ⟨n, hn⟩ : ∃ n : UInt32,
          n = (a.toUInt32 <<< 16) ||| (b.toUInt32 <<< 8) ||| c.toUInt32 := ⟨_, rfl⟩
      refine ⟨((n >>> 18) &&& 63).toNat :: ((n >>> 12) &&& 63).toNat ::
        ((n >>> 6) &&& 63).toNat :: (n &&& 63).toNat :: sextets, pad, unused, ?_, ?_, ?_,
        h.unused_lt, ?_, h.pad_lt⟩
      · rw [b64Encode, ← hn]
        simp only [List.map_cons, letter_tableChar, h.text_eq, List.cons_append]
      · simp only [List.forall_mem_cons]
        exact ⟨toNat_and_lt _, toNat_and_lt _, toNat_and_lt _, toNat_and_lt _, h.small⟩
      · have hgroup := group_encoded a b c hn
        show join 6 ([_, _, _, _] ++ sextets) =
          join 8 ([a.toNat, b.toNat, c.toNat] ++ bytes.map UInt8.toNat) ++ _
        rw [join_append, hgroup, h.bits_eq, join_append, List.append_assoc]
      · have hlen := h.groups
        simp only [List.length_cons]
        omega
  | case2 a b =>
      obtain ⟨n, heq⟩ : ∃ n : UInt32, n = (a.toUInt32 <<< 16) ||| (b.toUInt32 <<< 8) := ⟨_, rfl⟩
      -- the third byte is taken for zero, and its last six bits are no letter
      have hn : n = (a.toUInt32 <<< 16) ||| (b.toUInt32 <<< 8) ||| (0 : UInt8).toUInt32 := by
        rw [show (0 : UInt8).toUInt32 = 0 from rfl, UInt32.or_zero, heq]
      have hgroup := group_encoded a b 0 hn
      refine ⟨[((n >>> 18) &&& 63).toNat, ((n >>> 12) &&& 63).toNat, ((n >>> 6) &&& 63).toNat],
        1, 2, ?_, ?_, ?_, by decide, by simp, by decide⟩
      · rw [b64Encode, ← heq]
        rfl
      · simp only [List.forall_mem_cons, List.not_mem_nil, false_implies, implies_true, and_true]
        exact ⟨toNat_and_lt _, toNat_and_lt _, toNat_and_lt _⟩
      · have hfront := congrArg (List.take (6 * 3)) hgroup
        rw [join_take] at hfront
        simp only [List.take_succ_cons, List.take_zero] at hfront
        rw [hfront]
        simp only [join_cons, join_nil, List.append_nil, List.map_cons, List.map_nil]
        rw [← List.append_assoc, List.take_append, List.take_of_length_le (by simp)]
        simp only [List.length_append, length_bits]
        rfl
  | case3 a =>
      obtain ⟨n, heq⟩ : ∃ n : UInt32, n = a.toUInt32 <<< 16 := ⟨_, rfl⟩
      have hn : n = (a.toUInt32 <<< 16) ||| ((0 : UInt8).toUInt32 <<< 8) |||
          (0 : UInt8).toUInt32 := by
        rw [show (0 : UInt8).toUInt32 = 0 from rfl, UInt32.or_zero,
          show (0 : UInt32) <<< 8 = 0 from rfl, UInt32.or_zero, heq]
      have hgroup := group_encoded a 0 0 hn
      refine ⟨[((n >>> 18) &&& 63).toNat, ((n >>> 12) &&& 63).toNat], 2, 4, ?_, ?_, ?_,
        by decide, by simp, by decide⟩
      · rw [b64Encode, ← heq]
        rfl
      · simp only [List.forall_mem_cons, List.not_mem_nil, false_implies, implies_true, and_true]
        exact ⟨toNat_and_lt _, toNat_and_lt _⟩
      · have hfront := congrArg (List.take (6 * 2)) hgroup
        rw [join_take] at hfront
        simp only [List.take_succ_cons, List.take_zero] at hfront
        rw [hfront]
        simp only [join_cons, join_nil, List.append_nil, List.map_cons, List.map_nil]
        rw [List.take_append, List.take_of_length_le (by simp)]
        simp only [length_bits]
        rfl
  | case4 => exact ⟨[], 0, 0, rfl, nofun, rfl, by decide, rfl, by decide⟩

/-- What is written is read again, and a text is read strictly just where it is well padded, or
no whole groups of letters at all. -/
theorem b64_exact (s : List Char) :
    (∀ x, b64Decode (b64Encode x) = .ok (some x)) ∧ (Strict s ↔ StrictlyRead s) := by
  refine ⟨fun x => ?_, strict_iff s⟩
  apply b64Decode_of_encodes
  rw [trim_b64Encode]
  exact encodes_b64Encode x

/-- Padding in front is taken from the end, bits behind the last byte are dropped, and padding
alone faults. -/
theorem b64_not_strict :
    b64Decode "=ABC".toList = .ok (some [0, 0]) ∧ ¬Strict "=ABC".toList ∧
    b64Decode "Zh==".toList = .ok (some [0x66]) ∧ ¬Strict "Zh==".toList ∧
    b64Decode "====".toList = .error .overflow ∧ ¬Strict "====".toList := by
  have hfault : b64Decode "====".toList = .error .overflow := by decide +kernel
  have hfront : utf8Bytes (trim "=ABC".toList) = [0x3d, 0x41, 0x42, 0x43] := by decide +kernel
  have hlow : utf8Bytes (trim "Zh==".toList) = [0x5a, 0x68, 0x3d, 0x3d] := by decide +kernel
  refine ⟨by decide +kernel, ?_, by decide +kernel, ?_, hfault, ?_⟩
  · intro hstrict
    have hread := (strict_iff _).mp hstrict
    rw [StrictlyRead, hfront] at hread
    obtain ⟨body, pad, htext, hbody, hpad, -⟩ := hread (by decide) (by decide +kernel)
    have hlast := congrArg List.getLast? htext
    interval_cases pad
    · rw [List.replicate_zero, List.append_nil] at htext
      rw [← htext] at hbody
      exact hbody (by decide)
    · simp at hlast
    · simp at hlast
  · intro hstrict
    have hread := (strict_iff _).mp hstrict
    rw [StrictlyRead, hlow] at hread
    obtain ⟨body, pad, htext, hbody, hpad, hunused⟩ := hread (by decide) (by decide +kernel)
    have hfour := congrArg List.length htext
    rw [List.length_append, List.length_replicate] at hfour
    have hfirst := congrArg (List.take body.length) htext
    rw [List.take_left' rfl] at hfirst
    interval_cases pad
    · rw [show body.length = 4 from hfour.symm] at hfirst
      rw [← hfirst] at hbody
      exact hbody (by decide)
    · rw [show body.length = 3 from (Nat.succ.inj hfour).symm] at hfirst
      rw [← hfirst] at hbody
      exact hbody (by decide)
    · rw [show body.length = 2 from (Nat.succ.inj (Nat.succ.inj hfour)).symm] at hfirst
      rw [← hfirst] at hunused
      exact absurd (hunused 0x68 rfl) (by decide)
  · rintro ⟨r, hr, -⟩
    rw [hfault] at hr
    cases hr

end Ikonvert

end Canboat
