import Canboat.Lib.BitString
import Mathlib.Tactic.NormNum

/-!
# The bit vector of an AIS message

Numbers and texts are packed one behind the other, the highest bit first, into bytes that are
zero before.
-/

namespace Canboat

open BitString

namespace Ais

def BITVEC_BYTES : ℕ := 226

structure BitVector where
  bytes : List UInt8
  pos : ℕ
deriving DecidableEq, Repr

namespace BitVector

def new : BitVector := ⟨List.replicate BITVEC_BYTES 0, 0⟩

/-- The lowest bits of 64. -/
def lowMask (len : ℕ) : UInt64 :=
  if 64 ≤ len then 0xffffffffffffffff else ((1 : UInt64) <<< UInt64.ofNat len) - 1

/-- The turns of the loop, each up to the end of a byte; none behind the last byte. -/
def addBits : ℕ → UInt64 → ℕ → BitVector → Option BitVector
  | 0, _, _, bv => some bv
  | fuel + 1, v, len, bv =>
      if len = 0 then some bv
      else
        let i := bv.pos / 8
        let k := 8 - bv.pos % 8
        let take := min k len
        let highBits := (v >>> UInt64.ofNat (len - take)).toUInt8
        let maskLow := (((1 : UInt32) <<< UInt32.ofNat take) - 1).toUInt8
        let aligned := (highBits &&& maskLow) <<< UInt8.ofNat (k - take)
        if i < bv.bytes.length then
          addBits fuel (v &&& lowMask (len - take)) (len - take)
            ⟨bv.bytes.modify i (· ||| aligned), bv.pos + take⟩
        else none

/-- A turn takes a bit at least. -/
def addInt (bv : BitVector) (value : Int64) (len : ℕ) : Option BitVector :=
  addBits len (value.toUInt64 &&& lowMask len) len bv

/-- A character of AIS. -/
def sixBit (raw : Char) : UInt32 :=
  let c := raw.val
  if c = 0 then 0
  else if ¬(32 ≤ c ∧ c ≤ 95) then 32
  else if 64 ≤ c then c - 64
  else c

/-- Characters while there is room for one, then zeros. -/
def addString : List Char → ℕ → BitVector → Option BitVector
  | s, len + 6, bv => do
      let bv ← bv.addInt (sixBit (s.headD '\x00')).toUInt64.toInt64 6
      addString s.tail len bv
  | _, 0, bv => some bv
  | _, len, bv => bv.addInt 0 len

end BitVector

/-- A call on the vector. -/
inductive Call
  | int (value : Int64) (len : ℕ)
  | string (s : List Char) (len : ℕ)
deriving DecidableEq, Repr

def Call.run (bv : BitVector) : Call → Option BitVector
  | .int value len => bv.addInt value len
  | .string s len => bv.addString s len

def packed (calls : List Call) : Option BitVector := calls.foldlM (fun bv c => c.run bv) .new

/-- The room that a call takes. -/
def Call.width : Call → ℕ
  | .int _ len => len
  | .string _ len => len

/-- The bits that a call is for: a number in two's complement, or characters and zeros. -/
def Call.bits : Call → List Bool
  | .int value len => BitString.bits len (value.toInt % 2 ^ len).toNat
  | .string s len =>
      join 6 ((s.take (len / 6)).map fun c => (BitVector.sixBit c).toNat) ++
        List.replicate (len - 6 * (s.take (len / 6)).length) false

/-- A number has up to 64 bits. -/
def Call.Fits : Call → Prop
  | .int _ len => 1 ≤ len ∧ len ≤ 64
  | .string _ _ => True

instance (c : Call) : Decidable c.Fits := by
  cases c <;> unfold Call.Fits <;> infer_instance

example : (packed [.int (-2) 3, .string ['@', 'a'] 13]).map (fun bv => (bv.bytes.take 2, bv.pos)) =
    some ([0b11000000, 0b01000000], 16) := by decide +kernel

/-! ## Masks and shifts as numbers -/

namespace BitVector

theorem toNat_and_lowMask (v : UInt64) (len : ℕ) :
    (v &&& lowMask len).toNat = v.toNat % 2 ^ len := by
  have hv := v.toNat_lt
  rw [lowMask]
  split_ifs with hlen
  · have hle : 2 ^ 64 ≤ 2 ^ len := Nat.pow_le_pow_right (by decide) hlen
    have hones : (0xffffffffffffffff : UInt64).toNat = 2 ^ 64 - 1 := by decide
    rw [UInt64.toNat_and, hones, Nat.and_two_pow_sub_one_eq_mod, Nat.mod_eq_of_lt hv,
      Nat.mod_eq_of_lt (hv.trans_le hle)]
  · have hlt : 2 ^ len < 2 ^ 64 := Nat.pow_lt_pow_right (by decide) (by omega)
    have hshift : ((1 : UInt64) <<< UInt64.ofNat len).toNat = 2 ^ len := by
      have hnat : (UInt64.ofNat len).toNat = len := UInt64.toNat_ofNat_of_lt' (by
        rw [UInt64.size]
        omega)
      rw [UInt64.toNat_shiftLeft, hnat, Nat.mod_eq_of_lt (Nat.lt_of_not_le hlen), UInt64.toNat_one,
        Nat.one_shiftLeft, Nat.mod_eq_of_lt hlt]
    have hmask : (((1 : UInt64) <<< UInt64.ofNat len) - 1).toNat = 2 ^ len - 1 := by
      rw [UInt64.toNat_sub_of_le, hshift, UInt64.toNat_one]
      rw [UInt64.le_iff_toNat_le, hshift, UInt64.toNat_one]
      exact Nat.one_le_two_pow
    rw [UInt64.toNat_and, hmask, Nat.and_two_pow_sub_one_eq_mod]

/-- The bits of a turn, at their place in the byte. -/
theorem toNat_aligned (v : UInt64) {s t k : ℕ} (hs : s < 64) (htk : t ≤ k) (hk : k ≤ 8)
    (ht : 0 < t) :
    (((v >>> UInt64.ofNat s).toUInt8 &&& (((1 : UInt32) <<< UInt32.ofNat t) - 1).toUInt8) <<<
      UInt8.ofNat (k - t)).toNat = v.toNat / 2 ^ s % 2 ^ t * 2 ^ (k - t) := by
  have hmask : ∀ t ≤ 8, (((1 : UInt32) <<< UInt32.ofNat t) - 1).toUInt8.toNat = 2 ^ t - 1 := by
    decide
  have hshift : (v >>> UInt64.ofNat s).toUInt8.toNat = v.toNat / 2 ^ s % 2 ^ 8 := by
    have hnat : (UInt64.ofNat s).toNat = s := UInt64.toNat_ofNat_of_lt' (by
      rw [UInt64.size]
      omega)
    rw [UInt64.toNat_toUInt8, UInt64.toNat_shiftRight, hnat, Nat.mod_eq_of_lt hs,
      Nat.shiftRight_eq_div_pow]
  have hplace : (UInt8.ofNat (k - t)).toNat = k - t :=
    UInt8.toNat_ofNat_of_lt (by
      rw [UInt8.size]
      omega)
  have hand : ((v >>> UInt64.ofNat s).toUInt8 &&&
      (((1 : UInt32) <<< UInt32.ofNat t) - 1).toUInt8).toNat = v.toNat / 2 ^ s % 2 ^ t := by
    rw [UInt8.toNat_and, hmask t (htk.trans hk), hshift, Nat.and_two_pow_sub_one_eq_mod,
      Nat.mod_mod_of_dvd _ (Nat.pow_dvd_pow 2 (htk.trans hk))]
  have hlt : v.toNat / 2 ^ s % 2 ^ t * 2 ^ (k - t) < 2 ^ 8 := by
    calc v.toNat / 2 ^ s % 2 ^ t * 2 ^ (k - t) < 2 ^ t * 2 ^ (k - t) :=
          Nat.mul_lt_mul_of_pos_right (Nat.mod_lt _ (Nat.two_pow_pos t)) (Nat.two_pow_pos _)
      _ = 2 ^ k := by rw [← pow_add, Nat.add_sub_cancel' htk]
      _ ≤ 2 ^ 8 := Nat.pow_le_pow_right (by decide) hk
  rw [UInt8.toNat_shiftLeft, hand, hplace, Nat.mod_eq_of_lt (show k - t < 8 by omega), Nat.shiftLeft_eq,
    Nat.mod_eq_of_lt hlt]

/-! ## What the vector holds -/

/-- These bits, and zeros behind them. -/
structure Holds (bv : BitVector) (l : List Bool) : Prop where
  size : bv.bytes.length = BITVEC_BYTES
  pos_eq : bv.pos = l.length
  join_eq : join 8 (bv.bytes.map UInt8.toNat) = l ++ List.replicate (8 * BITVEC_BYTES - l.length) false

theorem holds_new : Holds new [] where
  size := List.length_replicate
  pos_eq := rfl
  join_eq := by
    rw [new, List.map_replicate, UInt8.toNat_zero, join_replicate_zero]
    rfl

variable {bv : BitVector} {l : List Bool}

/-- Bits in the byte at hand, behind those that are there. -/
theorem Holds.modify (h : Holds bv l) {t x : ℕ} {y : UInt8} (ht : t ≤ 8 - bv.pos % 8)
    (hx : x < 2 ^ t) (hy : y.toNat = x * 2 ^ (8 - bv.pos % 8 - t))
    (hi : bv.pos / 8 < bv.bytes.length) :
    Holds ⟨bv.bytes.modify (bv.pos / 8) (· ||| y), bv.pos + t⟩ (l ++ BitString.bits t x) := by
  obtain ⟨hsize, hpos, hjoin⟩ := h
  obtain ⟨bytes, pos⟩ := bv
  dsimp only at hsize hpos hjoin ht hy hi ⊢
  obtain ⟨i, r, hr, rfl⟩ : ∃ i r, r < 8 ∧ pos = 8 * i + r :=
    ⟨pos / 8, pos % 8, Nat.mod_lt _ (by decide), (Nat.div_add_mod pos 8).symm⟩
  have hdiv : (8 * i + r) / 8 = i := by omega
  have hmod : (8 * i + r) % 8 = r := by omega
  rw [hdiv] at hi ⊢
  rw [hmod] at ht hy
  obtain ⟨pre, b, post, rfl, rfl⟩ : ∃ pre b post, bytes = pre ++ b :: post ∧ pre.length = i :=
    ⟨bytes.take i, bytes[i], bytes.drop (i + 1), by simp, List.length_take_of_le hi.le⟩
  have hmodify : (pre ++ b :: post).modify pre.length (· ||| y) = pre ++ (b ||| y) :: post := by
    rw [List.modify_eq_take_cons_drop hi]
    simp
  rw [hmodify]
  have hwidth : 8 = r + (8 - r) := by omega
  have hlength : l.length = (join 8 (pre.map UInt8.toNat)).length + r := by
    rw [length_join, List.length_map, ← hpos]
  rw [List.map_append, List.map_cons, join_append, join_cons] at hjoin
  refine ⟨?_, by rw [List.length_append, length_bits, hpos], ?_⟩
  · rw [← hsize, List.length_append, List.length_append, List.length_cons, List.length_cons]
  · rw [List.map_append, List.map_cons, join_append, join_cons, UInt8.toNat_or, hy]
    rw [append_bits_or hwidth hjoin hlength ht hx, List.length_append, length_bits, Nat.sub_sub]

/-- The loop leaves its number, where there is room for it. -/
theorem Holds.addBits {fuel len : ℕ} (h : Holds bv l) {v : UInt64} (hfuel : len ≤ fuel)
    (hlen : len ≤ 64) (hroom : l.length + len ≤ 8 * BITVEC_BYTES) :
    ∃ bv', addBits fuel v len bv = some bv' ∧ Holds bv' (l ++ BitString.bits len v.toNat) := by
  induction fuel generalizing bv l v len with
  | zero =>
      obtain rfl : len = 0 := Nat.le_zero.mp hfuel
      exact ⟨bv, rfl, by rw [BitString.bits, List.append_nil]; exact h⟩
  | succ fuel ih =>
      by_cases hzero : len = 0
      · subst hzero
        exact ⟨bv, if_pos rfl, by rw [BitString.bits, List.append_nil]; exact h⟩
      · obtain ⟨t, ht⟩ : ∃ t, t = min (8 - bv.pos % 8) len := ⟨_, rfl⟩
        have hpos := h.pos_eq
        have hsize := h.size
        have hin : bv.pos / 8 < bv.bytes.length := by omega
        have hstep := h.modify (t := t) (x := v.toNat / 2 ^ (len - t) % 2 ^ t)
          (by omega) (Nat.mod_lt _ (Nat.two_pow_pos t))
          (toNat_aligned v (show len - t < 64 by omega) (by omega) (by omega) (by omega)) hin
        obtain ⟨bv', hrun, hholds⟩ := @ih _ _ (len - t) hstep (v &&& lowMask (len - t))
          (by omega) (by omega) (by rw [List.length_append, length_bits]; omega)
        refine ⟨bv', ?_, ?_⟩
        · rw [BitVector.addBits, if_neg hzero]
          dsimp only
          rw [← ht, if_pos hin]
          exact hrun
        · have hsplit := bits_add t (len - t) v.toNat
          rw [Nat.add_sub_cancel' (show t ≤ len by omega)] at hsplit
          rw [toNat_and_lowMask, bits_mod, bits_mod, List.append_assoc, ← hsplit] at hholds
          exact hholds

/-- The lowest bits of a number are those of its two's complement. -/
theorem toInt_emod (value : Int64) {len : ℕ} (hlen : len ≤ 64) :
    (value.toInt % 2 ^ len).toNat = value.toUInt64.toNat % 2 ^ len := by
  have hdvd : (2 : ℤ) ^ len ∣ (2 ^ 64 : ℕ) := by exact_mod_cast pow_dvd_pow 2 hlen
  have hint : value.toInt = Int.bmod (value.toUInt64.toNat : ℤ) (2 ^ 64) :=
    BitVec.toInt_eq_toNat_bmod value.toBitVec
  have hmod : value.toInt % 2 ^ len = (value.toUInt64.toNat : ℤ) % 2 ^ len := by
    have h64 : Int.bmod (value.toUInt64.toNat : ℤ) (2 ^ 64) % (2 ^ 64 : ℕ) =
        (value.toUInt64.toNat : ℤ) % (2 ^ 64 : ℕ) := Int.bmod_emod
    rw [hint, ← Int.emod_emod_of_dvd _ hdvd, h64, Int.emod_emod_of_dvd _ hdvd]
  rw [hmod]
  norm_cast

theorem Holds.addInt (h : Holds bv l) (value : Int64) {len : ℕ} (hlen : len ≤ 64)
    (hroom : l.length + len ≤ 8 * BITVEC_BYTES) :
    ∃ bv', bv.addInt value len = some bv' ∧
      Holds bv' (l ++ BitString.bits len (value.toInt % 2 ^ len).toNat) := by
  obtain ⟨bv', hrun, hholds⟩ := h.addBits (v := value.toUInt64 &&& lowMask len) le_rfl hlen hroom
  refine ⟨bv', hrun, ?_⟩
  rw [toNat_and_lowMask, ← toInt_emod value hlen] at hholds
  exact hholds

/-- A character is six bits. -/
theorem Holds.addChar (h : Holds bv l) (c : Char) (hroom : l.length + 6 ≤ 8 * BITVEC_BYTES) :
    ∃ bv', bv.addInt (sixBit c).toUInt64.toInt64 6 = some bv' ∧
      Holds bv' (l ++ BitString.bits 6 (sixBit c).toNat) := by
  obtain ⟨bv', hrun, hholds⟩ := h.addInt (sixBit c).toUInt64.toInt64 (by decide) hroom
  refine ⟨bv', hrun, ?_⟩
  have hnat : (sixBit c).toUInt64.toInt64.toUInt64.toNat = (sixBit c).toNat := by
    rw [UInt64.toUInt64_toInt64, UInt32.toNat_toUInt64]
  rw [toInt_emod _ (by decide), hnat, bits_mod] at hholds
  exact hholds

theorem stringBits_succ (s : List Char) (len : ℕ) :
    (Call.string s (len + 6)).bits =
      BitString.bits 6 (sixBit (s.headD '\x00')).toNat ++ (Call.string s.tail len).bits := by
  have hdiv : (len + 6) / 6 = len / 6 + 1 := Nat.add_div_right len (by decide)
  cases s with
  | nil =>
      have hnul : (sixBit '\x00').toNat = 0 := by decide
      simp only [Call.bits, List.take_nil, List.map_nil, join_nil, List.nil_append, List.tail_nil,
        List.headD_nil, List.length_nil, Nat.mul_zero, Nat.sub_zero]
      rw [hnul, bits_zero, List.replicate_append_replicate, Nat.add_comm]
  | cons c s =>
      simp only [Call.bits, List.tail_cons, List.headD_cons]
      rw [hdiv, List.take_succ_cons, List.map_cons, join_cons, List.length_cons, List.append_assoc]
      congr 3
      omega

theorem Holds.addString (s : List Char) (len : ℕ) (h : Holds bv l)
    (hroom : l.length + len ≤ 8 * BITVEC_BYTES) :
    ∃ bv', bv.addString s len = some bv' ∧ Holds bv' (l ++ (Call.string s len).bits) := by
  induction len using Nat.strongRecOn generalizing s bv l with
  | ind len ih =>
      by_cases hsix : 6 ≤ len
      · obtain ⟨n, rfl⟩ := Nat.exists_eq_add_of_le' hsix
        obtain ⟨bv', hchar, hholds⟩ := h.addChar (s.headD '\x00') (by omega)
        obtain ⟨bv'', hrest, hholds'⟩ := ih n (by omega) s.tail hholds
          (by rw [List.length_append, length_bits]; omega)
        refine ⟨bv'', ?_, ?_⟩
        · rw [BitVector.addString, hchar]
          exact hrest
        · rw [stringBits_succ, ← List.append_assoc]
          exact hholds'
      · have htail : (Call.string s len).bits = List.replicate len false := by
          have hdiv : len / 6 = 0 := Nat.div_eq_of_lt (by omega)
          simp [Call.bits, hdiv]
        obtain ⟨bv', hzero, hholds⟩ := h.addInt 0 (show len ≤ 64 by omega) hroom
        have hbits : BitString.bits len ((0 : Int64).toInt % 2 ^ len).toNat =
            List.replicate len false := by
          rw [Int64.toInt_zero, Int.zero_emod, Int.toNat_zero, bits_zero]
        rw [hbits, ← htail] at hholds
        by_cases hlen : len = 0
        · subst hlen
          refine ⟨bv, by rw [BitVector.addString], ?_⟩
          rw [htail, List.replicate_zero, List.append_nil]
          exact h
        · refine ⟨bv', ?_, hholds⟩
          rw [BitVector.addString.eq_3 _ _ _ (by omega) hlen]
          exact hzero

end BitVector

theorem Call.length_bits (c : Call) : c.bits.length = c.width := by
  cases c with
  | int value len => rw [bits, BitString.length_bits, width]
  | string s len =>
      have hle : (s.take (len / 6)).length ≤ len / 6 := List.length_take_le _ _
      rw [bits, List.length_append, length_join, List.length_map, List.length_replicate, width]
      omega

open BitVector

theorem Call.Fits.run {c : Call} (hc : c.Fits) {bv : BitVector} {l : List Bool} (h : bv.Holds l)
    (hroom : l.length + c.width ≤ 8 * BITVEC_BYTES) :
    ∃ bv', c.run bv = some bv' ∧ bv'.Holds (l ++ c.bits) := by
  cases c with
  | int value len => exact h.addInt value hc.2 hroom
  | string s len => exact h.addString s len hroom

theorem foldlM_run {calls : List Call} (hfits : ∀ c ∈ calls, c.Fits) {bv : BitVector}
    {l : List Bool} (h : bv.Holds l)
    (hroom : (l ++ calls.flatMap Call.bits).length ≤ 8 * BITVEC_BYTES) :
    ∃ bv', calls.foldlM (fun bv c => c.run bv) bv = some bv' ∧
      bv'.Holds (l ++ calls.flatMap Call.bits) := by
  induction calls generalizing bv l with
  | nil =>
      refine ⟨bv, rfl, ?_⟩
      rw [List.flatMap_nil, List.append_nil]
      exact h
  | cons c calls ih =>
      rw [List.forall_mem_cons] at hfits
      rw [List.flatMap_cons, ← List.append_assoc] at hroom ⊢
      have hfirst : l.length + c.width ≤ 8 * BITVEC_BYTES := by
        rw [List.length_append, List.length_append, Call.length_bits] at hroom
        omega
      obtain ⟨bv', hrun, hholds⟩ := hfits.1.run h hfirst
      obtain ⟨bv'', hrest, hholds'⟩ := ih hfits.2 hholds hroom
      exact ⟨bv'', by rw [List.foldlM_cons, hrun]; exact hrest, hholds'⟩

/-- The vector holds the bits of the calls, one after the other. -/
theorem packed_holds {calls : List Call} (hfits : ∀ c ∈ calls, c.Fits)
    (hroom : (calls.flatMap Call.bits).length ≤ 8 * BITVEC_BYTES) :
    ∃ bv, packed calls = some bv ∧ bv.Holds (calls.flatMap Call.bits) :=
  foldlM_run hfits holds_new hroom

end Ais

end Canboat
