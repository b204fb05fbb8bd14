import Mathlib.Algebra.Group.Nat.Even
import Mathlib.Data.Nat.Notation

/-!
# Little-endian byte strings

`encode k n` is the low `k` bytes of `n`, least significant first, and `decode`
the number a byte string stands for.
-/

namespace LittleEndian

def encode : ℕ → ℕ → List UInt8
  | 0, _ => []
  | k + 1, n => UInt8.ofNat n :: encode k (n / 256)

def decode : List UInt8 → ℕ
  | [] => 0
  | b :: bs => b.toNat + 256 * decode bs

@[simp] theorem length_encode (k n : ℕ) : (encode k n).length = k := by
  induction k generalizing n with
  | zero => rfl
  | succ k ih => rw [encode, List.length_cons, ih]

/-- Reading back what was written, modulo the room there was. -/
theorem decode_encode_mod (k n : ℕ) : decode (encode k n) = n % 256 ^ k := by
  induction k generalizing n with
  | zero => rw [encode, decode, pow_zero, Nat.mod_one]
  | succ k ih =>
      have hbyte : (UInt8.ofNat n).toNat = n % 256 := UInt8.toNat_ofNat'
      have hpow : 256 ^ (k + 1) = 256 * 256 ^ k := pow_succ' 256 k
      rw [encode, decode, ih, hbyte, hpow, Nat.mod_mul]

theorem decode_encode_of_lt {k n : ℕ} (h : n < 256 ^ k) : decode (encode k n) = n := by
  rw [decode_encode_mod, Nat.mod_eq_of_lt h]

theorem decode_lt (bs : List UInt8) : decode bs < 256 ^ bs.length := by
  induction bs with
  | nil => exact Nat.one_pos
  | cons b bs ih =>
      have hb := b.toNat_lt
      have hpow : 256 ^ (b :: bs).length = 256 * 256 ^ bs.length := by
        rw [List.length_cons, pow_succ, Nat.mul_comm]
      have hle : 256 * (decode bs + 1) ≤ 256 * 256 ^ bs.length := Nat.mul_le_mul_left 256 ih
      rw [hpow]
      unfold decode
      omega

/-- The bytes after the first `n` stand for the number without its low bytes. -/
theorem decode_drop (bs : List UInt8) (n : ℕ) : decode (bs.drop n) = decode bs / 256 ^ n := by
  induction n generalizing bs with
  | zero => rw [List.drop_zero, pow_zero, Nat.div_one]
  | succ n ih =>
      cases bs with
      | nil => rw [List.drop_nil, decode, Nat.zero_div]
      | cons b bs =>
          have hb : b.toNat / 256 = 0 := Nat.div_eq_of_lt b.toNat_lt
          rw [List.drop_succ_cons, ih, decode, pow_succ', ← Nat.div_div_eq_div_mul,
            Nat.add_mul_div_left _ _ (by decide), hb, Nat.zero_add]

theorem decode_append (as bs : List UInt8) :
    decode (as ++ bs) = decode as + 256 ^ as.length * decode bs := by
  induction as with
  | nil => rw [List.nil_append, decode, List.length_nil, pow_zero, Nat.one_mul, Nat.zero_add]
  | cons a as ih =>
      rw [List.cons_append, decode, decode, ih, List.length_cons, pow_succ', Nat.mul_add,
        Nat.add_assoc, Nat.mul_assoc]

/-- The first `n` bytes stand for the low part of the number. -/
theorem decode_take (bs : List UInt8) (n : ℕ) : decode (bs.take n) = decode bs % 256 ^ n := by
  rcases Nat.le_total n bs.length with hn | hn
  · have hlen : (bs.take n).length = n := List.length_take_of_le hn
    have hlt := decode_lt (bs.take n)
    rw [hlen] at hlt
    conv_rhs => rw [← List.take_append_drop n bs]
    rw [decode_append, hlen, Nat.add_mul_mod_self_left, Nat.mod_eq_of_lt hlt]
  · have hlt : decode bs < 256 ^ n :=
      Nat.lt_of_lt_of_le (decode_lt bs) (Nat.pow_le_pow_right (by decide) hn)
    rw [List.take_of_length_le hn, Nat.mod_eq_of_lt hlt]

end LittleEndian
