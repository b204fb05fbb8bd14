import Canboat.Core.BitFields
import Canboat.Encode.Builder

/-!
# Packed bits

What `writeBits` leaves in the buffer, as a number, and that an extraction reads
it back.
-/

namespace Canboat

open LittleEndian

namespace BitBuffer

/-- The bytes are those of the bits written, with zeros above. -/
structure Packed (b : BitBuffer) : Prop where
  length : b.buf.length = (b.nextBit + 7) / 8
  bound : decode b.buf < 2 ^ b.nextBit

theorem packed_empty : empty.Packed := ⟨rfl, by decide⟩

theorem toNat_or_bit {byte : UInt8} {p : ℕ} (hp : p < 8) (hbyte : byte.toNat < 2 ^ p) :
    (byte ||| (1 <<< UInt8.ofNat p)).toNat = byte.toNat + 2 ^ p := by
  have hshift : (UInt8.ofNat p).toNat % 8 = p := by
    rw [UInt8.toNat_ofNat']
    omega
  have hroom : 2 ^ p < 2 ^ 8 := Nat.pow_lt_pow_right (by decide) hp
  have hbit : ((1 : UInt8) <<< UInt8.ofNat p).toNat = 2 ^ p := by
    rw [UInt8.toNat_shiftLeft, hshift, Nat.shiftLeft_eq, UInt8.toNat_one, Nat.one_mul,
      Nat.mod_eq_of_lt hroom]
  have hsum := Nat.two_pow_add_eq_or_of_lt hbyte 1
  rw [Nat.mul_one] at hsum
  rw [UInt8.toNat_or, hbit, Nat.or_comm, ← hsum, Nat.add_comm]

theorem modify_last {α : Type} (f : α → α) (init : List α) (last : α) :
    (init ++ [last]).modify init.length f = init ++ [f last] := by
  induction init with
  | nil => rfl
  | cons a init ih =>
      rw [List.cons_append, List.length_cons, List.modify_succ_cons, ih, List.cons_append]

variable {b : BitBuffer}

/-- The buffer before the last byte, and that byte, when a bit is to be written. -/
theorem Packed.split (h : b.Packed) :
    ∃ init byte, (if b.nextBit &&& 7 = 0 then b.buf ++ [0] else b.buf) = init ++ [byte] ∧
      init.length = b.nextBit / 8 ∧ byte.toNat < 2 ^ (b.nextBit % 8) ∧
      decode b.buf = decode init + 256 ^ init.length * byte.toNat := by
  have hpos : b.nextBit &&& 7 = b.nextBit % 8 := Nat.and_two_pow_sub_one_eq_mod b.nextBit 3
  have hlen := h.length
  rw [hpos]
  by_cases hzero : b.nextBit % 8 = 0
  · rw [if_pos hzero]
    refine ⟨b.buf, 0, rfl, by omega, by rw [hzero]; decide, ?_⟩
    rw [UInt8.toNat_zero, Nat.mul_zero, Nat.add_zero]
  · rw [if_neg hzero]
    have hne : b.buf ≠ [] := by
      rintro hnil
      rw [hnil, List.length_nil] at hlen
      omega
    have hsplit := List.dropLast_concat_getLast hne
    have hinit : b.buf.dropLast.length = b.nextBit / 8 := by
      rw [List.length_dropLast]
      omega
    have hdecode : decode b.buf =
        decode b.buf.dropLast + 256 ^ b.buf.dropLast.length * (b.buf.getLast hne).toNat := by
      conv_lhs => rw [← hsplit]
      rw [decode_append, decode, decode, Nat.mul_zero, Nat.add_zero]
    refine ⟨b.buf.dropLast, b.buf.getLast hne, hsplit.symm, hinit, ?_, hdecode⟩
    have hpow : 2 ^ b.nextBit = 256 ^ (b.nextBit / 8) * 2 ^ (b.nextBit % 8) := by
      rw [show (256 : ℕ) = 2 ^ 8 from rfl, ← pow_mul, ← pow_add, Nat.div_add_mod]
    have hbound := h.bound
    rw [hdecode, hinit, hpow] at hbound
    exact Nat.lt_of_mul_lt_mul_left (lt_of_le_of_lt (Nat.le_add_left _ _) hbound)

/-- One bit. -/
theorem Packed.bit (h : b.Packed) (value : UInt64) :
    (b.writeBits 1 value).Packed ∧ (b.writeBits 1 value).nextBit = b.nextBit + 1 ∧
      decode (b.writeBits 1 value).buf = decode b.buf + 2 ^ b.nextBit * (value.toNat % 2) := by
  obtain ⟨init, byte, hbuf, hinit, hbyte, hdecode⟩ := h.split
  have hpos : b.nextBit &&& 7 = b.nextBit % 8 := Nat.and_two_pow_sub_one_eq_mod b.nextBit 3
  have hidx : b.nextBit >>> 3 = init.length := by
    rw [Nat.shiftRight_eq_div_pow, hinit]
  have hpow : 2 ^ b.nextBit = 256 ^ init.length * 2 ^ (b.nextBit % 8) := by
    rw [show (256 : ℕ) = 2 ^ 8 from rfl, ← pow_mul, ← pow_add, hinit, Nat.div_add_mod]
  have hodd : value &&& 1 ≠ 0 ↔ value.toNat % 2 = 1 := by
    rw [ne_eq, ← UInt64.toNat_inj, UInt64.toNat_and, UInt64.toNat_one, UInt64.toNat_zero,
      Nat.and_one_is_mod]
    omega
  have hwrite : b.writeBits 1 value = ⟨if value &&& 1 ≠ 0 then
      init ++ [byte ||| (1 <<< UInt8.ofNat (b.nextBit % 8))] else init ++ [byte],
      b.nextBit + 1⟩ := by
    rw [writeBits, writeBits]
    rw [hbuf, hidx, hpos]
    split_ifs
    · rw [modify_last]
    · rfl
  have hsum : decode (b.writeBits 1 value).buf =
      decode b.buf + 2 ^ b.nextBit * (value.toNat % 2) := by
    rw [hwrite, hdecode, hpow]
    split_ifs with hset
    · rw [decode_append, decode, decode, Nat.mul_zero, Nat.add_zero,
        toNat_or_bit (Nat.mod_lt _ (by decide)) hbyte, hodd.mp hset, Nat.mul_add, Nat.mul_one,
        Nat.add_assoc]
    · have hzero : value.toNat % 2 = 0 := by
        rw [hodd] at hset
        omega
      rw [decode_append, decode, decode, Nat.mul_zero, Nat.add_zero, hzero, Nat.mul_zero,
        Nat.add_zero]
  have hnext : (b.writeBits 1 value).nextBit = b.nextBit + 1 := by rw [hwrite]
  refine ⟨⟨?_, ?_⟩, hnext, hsum⟩
  · rw [hnext, hwrite]
    dsimp only
    split_ifs
    · rw [List.length_append, hinit, List.length_singleton]
      omega
    · rw [List.length_append, hinit, List.length_singleton]
      omega
  · have hbound := h.bound
    have hbit : value.toNat % 2 ≤ 1 := Nat.le_of_lt_succ (Nat.mod_lt _ (by decide))
    have hle := Nat.mul_le_mul_left (2 ^ b.nextBit) hbit
    rw [hsum, hnext, pow_succ]
    omega

theorem writeBits_succ (bits : ℕ) (value : UInt64) :
    b.writeBits (bits + 1) value = (b.writeBits 1 value).writeBits bits (value >>> 1) := rfl

/-- **What is written.** The low bits of the value stand above those that were there. -/
theorem Packed.writeBits (h : b.Packed) (bits : ℕ) (value : UInt64) :
    (b.writeBits bits value).Packed ∧ (b.writeBits bits value).nextBit = b.nextBit + bits ∧
      decode (b.writeBits bits value).buf =
        decode b.buf + 2 ^ b.nextBit * (value.toNat % 2 ^ bits) := by
  induction bits generalizing b value with
  | zero =>
      rw [pow_zero, Nat.mod_one, Nat.mul_zero, Nat.add_zero, Nat.add_zero]
      exact ⟨h, rfl, rfl⟩
  | succ bits ih =>
      obtain ⟨hbit, hnext, hsum⟩ := h.bit value
      obtain ⟨hpacked, hend, hdecode⟩ := ih hbit (value >>> 1)
      have hhalf : (value >>> 1).toNat = value.toNat / 2 := by
        rw [UInt64.toNat_shiftRight]
        exact Nat.shiftRight_eq_div_pow _ 1
      rw [writeBits_succ]
      have hmod : value.toNat % 2 ^ (bits + 1) =
          value.toNat % 2 + 2 * (value.toNat / 2 % 2 ^ bits) := by
        rw [pow_succ', Nat.mod_mul]
      refine ⟨hpacked, by rw [hend, hnext]; omega, ?_⟩
      rw [hdecode, hsum, hnext, hhalf, hmod, pow_succ, Nat.mul_add, Nat.add_assoc, Nat.mul_assoc]

/-- The bits written are where the buffer ended, and the earlier ones stay. -/
theorem Packed.bitsAt_writeBits (h : b.Packed) (bits : ℕ) (value : UInt64) :
    bitsAt (b.writeBits bits value).buf b.nextBit bits = value.toNat % 2 ^ bits := by
  obtain ⟨-, -, hdecode⟩ := h.writeBits bits value
  rw [bitsAt, hdecode, Nat.add_mul_div_left _ _ (Nat.two_pow_pos _), Nat.div_eq_of_lt h.bound,
    Nat.zero_add, Nat.mod_mod]

end BitBuffer

end Canboat
