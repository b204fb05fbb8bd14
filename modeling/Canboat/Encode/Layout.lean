import Canboat.Encode.RoundTrip

/-!
# Where the builder puts a field

The payload as the writes of its fields, one after another, and the bits of it that a field has.
-/

namespace LittleEndian

/-- A number in so many bytes has them in one way. -/
theorem decode_injective {as bs : List UInt8} (hlen : as.length = bs.length)
    (h : decode as = decode bs) : as = bs := by
  induction as generalizing bs with
  | nil => exact (List.eq_nil_of_length_eq_zero hlen.symm).symm
  | cons a as ih =>
      cases bs with
      | nil => cases hlen
      | cons b bs =>
          have ha := a.toNat_lt
          have hb := b.toNat_lt
          rw [decode, decode] at h
          rw [UInt8.toNat_inj.mp (show a.toNat = b.toNat by omega),
            ih (Nat.succ.inj hlen) (by omega)]

end LittleEndian

namespace Canboat

open LittleEndian

namespace BitBuffer

/-- The bits that writes take. -/
def widthOf (writes : List (ℕ × UInt64)) : ℕ := (writes.map (·.1)).sum

/-- The number that the bits of writes stand for. -/
def valueOf : List (ℕ × UInt64) → ℕ
  | [] => 0
  | write :: writes => write.2.toNat % 2 ^ write.1 + 2 ^ write.1 * valueOf writes

/-- The writes of bytes. -/
def byteWrites (bytes : List UInt8) : List (ℕ × UInt64) := bytes.map fun b => (8, b.toUInt64)

@[simp] theorem widthOf_nil : widthOf [] = 0 := rfl

@[simp] theorem widthOf_cons (write : ℕ × UInt64) (writes : List (ℕ × UInt64)) :
    widthOf (write :: writes) = write.1 + widthOf writes := by
  rw [widthOf, List.map_cons, List.sum_cons, widthOf]

@[simp] theorem widthOf_append (a b : List (ℕ × UInt64)) :
    widthOf (a ++ b) = widthOf a + widthOf b := by
  rw [widthOf, List.map_append, List.sum_append, widthOf, widthOf]

@[simp] theorem widthOf_byteWrites (bytes : List UInt8) :
    widthOf (byteWrites bytes) = 8 * bytes.length := by
  induction bytes with
  | nil => rfl
  | cons b bytes ih =>
      rw [byteWrites, List.map_cons, widthOf_cons, ← byteWrites, ih, List.length_cons]
      omega

theorem valueOf_append (a b : List (ℕ × UInt64)) :
    valueOf (a ++ b) = valueOf a + 2 ^ widthOf a * valueOf b := by
  induction a with
  | nil => rw [List.nil_append, valueOf, widthOf_nil, pow_zero, Nat.one_mul, Nat.zero_add]
  | cons write a ih =>
      rw [List.cons_append, valueOf, valueOf, ih, widthOf_cons, pow_add, Nat.mul_add,
        Nat.add_assoc, Nat.mul_assoc]

theorem valueOf_lt (writes : List (ℕ × UInt64)) : valueOf writes < 2 ^ widthOf writes := by
  induction writes with
  | nil => exact Nat.one_pos
  | cons write writes ih =>
      have hlow : write.2.toNat % 2 ^ write.1 < 2 ^ write.1 := Nat.mod_lt _ (Nat.two_pow_pos _)
      have hhigh := Nat.mul_le_mul_left (2 ^ write.1) ih
      rw [Nat.mul_succ] at hhigh
      rw [valueOf, widthOf_cons, pow_add]
      omega

theorem valueOf_byteWrites (bytes : List UInt8) : valueOf (byteWrites bytes) = decode bytes := by
  induction bytes with
  | nil => rfl
  | cons b bytes ih =>
      have hb : b.toUInt64.toNat % 2 ^ 8 = b.toNat := Nat.mod_eq_of_lt b.toNat_lt
      rw [byteWrites, List.map_cons, valueOf, ← byteWrites, ih, decode, hb]
      rfl

variable {b : BitBuffer}

theorem writeAll_append (writes more : List (ℕ × UInt64)) :
    b.writeAll (writes ++ more) = (b.writeAll writes).writeAll more := List.foldl_append

theorem writeBytes_eq (bytes : List UInt8) : b.writeBytes bytes = b.writeAll (byteWrites bytes) := by
  rw [writeBytes, BitBuffer.writeAll, byteWrites, List.foldl_map]

/-- What the writes leave in the buffer. -/
theorem Packed.writeAll_eq (h : b.Packed) (writes : List (ℕ × UInt64)) :
    (b.writeAll writes).Packed ∧ (b.writeAll writes).nextBit = b.nextBit + widthOf writes ∧
      decode (b.writeAll writes).buf = decode b.buf + 2 ^ b.nextBit * valueOf writes := by
  induction writes generalizing b with
  | nil =>
      refine ⟨h, rfl, ?_⟩
      rw [valueOf, Nat.mul_zero, Nat.add_zero]
      rfl
  | cons write writes ih =>
      obtain ⟨hwritten, hnext, hdecode⟩ := h.writeBits write.1 write.2
      obtain ⟨hpacked, hend, hsum⟩ := ih hwritten
      have hstep : b.writeAll (write :: writes) = (b.writeBits write.1 write.2).writeAll writes := rfl
      rw [hstep]
      refine ⟨hpacked, by rw [hend, hnext, widthOf_cons, Nat.add_assoc], ?_⟩
      rw [hsum, hdecode, hnext, valueOf, pow_add, Nat.mul_add, Nat.add_assoc, Nat.mul_assoc]

/-- The payload of writes. -/
def payload (writes : List (ℕ × UInt64)) : List UInt8 := (empty.writeAll writes).buf

theorem decode_payload (writes : List (ℕ × UInt64)) : decode (payload writes) = valueOf writes := by
  have h := (packed_empty.writeAll_eq writes).2.2
  rw [payload, h]
  show 0 + 2 ^ 0 * valueOf writes = valueOf writes
  rw [pow_zero, Nat.one_mul, Nat.zero_add]

theorem length_payload (writes : List (ℕ × UInt64)) :
    (payload writes).length = (widthOf writes + 7) / 8 := by
  obtain ⟨hpacked, hnext, -⟩ := packed_empty.writeAll_eq writes
  have hwidth : (empty.writeAll writes).nextBit = widthOf writes := by
    rw [hnext]
    exact Nat.zero_add _
  rw [payload, hpacked.length, hwidth]

/-- **The bits of a part are those that were written for it.** -/
theorem bitsAt_payload (before part after : List (ℕ × UInt64)) :
    bitsAt (payload (before ++ (part ++ after))) (widthOf before) (widthOf part) = valueOf part := by
  rw [bitsAt, decode_payload, valueOf_append, valueOf_append,
    Nat.add_mul_div_left _ _ (Nat.two_pow_pos _), Nat.div_eq_of_lt (valueOf_lt before),
    Nat.zero_add, Nat.add_mul_mod_self_left, Nat.mod_eq_of_lt (valueOf_lt part)]

theorem le_length_payload (before part after : List (ℕ × UInt64)) :
    widthOf before + widthOf part ≤ 8 * (payload (before ++ (part ++ after))).length := by
  rw [length_payload, widthOf_append, widthOf_append]
  omega

/-- Whole bytes that were written between bytes. -/
theorem bytes_payload {before part after : List (ℕ × UInt64)} {n : ℕ}
    (haligned : widthOf before % 8 = 0) (hpart : widthOf part = 8 * n) :
    ((payload (before ++ (part ++ after))).drop (widthOf before / 8)).take n = payload part := by
  have hbits := bitsAt_payload before part after
  have hroom := le_length_payload before part after
  have hlength := length_payload part
  rw [hpart] at hbits hroom hlength
  apply decode_injective
  · rw [List.length_take, List.length_drop, hlength]
    omega
  · have hstart : 256 ^ (widthOf before / 8) = 2 ^ widthOf before := by
      rw [show (256 : ℕ) = 2 ^ 8 from rfl, ← pow_mul]
      congr 1
      omega
    have hwidth : 256 ^ n = 2 ^ (8 * n) := by
      rw [show (256 : ℕ) = 2 ^ 8 from rfl, ← pow_mul]
    rw [decode_take, decode_drop, hstart, hwidth, decode_payload part]
    exact hbits

theorem payload_byteWrites (bytes : List UInt8) : payload (byteWrites bytes) = bytes := by
  apply decode_injective
  · rw [length_payload, widthOf_byteWrites]
    omega
  · rw [decode_payload, valueOf_byteWrites]

/-- The payload from where bytes were written. -/
theorem drop_payload {before : List (ℕ × UInt64)} (haligned : widthOf before % 8 = 0)
    (bytes : List UInt8) (after : List (ℕ × UInt64)) :
    ∃ tail, (payload (before ++ (byteWrites bytes ++ after))).drop (widthOf before / 8) =
      bytes ++ tail := by
  have htake := @bytes_payload before _ after _ haligned (widthOf_byteWrites bytes)
  rw [payload_byteWrites] at htake
  refine ⟨((payload (before ++ (byteWrites bytes ++ after))).drop (widthOf before / 8)).drop
    bytes.length, ?_⟩
  conv_lhs => rw [← List.take_append_drop bytes.length (List.drop _ _), htake]

end BitBuffer

/-! ## Equal bits are read alike -/

/-- An extraction depends on the bits of the field alone. -/
theorem extractBits_congr {data data' : List UInt8} {off off' w : ℕ}
    (hin : off + w ≤ 8 * data.length) (hin' : off' + w ≤ 8 * data'.length)
    (hbits : bitsAt data off w = bitsAt data' off' w) (signed : Bool) (offset : Int64) :
    extractBits data off w signed offset = extractBits data' off' w signed offset := by
  rw [extractBits, extractBits]
  by_cases hwidth : w = 0 ∨ w > 64
  · rw [if_pos hwidth, if_pos hwidth]
  · have hbyte : off >>> 3 = off / 8 := Nat.shiftRight_eq_div_pow off 3
    have hbyte' : off' >>> 3 = off' / 8 := Nat.shiftRight_eq_div_pow off' 3
    obtain ⟨v, m, hloop, hv, hm⟩ := extractBits_loop data off w (by omega) (by omega) (by omega)
    obtain ⟨v', m', hloop', hv', hm'⟩ :=
      extractBits_loop data' off' w (by omega) (by omega) (by omega)
    have hleft : widthLeft data off w = w := Nat.min_eq_left (by omega)
    have hleft' : widthLeft data' off' w = w := Nat.min_eq_left (by omega)
    rw [hleft] at hloop hv hm
    rw [hleft'] at hloop' hv' hm'
    have hvalue : v = v' := UInt64.toNat_inj.mp (by rw [hv, hv', hbits])
    have hmax : m = m' := UInt64.toNat_inj.mp (by rw [hm, hm'])
    rw [if_neg hwidth, if_neg hwidth]
    dsimp only
    rw [if_neg (by omega : ¬ off >>> 3 ≥ data.length),
      if_neg (by omega : ¬ off' >>> 3 ≥ data'.length), hloop, hloop', hvalue, hmax]

end Canboat
