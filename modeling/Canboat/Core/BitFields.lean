import Canboat.Core.Bits
import Canboat.Lib.LittleEndian
import Mathlib.Data.Nat.Bitwise

/-!
# What an extraction reads

The payload stands for a number, little-endian, and a field within the payload for some of its
bits.
-/

namespace Canboat

/-- The bits from `off` on of the payload's number. -/
def bitsAt (data : List UInt8) (off len : ℕ) : ℕ := LittleEndian.decode data / 2 ^ off % 2 ^ len

theorem bitsAt_lt (data : List UInt8) (off len : ℕ) : bitsAt data off len < 2 ^ len :=
  Nat.mod_lt _ (Nat.two_pow_pos len)

/-- A field that ends in the first byte. -/
theorem bitsAt_cons_of_le (b : UInt8) (data : List UInt8) {off len : ℕ} (h : off + len ≤ 8) :
    bitsAt (b :: data) off len = b.toNat / 2 ^ off % 2 ^ len := by
  have hsplit : (256 : ℕ) = 2 ^ off * (2 ^ len * 2 ^ (8 - off - len)) := by
    rw [← pow_add, ← pow_add, show off + (len + (8 - off - len)) = 8 by omega]
    rfl
  rw [bitsAt, LittleEndian.decode, hsplit, Nat.mul_assoc (2 ^ off), Nat.mul_assoc (2 ^ len),
    Nat.add_mul_div_left _ _ (Nat.two_pow_pos off), Nat.add_mul_mod_self_left]

/-- A field that goes on in the bytes after the first. -/
theorem bitsAt_cons (b : UInt8) (data : List UInt8) {off len : ℕ} (hoff : off < 8)
    (h : 8 ≤ off + len) :
    bitsAt (b :: data) off len =
      b.toNat / 2 ^ off + 2 ^ (8 - off) * bitsAt data 0 (len - (8 - off)) := by
  have hsplit : (256 : ℕ) = 2 ^ off * 2 ^ (8 - off) := by
    rw [← pow_add, show off + (8 - off) = 8 by omega]
    rfl
  have hlen : 2 ^ len = 2 ^ (8 - off) * 2 ^ (len - (8 - off)) := by
    rw [← pow_add, show 8 - off + (len - (8 - off)) = len by omega]
  have hb : b.toNat / 2 ^ off < 2 ^ (8 - off) := by
    apply Nat.div_lt_of_lt_mul
    rw [← hsplit]
    exact b.toNat_lt
  rw [bitsAt, LittleEndian.decode, hsplit, Nat.mul_assoc,
    Nat.add_mul_div_left _ _ (Nat.two_pow_pos off), hlen, Nat.mod_mul,
    Nat.add_mul_mod_self_left, Nat.mod_eq_of_lt hb,
    Nat.add_mul_div_left _ _ (Nat.two_pow_pos _), Nat.div_eq_of_lt hb, Nat.zero_add, bitsAt,
    pow_zero, Nat.div_one]

/-! ## The machine words of the loop -/

theorem toNat_allOnes {k : ℕ} (hk : k ≤ 8) :
    ((1 : UInt64) <<< UInt64.ofNat k - 1).toNat = 2 ^ k - 1 := by
  have h : ∀ k < 9, ((1 : UInt64) <<< UInt64.ofNat k - 1).toNat = 2 ^ k - 1 := by decide
  exact h k (Nat.lt_succ_of_le hk)

theorem toNat_chunk (b : UInt8) {f k : ℕ} (h : f + k ≤ 8) :
    ((b.toUInt64 &&& (((1 : UInt64) <<< UInt64.ofNat k - 1) <<< UInt64.ofNat f)) >>>
      UInt64.ofNat f).toNat = b.toNat / 2 ^ f % 2 ^ k := by
  have hf : (UInt64.ofNat f).toNat % 64 = f := by
    rw [UInt64.toNat_ofNat']
    omega
  have hroom : (2 ^ k - 1) * 2 ^ f < 2 ^ 64 :=
    calc (2 ^ k - 1) * 2 ^ f ≤ 2 ^ k * 2 ^ f := Nat.mul_le_mul_right _ (Nat.sub_le _ _)
      _ = 2 ^ (k + f) := (pow_add 2 k f).symm
      _ ≤ 2 ^ 8 := Nat.pow_le_pow_right (by decide) (by omega)
      _ < 2 ^ 64 := by decide
  rw [UInt64.toNat_shiftRight, UInt64.toNat_and, UInt64.toNat_shiftLeft, hf,
    toNat_allOnes (by omega), Nat.shiftLeft_eq, Nat.mod_eq_of_lt hroom, ← Nat.shiftLeft_eq,
    Nat.shiftRight_and_distrib, Nat.shiftLeft_shiftRight, Nat.and_two_pow_sub_one_eq_mod,
    Nat.shiftRight_eq_div_pow]
  rfl

theorem toNat_put {value chunk : UInt64} {m k : ℕ} (hvalue : value.toNat < 2 ^ m)
    (hchunk : chunk.toNat < 2 ^ k) (hk : 0 < k) (hroom : m + k ≤ 64) :
    (value ||| (chunk <<< UInt64.ofNat m)).toNat = value.toNat + 2 ^ m * chunk.toNat := by
  have hm : (UInt64.ofNat m).toNat % 64 = m := by
    rw [UInt64.toNat_ofNat']
    omega
  have hfits : chunk.toNat <<< m < 2 ^ 64 := by
    rw [Nat.shiftLeft_eq]
    calc chunk.toNat * 2 ^ m < 2 ^ k * 2 ^ m := Nat.mul_lt_mul_of_pos_right hchunk (Nat.two_pow_pos m)
      _ = 2 ^ (k + m) := (pow_add 2 k m).symm
      _ ≤ 2 ^ 64 := Nat.pow_le_pow_right (by decide) (by omega)
  rw [UInt64.toNat_or, UInt64.toNat_shiftLeft, hm, Nat.mod_eq_of_lt hfits, Nat.or_comm,
    ← Nat.shiftLeft_add_eq_or_of_lt hvalue, Nat.shiftLeft_eq, Nat.mul_comm, Nat.add_comm]

/-- The loop reads the bits, over what it has read before. -/
theorem extractLoop_eq (data : List UInt8) (f m r : ℕ) (value maxV : UInt64) (hf : f < 8)
    (hroom : m + r ≤ 64) (hin : f + r ≤ 8 * data.length) (hvalue : value.toNat < 2 ^ m)
    (hmax : maxV.toNat = 2 ^ m - 1) :
    ∃ v w, extractLoop f m r value maxV data = (v, w, m + r) ∧
      v.toNat = value.toNat + 2 ^ m * bitsAt data f r ∧ w.toNat = 2 ^ (m + r) - 1 := by
  induction data generalizing f m r value maxV with
  | nil =>
      have hr : r = 0 := by
        rw [List.length_nil] at hin
        omega
      subst hr
      exact ⟨value, maxV, rfl, by simp [bitsAt, Nat.mod_one], hmax⟩
  | cons b data ih =>
      rw [extractLoop]
      by_cases hr : r = 0
      · subst hr
        rw [if_pos rfl]
        exact ⟨value, maxV, rfl, by simp [bitsAt, Nat.mod_one], hmax⟩
      rw [if_neg hr]
      obtain ⟨k, hk⟩ : ∃ k, k = min (8 - f) r := ⟨_, rfl⟩
      rw [← hk]
      have hkpos : 0 < k := by omega
      have hchunk := toNat_chunk b (show f + k ≤ 8 by omega)
      have hput := toNat_put hvalue (by rw [hchunk]; exact Nat.mod_lt _ (Nat.two_pow_pos k))
        hkpos (show m + k ≤ 64 by omega)
      have hones := toNat_allOnes (show k ≤ 8 by omega)
      have hmaxPut : (maxV ||| (((1 : UInt64) <<< UInt64.ofNat k - 1) <<< UInt64.ofNat m)).toNat =
          2 ^ (m + k) - 1 := by
        have hm := Nat.two_pow_pos m
        have hk' := Nat.two_pow_pos k
        rw [toNat_put (k := k) (by omega) (by omega) hkpos (by omega), hmax, hones,
          Nat.mul_sub, Nat.mul_one, pow_add]
        have := Nat.le_mul_of_pos_right (2 ^ m) hk'
        omega
      simp only
      split_ifs with hwhole
      · -- the byte is used up
        have hbyte : k = 8 - f := by omega
        have hlt : b.toNat / 2 ^ f < 2 ^ k := by
          apply Nat.div_lt_of_lt_mul
          rw [← pow_add, show f + k = 8 by omega]
          exact b.toNat_lt
        rw [Nat.mod_eq_of_lt hlt] at hchunk
        obtain ⟨v, w, hloop, hv, hw⟩ := ih (f + k - 8) (m + k) (r - k) _ _ (by omega) (by omega)
          (by rw [List.length_cons] at hin; omega)
          (by
            rw [hput, hchunk, pow_add]
            have := Nat.mul_le_mul_left (2 ^ m) hlt
            rw [Nat.mul_succ] at this
            omega)
          hmaxPut
        refine ⟨v, w, by rw [hloop, show m + k + (r - k) = m + r by omega], ?_, ?_⟩
        · rw [hv, hput, hchunk, bitsAt_cons b data hf (by omega), show f + k - 8 = 0 by omega,
            ← hbyte, pow_add, Nat.mul_add, Nat.mul_assoc, Nat.add_assoc]
        · rw [hw, show m + k + (r - k) = m + r by omega]
      · -- less than the rest of the byte was wanted
        have hkr : k = r := by omega
        refine ⟨_, _, by rw [hkr], ?_, ?_⟩
        · rw [← hkr, hput, hchunk, bitsAt_cons_of_le b data (by omega)]
        · rw [← hkr, hmaxPut]

/-! ## Fields cut by the end of the payload -/

/-- The loop ends where the bytes do. -/
theorem extractLoop_truncate (data : List UInt8) (f m r : ℕ) (value maxV : UInt64) (hf : f < 8) :
    extractLoop f m r value maxV data =
      extractLoop f m (min r (8 * data.length - f)) value maxV data := by
  induction data generalizing f m r value maxV with
  | nil => rfl
  | cons b data ih =>
      have hlen : 8 * (b :: data).length - f = 8 * data.length + (8 - f) := by
        rw [List.length_cons]
        omega
      rw [hlen, extractLoop, extractLoop]
      by_cases hr : r = 0
      · rw [hr, if_pos rfl, Nat.zero_min, if_pos rfl]
      · have hbyte : min (8 - f) (min r (8 * data.length + (8 - f))) = min (8 - f) r := by omega
        have hr' : ¬min r (8 * data.length + (8 - f)) = 0 := by omega
        rw [if_neg hr, if_neg hr', hbyte]
        dsimp only
        split_ifs with hwhole
        · have hrest : min r (8 * data.length + (8 - f)) - min (8 - f) r =
              min (r - min (8 - f) r) (8 * data.length - (f + min (8 - f) r - 8)) := by omega
          rw [hrest]
          exact ih _ _ _ _ _ (by omega)
        · rfl

/-- The width that is left of a field. -/
def widthLeft (data : List UInt8) (off len : ℕ) : ℕ := min len (8 * data.length - off)

/-- The loop of an extraction, and what it leaves. -/
theorem extractBits_loop (data : List UInt8) (off len : ℕ) (hlen : 1 ≤ len) (hwidth : len ≤ 64)
    (hin : off / 8 < data.length) :
    ∃ v w : UInt64, extractLoop (off &&& 7) 0 len 0 0 (data.drop (off >>> 3)) =
        (v, w, widthLeft data off len) ∧
      v.toNat = bitsAt data off (widthLeft data off len) ∧
      w.toNat = 2 ^ widthLeft data off len - 1 := by
  have hoff : off &&& 7 = off % 8 := Nat.and_two_pow_sub_one_eq_mod off 3
  have hbyte : off >>> 3 = off / 8 := Nat.shiftRight_eq_div_pow off 3
  have hleft : min len (8 * (data.drop (off / 8)).length - off % 8) = widthLeft data off len := by
    rw [widthLeft, List.length_drop]
    omega
  obtain ⟨v, w, hloop, hv, hw⟩ := extractLoop_eq (data.drop (off / 8)) (off % 8) 0
    (widthLeft data off len) 0 0 (Nat.mod_lt _ (by decide))
    (by rw [widthLeft]; omega) (by rw [widthLeft, List.length_drop]; omega) (by decide) (by decide)
  refine ⟨v, w, ?_, ?_, ?_⟩
  · rw [hoff, hbyte, extractLoop_truncate _ _ _ _ _ _ (Nat.mod_lt _ (by decide)), hleft, hloop,
      Nat.zero_add]
  · have hpow : 256 ^ (off / 8) * 2 ^ (off % 8) = 2 ^ off := by
      rw [show (256 : ℕ) = 2 ^ 8 from rfl, ← pow_mul, ← pow_add, Nat.div_add_mod]
    rw [hv, bitsAt, LittleEndian.decode_drop, Nat.div_div_eq_div_mul, hpow, bitsAt, pow_zero,
      Nat.one_mul, UInt64.toNat_zero, Nat.zero_add]
  · rw [hw, Nat.zero_add]

/-- A field within the payload is read in full: its bits, and the ones of its width. -/
theorem extractBits_eq {data : List UInt8} {off len : ℕ} (hlen : 0 < len) (hwidth : len ≤ 64)
    (hin : off + len ≤ 8 * data.length) :
    ∃ v w : UInt64, extractBits data off len false 0 = some ⟨v.toInt64, w.toInt64, v⟩ ∧
      v.toNat = bitsAt data off len ∧ w.toNat = 2 ^ len - 1 := by
  obtain ⟨v, w, hloop, hv, hw⟩ := extractBits_loop data off len hlen hwidth (by omega)
  have hleft : widthLeft data off len = len := Nat.min_eq_left (by omega)
  have hbyte : off >>> 3 = off / 8 := Nat.shiftRight_eq_div_pow off 3
  rw [hleft] at hloop hv hw
  refine ⟨v, w, ?_, hv, hw⟩
  rw [extractBits, if_neg (by omega)]
  dsimp only
  rw [hloop, if_neg (by omega)]
  dsimp only
  rw [if_neg (by omega), if_neg (by decide), if_neg (by decide)]

/-! ## The sign -/

/-- The two's-complement reading of `w` bits. -/
def twosComplement (w n : ℕ) : ℤ := if n < 2 ^ (w - 1) then n else n - (2 ^ w : ℕ)

theorem toInt_toInt64 (x : UInt64) :
    x.toInt64.toInt = if 2 * x.toNat < 2 ^ 64 then (x.toNat : ℤ) else x.toNat - (2 ^ 64 : ℕ) :=
  BitVec.toInt_eq_toNat_cond x.toBitVec

/-- The sign bit is tested by a comparison. -/
theorem and_sign_ne_zero {v : UInt64} {w : ℕ} (hw : 0 < w) (hw64 : w ≤ 64) (hv : v.toNat < 2 ^ w) :
    v &&& (1 <<< UInt64.ofNat (w - 1)) ≠ 0 ↔ 2 ^ (w - 1) ≤ v.toNat := by
  have hshift : (UInt64.ofNat (w - 1)).toNat % 64 = w - 1 := by
    rw [UInt64.toNat_ofNat']
    omega
  have hroom : 2 ^ (w - 1) < 2 ^ 64 := Nat.pow_lt_pow_right (by decide) (by omega)
  have hsign : ((1 : UInt64) <<< UInt64.ofNat (w - 1)).toNat = 2 ^ (w - 1) := by
    rw [UInt64.toNat_shiftLeft, hshift, Nat.shiftLeft_eq, UInt64.toNat_one, Nat.one_mul,
      Nat.mod_eq_of_lt hroom]
  have hquot : v.toNat / 2 ^ (w - 1) < 2 := by
    apply Nat.div_lt_of_lt_mul
    rw [← pow_succ, Nat.sub_add_cancel hw]
    exact hv
  have hpos : 0 < v.toNat / 2 ^ (w - 1) ↔ 2 ^ (w - 1) ≤ v.toNat :=
    Nat.div_pos_iff.trans (and_iff_right (Nat.two_pow_pos _))
  rw [Ne, ← UInt64.toNat_inj, UInt64.toNat_and, hsign, Nat.and_two_pow, UInt64.toNat_zero,
    Nat.mul_eq_zero, not_or, and_iff_left (Nat.two_pow_pos _).ne', ← hpos,
    Nat.testBit_eq_decide_div_mod_eq]
  rcases Nat.lt_or_ge 0 (v.toNat / 2 ^ (w - 1)) with h | h
  · have hone : v.toNat / 2 ^ (w - 1) = 1 := Nat.le_antisymm (Nat.le_of_lt_succ hquot) h
    rw [hone]
    decide
  · have hzero : v.toNat / 2 ^ (w - 1) = 0 := Nat.le_zero.mp h
    rw [hzero]
    decide

/-- Ones above the width. -/
theorem toNat_or_not {v maxV : UInt64} {w : ℕ} (hw64 : w ≤ 64) (hv : v.toNat < 2 ^ w)
    (hmax : maxV.toNat = 2 ^ w - 1) : (v ||| ~~~maxV).toNat = v.toNat + (2 ^ 64 - 2 ^ w) := by
  have hpow : 2 ^ 64 = 2 ^ w * 2 ^ (64 - w) := by rw [← pow_add, Nat.add_sub_cancel' hw64]
  have hpos := Nat.two_pow_pos w
  have hnot : (~~~maxV).toNat = 2 ^ w * (2 ^ (64 - w) - 1) := by
    rw [UInt64.toNat_not, hmax, Nat.mul_sub, ← hpow, Nat.mul_one, UInt64.size]
    omega
  rw [UInt64.toNat_or, hnot, Nat.or_comm, ← Nat.two_pow_add_eq_or_of_lt hv, Nat.mul_sub, ← hpow,
    Nat.mul_one, Nat.add_comm]

/-- The ones above the width are the sign. -/
theorem toInt_signExtend {v maxV : UInt64} {w : ℕ} (hw : 0 < w) (hw64 : w ≤ 64)
    (hv : v.toNat < 2 ^ w) (hmax : maxV.toNat = 2 ^ w - 1) :
    (if v &&& (1 <<< UInt64.ofNat (w - 1)) ≠ 0 then v.toInt64 ||| ~~~maxV.toInt64
      else v.toInt64).toInt = twosComplement w v.toNat := by
  have htest := and_sign_ne_zero hw hw64 hv
  have hhalf : 2 ^ w = 2 * 2 ^ (w - 1) := by rw [← pow_succ', Nat.sub_add_cancel hw]
  have htop : 2 ^ w ≤ 2 ^ 64 := Nat.pow_le_pow_right (by decide) hw64
  rw [twosComplement]
  split_ifs with hset hlt hlt
  · exact absurd hlt (Nat.not_lt.mpr (htest.mp hset))
  · have hextended : (v.toInt64 ||| ~~~maxV.toInt64) = (v ||| ~~~maxV).toInt64 := rfl
    rw [hextended, toInt_toInt64, toNat_or_not hw64 hv hmax, if_neg (by omega)]
    omega
  · rw [toInt_toInt64, if_pos (by omega)]
  · exact absurd (htest.mpr (Nat.not_lt.mp hlt)) hset

/-- The bits that there are of a field, as they are and by the sign, and the largest number of
their width. -/
structure Extracted.Reads (x : Extracted) (data : List UInt8) (off len : ℕ) (signed : Bool) :
    Prop where
  raw : x.raw.toNat = bitsAt data off (widthLeft data off len)
  unsigned : signed = false → x.value = x.raw.toInt64 ∧
    x.max = (UInt64.ofNat (2 ^ widthLeft data off len - 1)).toInt64
  signed : signed = true → x.value.toInt = twosComplement (widthLeft data off len) x.raw.toNat ∧
    x.max.toInt = (2 ^ (widthLeft data off len - 1) - 1 : ℕ)

theorem extractBits_reads {data : List UInt8} {off len : ℕ} (signed : Bool) (hlen : 1 ≤ len)
    (hwidth : len ≤ 64) (hin : off / 8 < data.length) :
    ∃ x, extractBits data off len signed 0 = some x ∧ x.Reads data off len signed := by
  have hbyte : off >>> 3 = off / 8 := Nat.shiftRight_eq_div_pow off 3
  obtain ⟨v, m, hloop, hv, hm⟩ := extractBits_loop data off len hlen hwidth hin
  have hleft : 0 < widthLeft data off len ∧ widthLeft data off len ≤ 64 := by
    rw [widthLeft]
    omega
  have hvlt : v.toNat < 2 ^ widthLeft data off len := by
    rw [hv]
    exact bitsAt_lt data off _
  rw [extractBits, if_neg (by omega)]
  dsimp only
  rw [hbyte, if_neg (by omega), ← hbyte, hloop]
  dsimp only
  rw [if_neg hleft.1.ne']
  cases signed with
  | false =>
      rw [if_neg Bool.false_ne_true, if_neg (by decide)]
      refine ⟨_, rfl, hv, fun _ => ⟨rfl, ?_⟩, nofun⟩
      rw [← hm, UInt64.ofNat_toNat]
  | true =>
      rw [if_pos rfl, if_neg (by decide)]
      refine ⟨_, rfl, hv, nofun, fun _ => ⟨toInt_signExtend hleft.1 hleft.2 hvlt hm, ?_⟩⟩
      generalize widthLeft data off len = w at *
      have hhalf : 2 ^ w = 2 * 2 ^ (w - 1) := by rw [← pow_succ', Nat.sub_add_cancel hleft.1]
      have htop : 2 ^ w ≤ 2 ^ 64 := Nat.pow_le_pow_right (by decide) hleft.2
      have hpos := Nat.two_pow_pos (w - 1)
      have hshift : (m >>> 1).toNat = 2 ^ (w - 1) - 1 := by
        rw [UInt64.toNat_shiftRight, hm, hhalf]
        show (2 * 2 ^ (w - 1) - 1) >>> 1 = _
        rw [Nat.shiftRight_one]
        omega
      rw [toInt_toInt64, hshift, if_pos (by omega)]

/-- An extraction reads the bits that there are of the field, and none where the field begins
past the end. -/
theorem extractBits_spec (data : List UInt8) (off len : ℕ) (signed : Bool) (hlen : 1 ≤ len)
    (hwidth : len ≤ 64) :
    (extractBits data off len signed 0 = none ↔ data.length ≤ off / 8) ∧
      ∀ x, extractBits data off len signed 0 = some x →
        x.raw.toNat = bitsAt data off (widthLeft data off len) ∧
        (signed = false → x.value = x.raw.toInt64 ∧
          x.max = (UInt64.ofNat (2 ^ widthLeft data off len - 1)).toInt64) ∧
        (signed = true →
          x.value.toInt = twosComplement (widthLeft data off len) x.raw.toNat ∧
          x.max.toInt = (2 ^ (widthLeft data off len - 1) - 1 : ℕ)) := by
  by_cases hin : off / 8 < data.length
  · obtain ⟨x, hx, hreads⟩ := extractBits_reads signed hlen hwidth hin
    rw [hx]
    refine ⟨iff_of_false nofun (by omega), ?_⟩
    rintro _ ⟨⟩
    exact ⟨hreads.raw, hreads.unsigned, hreads.signed⟩
  · have hbyte : off >>> 3 = off / 8 := Nat.shiftRight_eq_div_pow off 3
    have hnone : extractBits data off len signed 0 = none := by
      rw [extractBits, if_neg (by omega)]
      dsimp only
      rw [hbyte, if_pos (by omega)]
    rw [hnone]
    exact ⟨iff_of_true rfl (by omega), nofun⟩

/-- A field of four bytes with two left, the sign in the last of them. -/
theorem extractBits_spec_cut :
    extractBits [0xaa, 0xfe, 0xff] 8 32 true 0 = some ⟨-2, 0x7fff, 0xfffe⟩ ∧
      (extractBits [0xaa, 0xfe, 0xff] 8 32 true 0 = none ↔ [0xaa, 0xfe, 0xff].length ≤ 8 / 8) :=
  ⟨by decide, (extractBits_spec [0xaa, 0xfe, 0xff] 8 32 true (by decide) (by decide)).1⟩

/-! ## Putting fields together -/

/-- A place for bits. -/
structure Place where
  shift : ℕ
  bits : ℕ
deriving DecidableEq, Repr

/-- The number's bits from `m` on are all at the places, which ascend. -/
def CoveredBy (n : ℕ) : ℕ → List Place → Prop
  | m, [] => n / 2 ^ m = 0
  | m, p :: ps =>
      m ≤ p.shift ∧ 0 < p.bits ∧ n / 2 ^ m % 2 ^ (p.shift - m) = 0 ∧ p.shift + p.bits ≤ 64 ∧
        CoveredBy n (p.shift + p.bits) ps

/-- What is put together is the number exactly when each part is what the number has there. -/
theorem foldl_put_eq_iff {α : Type*} (place : α → Place) (x : α → UInt64) (n : ℕ) (ps : List α)
    (m : ℕ) (acc : UInt64) (hacc : acc.toNat < 2 ^ m) (hcov : CoveredBy n m (ps.map place))
    (hx : ∀ p ∈ ps, (x p).toNat < 2 ^ (place p).bits) :
    (ps.foldl (fun v p => v ||| (x p <<< UInt64.ofNat (place p).shift)) acc).toNat = n ↔
      acc.toNat = n % 2 ^ m ∧
        ∀ p ∈ ps, (x p).toNat = n / 2 ^ (place p).shift % 2 ^ (place p).bits := by
  induction ps generalizing m acc with
  | nil =>
      have hn : n % 2 ^ m = n :=
        Nat.mod_eq_of_lt (Nat.lt_of_div_eq_zero (Nat.two_pow_pos m) hcov)
      rw [List.foldl_nil, hn]
      exact ⟨fun h => ⟨h, nofun⟩, fun h => h.1⟩
  | cons p ps ih =>
      obtain ⟨hm, hbits, hgap, hroom, hcov⟩ := hcov
      obtain ⟨hxp, hx⟩ := List.forall_mem_cons.mp hx
      have hle : 2 ^ m ≤ 2 ^ (place p).shift := Nat.pow_le_pow_right (by decide) hm
      have hput := toNat_put (Nat.lt_of_lt_of_le hacc hle) hxp hbits hroom
      have hnext : (acc ||| (x p <<< UInt64.ofNat (place p).shift)).toNat <
          2 ^ ((place p).shift + (place p).bits) := by
        rw [hput, pow_add]
        have := Nat.mul_le_mul_left (2 ^ (place p).shift) hxp
        rw [Nat.mul_succ] at this
        omega
      -- the number below the end of the part
      have hlow : n % 2 ^ (place p).shift = n % 2 ^ m := by
        have h := Nat.mod_mul (x := n) (a := 2 ^ m) (b := 2 ^ ((place p).shift - m))
        rw [← pow_add, Nat.add_sub_cancel' hm, hgap, Nat.mul_zero, Nat.add_zero] at h
        exact h
      have hmod : n % 2 ^ ((place p).shift + (place p).bits) =
          n % 2 ^ m + 2 ^ (place p).shift * (n / 2 ^ (place p).shift % 2 ^ (place p).bits) := by
        rw [pow_add, Nat.mod_mul, hlow]
      have hsplit : acc.toNat + 2 ^ (place p).shift * (x p).toNat =
          n % 2 ^ m + 2 ^ (place p).shift * (n / 2 ^ (place p).shift % 2 ^ (place p).bits) ↔
          acc.toNat = n % 2 ^ m ∧
            (x p).toNat = n / 2 ^ (place p).shift % 2 ^ (place p).bits := by
        constructor
        · intro h
          have hlt : n % 2 ^ m < 2 ^ (place p).shift :=
            Nat.lt_of_lt_of_le (Nat.mod_lt n (Nat.two_pow_pos m)) hle
          have hmod := congrArg (· % 2 ^ (place p).shift) h
          simp only [Nat.add_mul_mod_self_left] at hmod
          rw [Nat.mod_eq_of_lt (Nat.lt_of_lt_of_le hacc hle), Nat.mod_eq_of_lt hlt] at hmod
          rw [hmod, Nat.add_left_cancel_iff] at h
          exact ⟨hmod, Nat.eq_of_mul_eq_mul_left (Nat.two_pow_pos _) h⟩
        · rintro ⟨hlow, hpart⟩
          rw [hlow, hpart]
      rw [List.foldl_cons, ih _ _ hnext hcov hx, hput, hmod, hsplit, List.forall_mem_cons,
        and_assoc]

/-- Parts that are no more than what the number has there make no more than the number. -/
theorem foldl_put_le {α : Type*} (place : α → Place) (x : α → UInt64) (n : ℕ) (ps : List α)
    (m : ℕ) (acc : UInt64) (hacc : acc.toNat < 2 ^ m) (hcov : CoveredBy n m (ps.map place))
    (hx : ∀ p ∈ ps, (x p).toNat < 2 ^ (place p).bits) (hlow : acc.toNat ≤ n % 2 ^ m)
    (hparts : ∀ p ∈ ps, (x p).toNat ≤ n / 2 ^ (place p).shift % 2 ^ (place p).bits) :
    (ps.foldl (fun v p => v ||| (x p <<< UInt64.ofNat (place p).shift)) acc).toNat ≤ n := by
  induction ps generalizing m acc with
  | nil => exact Nat.le_trans hlow (Nat.mod_le n _)
  | cons p ps ih =>
      obtain ⟨hm, hbits, hgap, hroom, hcov⟩ := hcov
      obtain ⟨hxp, hx⟩ := List.forall_mem_cons.mp hx
      obtain ⟨hpart, hparts⟩ := List.forall_mem_cons.mp hparts
      have hle : 2 ^ m ≤ 2 ^ (place p).shift := Nat.pow_le_pow_right (by decide) hm
      have hput := toNat_put (Nat.lt_of_lt_of_le hacc hle) hxp hbits hroom
      have hnext : (acc ||| (x p <<< UInt64.ofNat (place p).shift)).toNat <
          2 ^ ((place p).shift + (place p).bits) := by
        rw [hput, pow_add]
        have := Nat.mul_le_mul_left (2 ^ (place p).shift) hxp
        rw [Nat.mul_succ] at this
        omega
      have hsame : n % 2 ^ (place p).shift = n % 2 ^ m := by
        have h := Nat.mod_mul (x := n) (a := 2 ^ m) (b := 2 ^ ((place p).shift - m))
        rw [← pow_add, Nat.add_sub_cancel' hm, hgap, Nat.mul_zero, Nat.add_zero] at h
        exact h
      refine ih _ _ hnext hcov hx ?_ hparts
      have hscaled := Nat.mul_le_mul_left (2 ^ (place p).shift) hpart
      rw [hput, pow_add, Nat.mod_mul, hsame]
      omega

end Canboat
