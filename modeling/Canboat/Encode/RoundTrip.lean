import Canboat.Core.Exact
import Canboat.Decode.Field
import Canboat.Encode.Packing
import Canboat.Lib.Nearest

/-!
# A reading, encoded again

A reading is a raw pattern, scaled. Staged again it is the pattern it was read
from, and packed among other fields it is where an extraction finds it.
-/

namespace Canboat

open LittleEndian

/-- A field within the payload, read by its sign. -/
theorem extractBits_whole {data : List UInt8} {off w : ℕ} {r : UInt64} (signed : Bool)
    (hpos : 1 ≤ w) (hwidth : w ≤ 64) (hin : off + w ≤ 8 * data.length)
    (hr : bitsAt data off w = r.toNat) :
    ∃ x, extractBits data off w signed 0 = some x ∧ x.raw = r ∧
      x.value.toInt = if signed then twosComplement w r.toNat else r.toInt64.toInt := by
  have hleft : widthLeft data off w = w := Nat.min_eq_left (by omega)
  obtain ⟨x, hx, hreads⟩ := extractBits_reads signed hpos hwidth
    (show off / 8 < data.length by omega)
  have hraw : x.raw = r := by
    rw [← UInt64.toNat_inj, hreads.raw, hleft, hr]
  refine ⟨x, hx, hraw, ?_⟩
  cases signed with
  | false => rw [(hreads.unsigned rfl).1, hraw, if_neg Bool.false_ne_true]
  | true => rw [(hreads.signed rfl).1, hleft, hraw, if_pos rfl]

namespace BitBuffer

variable {b : BitBuffer}

/-- Values of some widths, one after another. -/
def writeAll (b : BitBuffer) (writes : List (ℕ × UInt64)) : BitBuffer :=
  writes.foldl (fun b write => b.writeBits write.1 write.2) b

/-- What stands in the buffer stays where it is. -/
theorem Packed.writeAll (h : b.Packed) (writes : List (ℕ × UInt64)) :
    (b.writeAll writes).Packed ∧ b.nextBit ≤ (b.writeAll writes).nextBit ∧
      ∃ above, decode (b.writeAll writes).buf = decode b.buf + 2 ^ b.nextBit * above := by
  induction writes generalizing b with
  | nil => exact ⟨h, le_rfl, 0, by rw [Nat.mul_zero, Nat.add_zero]; rfl⟩
  | cons write writes ih =>
      obtain ⟨hwritten, hnext, hdecode⟩ := h.writeBits write.1 write.2
      obtain ⟨hpacked, hle, above, habove⟩ := ih hwritten
      rw [hnext] at hle
      refine ⟨hpacked, Nat.le_trans (Nat.le_add_right _ _) hle,
        write.2.toNat % 2 ^ write.1 + 2 ^ write.1 * above, ?_⟩
      rw [BitBuffer.writeAll, List.foldl_cons, ← BitBuffer.writeAll, habove, hdecode, hnext,
        pow_add, Nat.mul_add, Nat.add_assoc, Nat.mul_assoc]

/-- **A field is read back.** The bits written are found where the buffer ended before, whatever
is written after them. -/
theorem Packed.extractBits_writeAll (h : b.Packed) {w : ℕ} {raw : UInt64} (hpos : 1 ≤ w)
    (hwidth : w ≤ 64) (hraw : raw.toNat < 2 ^ w) (after : List (ℕ × UInt64)) (signed : Bool) :
    ∃ x, extractBits ((b.writeBits w raw).writeAll after).buf b.nextBit w signed 0 = some x ∧
      x.raw = raw ∧ x.value.toInt =
        if signed then twosComplement w raw.toNat else raw.toInt64.toInt := by
  obtain ⟨hwritten, hnext, hdecode⟩ := h.writeBits w raw
  obtain ⟨hpacked, hle, above, habove⟩ := hwritten.writeAll after
  have hroom : b.nextBit + w ≤ 8 * ((b.writeBits w raw).writeAll after).buf.length := by
    rw [hnext] at hle
    rw [hpacked.length]
    omega
  have hbits : bitsAt ((b.writeBits w raw).writeAll after).buf b.nextBit w = raw.toNat := by
    rw [bitsAt, habove, hdecode, hnext, Nat.mod_eq_of_lt hraw, pow_add, Nat.mul_assoc,
      Nat.add_assoc, ← Nat.mul_add, Nat.add_mul_div_left _ _ (Nat.two_pow_pos _),
      Nat.div_eq_of_lt h.bound, Nat.zero_add, Nat.add_mul_mod_self_left, Nat.mod_eq_of_lt hraw]
  exact extractBits_whole signed hpos hwidth hroom hbits

end BitBuffer

/-! ## The mask -/

theorem toNat_allOnes_width {w : UInt32} (hw : w ≤ 64) :
    (allOnes w).toNat = 2 ^ w.toNat - 1 := by
  have hwidth : w.toNat ≤ 64 := hw
  rw [allOnes]
  split_ifs with hfull
  · have hfull' : 64 ≤ w.toNat := hfull
    rw [show w.toNat = 64 by omega]
    rfl
  · have hlt : w.toNat < 64 := Nat.lt_of_not_le hfull
    have hshift : w.toUInt64.toNat % 64 = w.toNat := Nat.mod_eq_of_lt hlt
    have hroom : 2 ^ w.toNat < 2 ^ 64 := Nat.pow_lt_pow_right (by decide) hlt
    have hpos := Nat.two_pow_pos w.toNat
    have hone : ((1 : UInt64) <<< w.toUInt64).toNat = 2 ^ w.toNat := by
      rw [UInt64.toNat_shiftLeft, hshift, Nat.shiftLeft_eq, UInt64.toNat_one, Nat.one_mul,
        Nat.mod_eq_of_lt hroom]
    rw [UInt64.toNat_sub_of_le _ _ (by rw [UInt64.le_iff_toNat_le, hone]; exact hpos), hone]
    rfl

theorem toNat_maskToWidth (n : Int64) {w : UInt32} (hw : w ≤ 64) :
    (maskToWidth n w).toNat = n.toUInt64.toNat % 2 ^ w.toNat := by
  rw [maskToWidth, UInt64.toNat_and, toNat_allOnes_width hw, Nat.and_two_pow_sub_one_eq_mod]

/-- A mask takes the number modulo the width. -/
theorem cast_maskToWidth (n : Int64) {w : UInt32} (hw : w ≤ 64) :
    ((maskToWidth n w).toNat : ℤ) = n.toInt % 2 ^ w.toNat := by
  have hdvd : (2 : ℤ) ^ w.toNat ∣ 2 ^ 64 := pow_dvd_pow 2 hw
  have hlt : (n.toUInt64.toNat : ℤ) < 2 ^ 64 := by exact_mod_cast n.toBitVec.isLt
  have hword : (n.toUInt64.toNat : ℤ) = n.toInt % 2 ^ 64 :=
    calc (n.toUInt64.toNat : ℤ) = n.toUInt64.toNat % (2 ^ 64 : ℕ) :=
          (Int.emod_eq_of_lt (Int.natCast_nonneg _) (by exact_mod_cast hlt)).symm
      _ = n.toInt % 2 ^ 64 := (Int.bmod_emod).symm.trans
          (by rw [← Int64.toInt_toBitVec, BitVec.toInt_eq_toNat_bmod]; rfl)
  rw [toNat_maskToWidth n hw, Int.natCast_mod, hword, Nat.cast_pow, Nat.cast_ofNat,
    Int.emod_emod_of_dvd _ hdvd]

theorem twosComplement_emod {w n : ℕ} (hn : n < 2 ^ w) :
    twosComplement w n % 2 ^ w = n := by
  have hlt : (n : ℤ) < 2 ^ w := by exact_mod_cast hn
  rw [twosComplement]
  split_ifs
  · exact Int.emod_eq_of_lt (Int.natCast_nonneg n) hlt
  · rw [Nat.cast_pow, Nat.cast_ofNat, Int.sub_emod_right]
    exact Int.emod_eq_of_lt (Int.natCast_nonneg n) hlt

/-- The mask undoes the reading of the sign. -/
theorem maskToWidth_read {raw : UInt64} {value : Int64} {w : UInt32} {signed : Bool}
    (hw : w ≤ 64) (hraw : raw.toNat < 2 ^ w.toNat)
    (hvalue : value.toInt =
      if signed then twosComplement w.toNat raw.toNat else raw.toInt64.toInt) :
    maskToWidth value w = raw := by
  rw [← UInt64.toNat_inj]
  cases signed with
  | true =>
      have hmask := cast_maskToWidth value hw
      rw [hvalue, if_pos rfl, twosComplement_emod hraw] at hmask
      exact_mod_cast hmask
  | false =>
      have hword : value = raw.toInt64 := Int64.toInt_inj.mp hvalue
      rw [toNat_maskToWidth value hw, hword, UInt64.toUInt64_toInt64, Nat.mod_eq_of_lt hraw]

section Values

variable {F : Type} [Float64 F] (db : PgnDatabase F) {f : FieldInfo F} {bl : UInt32}

theorem valueToRaw_int (hbl : f.bitLength = some bl) (hfloat : f.fieldType ≠ some .float)
    (n : Int64) : valueToRaw db f (.int n) = .ok (maskToWidth n bl) := by
  unfold valueToRaw
  rw [hbl]
  generalize f.fieldType = t at hfloat
  rcases t with - | t
  · rfl
  · cases t with
    | float => exact absurd rfl hfloat
    | _ => rfl

theorem valueToRaw_pgn (hbl : f.bitLength = some bl) (p : UInt32) :
    valueToRaw db f (.pgn p) = .ok (maskToWidth p.toUInt64.toInt64 bl) := by
  unfold valueToRaw
  rw [hbl]
  rcases f.fieldType with - | t
  · rfl
  · cases t <;> rfl

theorem valueToRaw_number (hbl : f.bitLength = some bl) (hfloat : f.fieldType ≠ some .float)
    (x : F) : valueToRaw db f (.number x) = (scaledToRaw f x).map (maskToWidth · bl) := by
  unfold valueToRaw
  rw [hbl]
  generalize f.fieldType = t at hfloat
  rcases t with - | t
  · rfl
  · cases t with
    | float => exact absurd rfl hfloat
    | _ => rfl

end Values

/-! ## The scale -/

namespace Exact

theorem round_eq (y : ℚ) : (Float64.round (ofQ y) : Exact) = ofQ (nearest y) := by
  show ofQ (if 0 ≤ y then (⌊y + 1 / 2⌋ : ℤ) else (-⌊-y + 1 / 2⌋ : ℤ)) = ofQ (nearest y)
  rw [nearest]
  split_ifs
  · rfl
  · rfl

/-- A cast holds an integer within the bounds of the type. -/
theorem toInt_toI64 (n : ℤ) : (Float64.toI64 (ofQ n : Exact)).toInt =
    max (-9223372036854775808) (min 9223372036854775807 n) := by
  have hwithin : Float64.toIntWithin (-9223372036854775808) 9223372036854775807 (ofQ n : Exact) =
      max (-9223372036854775808) (min 9223372036854775807 n) := by
    show max _ (min _ (if (0 : ℚ) ≤ n then ⌊(n : ℚ)⌋ else -⌊-(n : ℚ)⌋)) = _
    rw [← Int.cast_neg, Int.floor_intCast, Int.floor_intCast, neg_neg, ite_self]
  rw [Float64.toI64, hwithin, Int64.toInt_ofInt_of_le (by omega) (by omega)]

theorem toI64_intCast (n : Int64) : Float64.toI64 (ofQ n.toInt : Exact) = n := by
  have hlo : -9223372036854775808 ≤ n.toInt := Int64.le_toInt n
  have hhi : n.toInt ≤ 9223372036854775807 := Int64.toInt_le n
  rw [← Int64.toInt_inj, toInt_toI64]
  omega

end Exact

open Exact

/-- The resolution and the shift of the unit are numbers, and the resolution is not zero. -/
structure FieldInfo.Scaled (f : FieldInfo Exact) (res unitOffset : ℚ) : Prop where
  resolution : f.resolution.getD (ofQ 1) = ofQ res
  unitOffset : f.unitOffset = ofQ unitOffset
  ne_zero : res ≠ 0

theorem scaledToRaw_scaled {f : FieldInfo Exact} {res u : ℚ} (h : f.Scaled res u) (n : Int64) :
    scaledToRaw f (ofQ (n.toInt * res + (f.offset.getD 0).toInt + u)) = .ok n := by
  have hquot : (n.toInt * res + (f.offset.getD 0).toInt + u - u - (f.offset.getD 0).toInt) / res =
      (n.toInt : ℚ) := by
    field_simp [h.ne_zero]
    ring
  unfold scaledToRaw
  dsimp only
  rw [ofInt_eq, ofInt_eq, Int.cast_one, h.resolution, h.unitOffset, sub_eq, sub_eq,
    div_eq h.ne_zero, hquot, round_eq, Nearest.intCast, toI64_intCast]
  rfl

/-- A value that is a number, as a value to place into a field. -/
def FieldValue.toEncode {F : Type} : FieldValue F → Option (EncodeValue F)
  | .integer n => some (.int n)
  | .number x => some (.number x)
  | _ => none

/-- **A reading is encoded back.** The value of a field of numbers, staged again, is the pattern
it was read from, and an extraction finds the pattern where it was packed. -/
theorem decodeNumber_round_trip (db : PgnDatabase Exact) {f : FieldInfo Exact} {res u : ℚ}
    (h : f.Scaled res u)
    (htype : f.fieldType = some .number ∨ f.fieldType = some .decimal) {bl : UInt32}
    (hbl : f.bitLength = some bl) (hpos : 1 ≤ bl) (hwidth : bl ≤ 64) (signed : Bool)
    (data : List UInt8) (bitOffset : UInt32)
    (hin : bitOffset.toNat + bl.toNat ≤ 8 * data.length) (r : UInt64)
    (hr : bitsAt data bitOffset.toNat bl.toNat = r.toNat)
    (hsentinel : f.unknownValue ≠ some r ∧ f.outOfRangeValue ≠ some r ∧
      f.reservedValue ≠ some r) (before after : List (ℕ × UInt64)) :
    ∃ v, (decodeNumber f data bitOffset bl signed).toEncode = some v ∧
      valueToRaw db f v = .ok r ∧
      ∀ sign, ∃ x, extractBits (((BitBuffer.empty.writeAll before).writeBits bl.toNat r).writeAll
        after).buf (BitBuffer.empty.writeAll before).nextBit bl.toNat sign 0 = some x ∧
        x.raw = r := by
  have hraw : r.toNat < 2 ^ bl.toNat := by
    rw [← hr]
    exact bitsAt_lt _ _ _
  have hpos' : 1 ≤ bl.toNat := hpos
  have hwidth' : bl.toNat ≤ 64 := hwidth
  obtain ⟨x, hx, hxraw, hxvalue⟩ :=
    extractBits_whole (if f.offset.getD 0 ≠ 0 then false else signed) hpos' hwidth' hin hr
  have hsentinel' : sentinelFieldValue f x = none := by
    unfold sentinelFieldValue classifySentinel
    rw [hxraw, if_neg hsentinel.1, if_neg hsentinel.2.1, if_neg hsentinel.2.2]
  have hmask : maskToWidth x.value bl = r := maskToWidth_read hwidth hraw hxvalue
  obtain ⟨hpacked, -, -⟩ := BitBuffer.packed_empty.writeAll before
  refine ⟨if Float64.beq (ofQ res) (ofQ 1) ∧ f.unit.isNone ∧ f.physicalQuantity.isNone ∧
    Float64.beq (ofQ u) (ofQ 0) ∧ Float64.beq (ofQ ((f.offset.getD 0).toInt : ℚ)) (ofQ 0) then
      .int x.value
    else .number (ofQ (x.value.toInt * res + (f.offset.getD 0).toInt + u)), ?_, ?_, ?_⟩
  · unfold decodeNumber extracted
    dsimp only
    rw [hx]
    dsimp only
    rw [hsentinel', ofInt_eq, ofInt_eq, ofInt_eq, ofInt_eq, Int.cast_one, Int.cast_zero,
      h.resolution, h.unitOffset]
    dsimp only [Option.getD_none]
    split_ifs
    · rfl
    · rfl
  · have hfloat : f.fieldType ≠ some .float := by
      rcases htype with htype | htype
      · rw [htype]
        nofun
      · rw [htype]
        nofun
    split_ifs
    · rw [valueToRaw_int db hbl hfloat, hmask]
    · rw [valueToRaw_number db hbl hfloat, scaledToRaw_scaled h, Except.map, hmask]
  · intro sign
    obtain ⟨y, hy, hyraw, -⟩ := hpacked.extractBits_writeAll hpos' hwidth' hraw after sign
    exact ⟨y, hy, hyraw⟩

/-- A temperature in hundredths of a kelvin, shown in degrees Celsius. -/
def temperatureField : FieldInfo Exact :=
  { (FieldInfo.number (ofQ 0) 1 ⟨"temperature", by decide⟩ 16) with
    resolution := some (ofQ (1 / 100))
    unknownValue := some 65535
    unit := some "C"
    unitOffset := ofQ (-27315 / 100) }

theorem temperatureField_scaled : temperatureField.Scaled (1 / 100) (-27315 / 100) :=
  ⟨rfl, rfl, by norm_num⟩

theorem decodeNumber_round_trip_temperature :
    ∃ v, (decodeNumber temperatureField [0xff, 0x83, 0x72] 8 16 false).toEncode = some v ∧
      valueToRaw ⟨.metric, [], [], [], [], [], List.forall_mem_nil _⟩ temperatureField v =
        .ok 29315 ∧
      ∀ sign, ∃ x, extractBits (((BitBuffer.empty.writeAll [(3, 5)]).writeBits 16 29315).writeAll
        [(5, 31)]).buf (BitBuffer.empty.writeAll [(3, 5)]).nextBit 16 sign 0 = some x ∧
        x.raw = 29315 :=
  decodeNumber_round_trip _ temperatureField_scaled (.inl rfl) rfl (by decide) (by decide) false _ 8
    (by decide) 29315 (by decide) ⟨by decide, by decide, by decide⟩ [(3, 5)] [(5, 31)]

end Canboat
