import Canboat.Encode.RoundTrip

/-!
# Values and the width of a field

A staged number is cut to the width of its field without a word. It is read back
as the number it was if and only if it is within the range of the readings.
-/

namespace Canboat

open Exact

/-- What the decoder makes of the bits: a number scaled and shifted, a time scaled, a count,
or the bits themselves. -/
inductive Reading
  | number
  | time
  | count
  | plain
deriving DecidableEq, Repr

def FieldType.reading : FieldType → Option Reading
  | .number | .decimal | .fieldIndex => some .number
  | .time | .duration => some .time
  | .dynamicFieldLength => some .count
  | .lookup | .indirectLookup | .bitLookup | .dynamicFieldKey | .date | .mmsi | .pgn => some .plain
  | _ => none

section Decoder

variable {F : Type} [Float64 F] (f : FieldInfo F)

def FieldInfo.readSigned : Reading → Bool
  | .number => if f.offset.getD 0 ≠ 0 then false else f.signed.getD false
  | .time => f.signed.getD false
  | .count | .plain => false

/-- Staged bits, as the decoder extracts them. -/
def FieldInfo.readBack (k : Reading) (bl : UInt32) (raw : UInt64) : Option ℤ :=
  let shift := if k = .time then f.offset.getD 0 else 0
  (extractBits (BitBuffer.empty.writeBits bl.toNat raw).buf 0 bl.toNat (f.readSigned k) shift).map
    fun x => if k = .plain then x.raw.toNat else x.value.toInt

/-- The extracted integer, as the decoder shows it. -/
def FieldInfo.shown (k : Reading) (m : ℤ) : F :=
  let resolution := f.resolution.getD (Float64.ofInt 1)
  match k with
  | .number => Float64.add (Float64.add (Float64.mul (Float64.ofInt m) resolution)
      (Float64.ofInt (f.offset.getD 0).toInt)) f.unitOffset
  | .time => Float64.mul (Float64.ofInt m) resolution
  | .count | .plain => Float64.ofInt m

/-- A number is decoded by this reading. -/
theorem decodeNumber_reading (data : List UInt8) (bitOffset bitLength : UInt32) :
    decodeNumber f data bitOffset bitLength (f.signed.getD false) =
      extracted data bitOffset bitLength (f.readSigned .number) 0 fun ex =>
        (sentinelFieldValue f ex).getD <|
          if Float64.beq (f.resolution.getD (Float64.ofInt 1)) (Float64.ofInt 1 : F) ∧
              f.unit.isNone ∧ f.physicalQuantity.isNone ∧
              Float64.beq f.unitOffset (Float64.ofInt 0) ∧
              Float64.beq (Float64.ofInt (f.offset.getD 0).toInt) (Float64.ofInt 0 : F) then
            .integer ex.value
          else .number (f.shown .number ex.value.toInt) := rfl

theorem decodeTime_reading (data : List UInt8) (bitOffset bitLength : UInt32) :
    decodeTime f data bitOffset bitLength (f.signed.getD false) =
      extracted data bitOffset bitLength (f.readSigned .time) (f.offset.getD 0) fun ex =>
        (sentinelFieldValue f ex).getD (.time ex.value (f.shown .time ex.value.toInt)) := rfl

end Decoder

/-- A value with a number in it. -/
inductive Quantity
  | int (n : Int64)
  | pgn (p : UInt32)
  | number (q : ℚ)

def Quantity.value : Quantity → EncodeValue Exact
  | .int n => .int n
  | .pgn p => .pgn p
  | .number q => .number (ofQ q)

/-- The bits stand for the value: for the very integer, or for a number within half a step of
the resolution. -/
def Denotes (f : FieldInfo Exact) (k : Reading) (bl : UInt32) (raw : UInt64) : Quantity → Prop
  | .int n => f.readBack k bl raw = some n.toInt
  | .pgn p => f.readBack k bl raw = some (p.toNat : ℤ)
  | .number q => ∃ m ∈ f.readBack k bl raw, ∃ step shown : ℚ,
      f.resolution.getD (ofQ 1) = ofQ step ∧ f.shown k m = ofQ shown ∧ |shown - q| ≤ |step| / 2

/-- The value is refused as out of range, or bits are staged that stand for it. -/
def RefusedOrDenoted (b : PgnBuilder Exact) (order : UInt8) (id : Identifier) (f : FieldInfo Exact)
    (k : Reading) (bl : UInt32) (v : Quantity) : Prop :=
  (∃ x, b.push order id v.value = .error (.valueOutOfRange f.name x)) ∨
    ∃ b' raw, b.push order id v.value = .ok b' ∧
      b'.staged[order.toNat - 1]? = some (some (.scalar raw)) ∧ Denotes f k bl raw v

/-! ## The range of the readings -/

/-- A reading of all 64 bits as a number is signed. -/
def FieldInfo.lowest (f : FieldInfo Exact) (k : Reading) (w : ℕ) : ℤ :=
  if k ≠ .plain ∧ (f.readSigned k ∨ w = 64) then -2 ^ (w - 1) else 0

/-- No value is above the largest `i64`. -/
def FieldInfo.highest (f : FieldInfo Exact) (k : Reading) (w : ℕ) : ℤ :=
  if f.readSigned k ∨ w = 64 then 2 ^ (w - 1) - 1 else 2 ^ w - 1

/-- Only numbers are shifted, and only numbers and times are scaled. -/
structure FieldInfo.Rated (f : FieldInfo Exact) (k : Reading) (res u : ℚ) : Prop where
  resolution : f.resolution.getD (ofQ 1) = ofQ res
  unitOffset : f.unitOffset = ofQ u
  unshifted : k ≠ .number → f.offset.getD 0 = 0 ∧ u = 0
  unscaled : k = .count ∨ k = .plain → res = 1

/-- Within the range of the readings, or a number within a half of it. The half itself is in
where the cast to `i64` holds the number at its bound. -/
def Quantity.Fits (f : FieldInfo Exact) (k : Reading) (w : ℕ) (res u : ℚ) : Quantity → Prop
  | .int n => f.lowest k w ≤ n.toInt ∧ n.toInt ≤ f.highest k w
  | .pgn p => (p.toNat : ℤ) ≤ f.highest k w
  | .number q =>
      let y := (q - u - (f.offset.getD 0).toInt) / res
      res = 0 ∨
        (f.lowest k w - 1 / 2 < y ∨
            f.lowest k w = -9223372036854775808 ∧ y = f.lowest k w - 1 / 2) ∧
          (y < f.highest k w + 1 / 2 ∨
            f.highest k w = 9223372036854775807 ∧ y = f.highest k w + 1 / 2)

section Range

variable {f : FieldInfo Exact} {k : Reading} {w : ℕ}

theorem lowest_bounds (hpos : 1 ≤ w) (hwidth : w ≤ 64) :
    -9223372036854775808 ≤ f.lowest k w ∧ f.lowest k w ≤ 0 := by
  have hle : (2 : ℤ) ^ (w - 1) ≤ 2 ^ 63 := pow_le_pow_right₀ (by decide) (by omega)
  have hpow : (0 : ℤ) < 2 ^ (w - 1) := by positivity
  rw [FieldInfo.lowest]
  split_ifs <;> constructor <;> linarith

theorem highest_bounds (hpos : 1 ≤ w) (hwidth : w ≤ 64) :
    0 ≤ f.highest k w ∧ f.highest k w ≤ 9223372036854775807 := by
  rw [FieldInfo.highest]
  split_ifs with hsigned
  · have hle : (2 : ℤ) ^ (w - 1) ≤ 2 ^ 63 := pow_le_pow_right₀ (by decide) (by omega)
    have hpow : (0 : ℤ) < 2 ^ (w - 1) := by positivity
    constructor <;> linarith
  · have hne : w ≠ 64 := fun h => hsigned (.inr h)
    have hle : (2 : ℤ) ^ w ≤ 2 ^ 63 := pow_le_pow_right₀ (by decide) (by omega)
    have hpow : (0 : ℤ) < 2 ^ w := by positivity
    constructor <;> linarith

theorem toInt_toInt64_of_lt {raw : UInt64} (hwidth : w ≤ 64) (hraw : raw.toNat < 2 ^ w) :
    raw.toInt64.toInt = if w = 64 then twosComplement w raw.toNat else raw.toNat := by
  rw [toInt_toInt64, twosComplement]
  by_cases hfull : w = 64
  · subst hfull
    rw [if_pos rfl]
    split_ifs
    · rfl
    · omega
    · omega
    · rfl
  · have hle : 2 ^ w ≤ 2 ^ 63 := Nat.pow_le_pow_right (by decide) (by omega)
    rw [if_neg hfull, if_pos (by omega)]

/-- The extracted integer, by the sign. -/
theorem readBack_eq (hshift : k ≠ .number → f.offset.getD 0 = 0) {bl : UInt32} (hpos : 1 ≤ bl)
    (hwidth : bl ≤ 64) {raw : UInt64} (hraw : raw.toNat < 2 ^ bl.toNat) :
    f.readBack k bl raw = some (if k ≠ .plain ∧ (f.readSigned k ∨ bl.toNat = 64) then
      twosComplement bl.toNat raw.toNat else raw.toNat) := by
  have hpos' : 1 ≤ bl.toNat := hpos
  have hwidth' : bl.toNat ≤ 64 := hwidth
  obtain ⟨x, hx, hxraw, hvalue⟩ := BitBuffer.packed_empty.extractBits_writeAll hpos' hwidth' hraw []
    (f.readSigned k)
  have hzero : (if k = .time then f.offset.getD 0 else 0) = 0 := by
    split_ifs with htime
    · exact hshift (by rw [htime]; decide)
    · rfl
  have hx' : extractBits (BitBuffer.empty.writeBits bl.toNat raw).buf 0 bl.toNat (f.readSigned k) 0 =
      some x := hx
  rw [FieldInfo.readBack, hzero, hx', Option.map_some, hvalue, hxraw, toInt_toInt64_of_lt hwidth' hraw]
  cases k with
  | plain => rfl
  | count => simp [FieldInfo.readSigned]
  | number => cases f.readSigned .number <;> simp
  | time => cases f.readSigned .time <;> simp

/-- Two numbers with the same residue are the same or far apart. -/
theorem two_le_abs_sub {m n : ℤ} (hpos : 1 ≤ w) (hdvd : (2 : ℤ) ^ w ∣ m - n) (hne : m ≠ n) :
    2 ≤ |m - n| := by
  have hpow : (2 : ℤ) ≤ 2 ^ w := by
    calc (2 : ℤ) = 2 ^ 1 := rfl
      _ ≤ 2 ^ w := pow_le_pow_right₀ (by decide) hpos
  by_contra hlt
  have := Int.eq_zero_of_abs_lt_dvd hdvd (by omega)
  omega

/-- Of all the numbers with a residue one is within a range of that many. -/
theorem eq_iff_within {m n lo hi : ℤ} (hdvd : (2 : ℤ) ^ w ∣ m - n) (hlo : lo ≤ m) (hhi : m ≤ hi)
    (hrange : hi - lo < 2 ^ w) : m = n ↔ lo ≤ n ∧ n ≤ hi := by
  constructor
  · rintro rfl
    exact ⟨hlo, hhi⟩
  · rintro ⟨hge, hle⟩
    have := Int.eq_zero_of_abs_lt_dvd hdvd (abs_lt.mpr ⟨by linarith, by linarith⟩)
    omega

/-- **A masked number, read back.** The reading has the residue of the number, and is the number
if and only if that is within the range. -/
theorem readBack_maskToWidth (hshift : k ≠ .number → f.offset.getD 0 = 0) {bl : UInt32}
    (hpos : 1 ≤ bl) (hwidth : bl ≤ 64) (n : Int64) :
    ∃ m, f.readBack k bl (maskToWidth n bl) = some m ∧
      (m = n.toInt ↔ f.lowest k bl.toNat ≤ n.toInt ∧ n.toInt ≤ f.highest k bl.toNat) ∧
      (m ≠ n.toInt → 2 ≤ |m - n.toInt|) ∧ -9223372036854775808 ≤ m ∧
      (0 ≤ n.toInt → m ≤ n.toInt) := by
  have hpos' : 1 ≤ bl.toNat := hpos
  have hwidth' : bl.toNat ≤ 64 := hwidth
  have hmask := cast_maskToWidth n hwidth
  have hraw : (maskToWidth n bl).toNat < 2 ^ bl.toNat := by
    rw [toNat_maskToWidth n hwidth]
    exact Nat.mod_lt _ (Nat.two_pow_pos _)
  have hread := readBack_eq hshift hpos hwidth hraw
  have hlt : ((maskToWidth n bl).toNat : ℤ) < 2 ^ bl.toNat := by exact_mod_cast hraw
  have hsplit := Int.emod_add_mul_ediv n.toInt (2 ^ bl.toNat)
  rw [← hmask] at hsplit
  have hhalf : (2 : ℤ) ^ bl.toNat = 2 * 2 ^ (bl.toNat - 1) := by
    rw [← pow_succ', Nat.sub_add_cancel hpos']
  have hbot : (2 : ℤ) ^ (bl.toNat - 1) ≤ 2 ^ 63 := pow_le_pow_right₀ (by decide) (by omega)
  have htop : n.toInt ≤ 9223372036854775807 := Int64.toInt_le n
  have hdvd : ∀ c : ℤ,
      (2 : ℤ) ^ bl.toNat ∣ (maskToWidth n bl).toNat - 2 ^ bl.toNat * c - n.toInt := by
    intro c
    refine ⟨-c - n.toInt / 2 ^ bl.toNat, ?_⟩
    linarith
  have hle : 0 ≤ n.toInt → ((maskToWidth n bl).toNat : ℤ) ≤ n.toInt := by
    intro hn
    have := mul_nonneg (le_of_lt (show (0 : ℤ) < 2 ^ bl.toNat by positivity))
      (Int.ediv_nonneg hn (show (0 : ℤ) ≤ 2 ^ bl.toNat by positivity))
    linarith
  refine ⟨_, hread, ?_⟩
  by_cases hsign : k ≠ .plain ∧ (f.readSigned k ∨ bl.toNat = 64)
  · rw [if_pos hsign, FieldInfo.lowest, if_pos hsign, FieldInfo.highest, if_pos hsign.2,
      twosComplement]
    split_ifs with hlow
    · -- the sign bit is clear
      have hlow' : ((maskToWidth n bl).toNat : ℤ) < 2 ^ (bl.toNat - 1) := by exact_mod_cast hlow
      have hdvd' := hdvd 0
      rw [mul_zero, sub_zero] at hdvd'
      exact ⟨eq_iff_within hdvd' (by omega) (by omega) (by omega),
        two_le_abs_sub hpos' hdvd', by omega, hle⟩
    · have hhigh : (2 : ℤ) ^ (bl.toNat - 1) ≤ (maskToWidth n bl).toNat := by
        exact_mod_cast Nat.le_of_not_lt hlow
      have hdvd' := hdvd 1
      rw [mul_one] at hdvd'
      rw [Nat.cast_pow, Nat.cast_ofNat]
      exact ⟨eq_iff_within hdvd' (by omega) (by omega) (by omega),
        two_le_abs_sub hpos' hdvd', by omega, fun hn => by have := hle hn; omega⟩
  · have hdvd' := hdvd 0
    rw [mul_zero, sub_zero] at hdvd'
    rw [if_neg hsign, FieldInfo.lowest, if_neg hsign]
    refine ⟨?_, two_le_abs_sub hpos' hdvd', by omega, hle⟩
    have hwhole := eq_iff_within hdvd' (Int.natCast_nonneg _) (show _ ≤ (2 : ℤ) ^ bl.toNat - 1 by omega)
      (by omega)
    rw [hwhole, FieldInfo.highest]
    split_ifs with hfull
    · -- all 64 bits as they are: no `i64` is above
      have hplain : k = .plain := by
        by_contra hne
        exact hsign ⟨hne, hfull⟩
      have hwide : bl.toNat = 64 := by
        rcases hfull with h | h
        · rw [hplain] at h
          exact absurd h Bool.false_ne_true
        · exact h
      rw [hwide]
      omega
    · rfl

end Range

/-! ## A push -/

section Push

variable {b : PgnBuilder Exact} {order : UInt8} {f : FieldInfo Exact} {k : Reading} {bl : UInt32}
  {res u : ℚ}

theorem not_float_of_reading (htype : f.fieldType.bind FieldType.reading = some k) :
    f.fieldType ≠ some .float := by
  intro hfloat
  rw [hfloat] at htype
  nomatch htype

/-- A field of these types is staged as bits. -/
theorem push_scalar (id : Identifier) (horder : order ≠ 0)
    (hfield : b.pgn.fields[order.toNat - 1]? = some f)
    (htype : f.fieldType.bind FieldType.reading = some k) (v : EncodeValue Exact) :
    b.push order id v = (valueToRaw b.db f v).map fun raw =>
      b.withStaged (order.toNat - 1) (.scalar raw) := by
  have hpush : b.push order id v = b.stage (order.toNat - 1) f v := by
    unfold PgnBuilder.push
    rw [hfield]
    split
    · exact absurd rfl horder
    · nomatch ‹some f = none›
    · injection ‹some f = some _› with h
      rw [h]
  have hstage : stageValue b.db f v = (valueToRaw b.db f v).map .scalar := by
    unfold stageValue
    rcases htyped : f.fieldType with - | t
    · rfl
    · rw [htyped] at htype
      cases t with
      | stringFix | stringLz | stringLau | binary | dynamicFieldValue => nomatch htype
      | _ => rfl
  rw [hpush, PgnBuilder.stage, hstage]
  cases valueToRaw b.db f v with
  | error e => rfl
  | ok raw => rfl

theorem shown_eq (h : f.Rated k res u) (m : ℤ) :
    f.shown k m = ofQ (m * res + (f.offset.getD 0).toInt + u) := by
  unfold FieldInfo.shown
  rw [ofInt_eq, ofInt_eq, ofInt_eq, Int.cast_one, h.resolution, h.unitOffset]
  cases k with
  | number => rfl
  | time =>
      obtain ⟨hzero, hu⟩ := h.unshifted (by decide)
      rw [hzero, hu]
      dsimp only
      rw [mul_eq, Int64.toInt_zero, Int.cast_zero, add_zero, add_zero]
  | count | plain =>
      obtain ⟨hzero, hu⟩ := h.unshifted (by decide)
      rw [hzero, hu, h.unscaled (by decide)]
      dsimp only
      rw [Int64.toInt_zero, Int.cast_zero, add_zero, add_zero, mul_one]

/-- An integer is put down masked, and denoted where it is within the range. -/
theorem denotes_int_iff (h : f.Rated k res u) (hpos : 1 ≤ bl) (hwidth : bl ≤ 64) (n : Int64) :
    f.readBack k bl (maskToWidth n bl) = some n.toInt ↔
      f.lowest k bl.toNat ≤ n.toInt ∧ n.toInt ≤ f.highest k bl.toNat := by
  obtain ⟨m, hread, hfit, -⟩ :=
    readBack_maskToWidth (fun hk => (h.unshifted hk).1) hpos hwidth n
  rw [hread, Option.some_inj, hfit]

/-- A number is rounded, held as an `i64` and masked. -/
theorem denotes_number_iff (h : f.Rated k res u) (hres : res ≠ 0) (hpos : 1 ≤ bl)
    (hwidth : bl ≤ 64) (q : ℚ) :
    Denotes f k bl (maskToWidth (Float64.toI64
      (ofQ (nearest ((q - u - (f.offset.getD 0).toInt) / res)) : Exact)) bl) (.number q) ↔
      (Quantity.number q).Fits f k bl.toNat res u := by
  obtain ⟨m, hread, hfit, hfar, hbelow, habove⟩ :=
    readBack_maskToWidth (fun hk => (h.unshifted hk).1) hpos hwidth (Float64.toI64
      (ofQ (nearest ((q - u - (f.offset.getD 0).toInt) / res)) : Exact))
  have hlow := @lowest_bounds f k bl.toNat hpos hwidth
  have hhigh := @highest_bounds f k bl.toNat hpos hwidth
  have hnear := Nearest.reading_near_iff hlow.1 hlow.2 hhigh.1 hhigh.2 (toInt_toI64 _) hfit hfar
    hbelow habove
  have hdist : |(m : ℚ) * res + (f.offset.getD 0).toInt + u - q| =
      |(m : ℚ) - (q - u - (f.offset.getD 0).toInt) / res| * |res| := by
    rw [← abs_mul]
    congr 1
    field_simp
    ring
  have hscale : |(m : ℚ) * res + (f.offset.getD 0).toInt + u - q| ≤ |res| / 2 ↔
      |(m : ℚ) - (q - u - (f.offset.getD 0).toInt) / res| ≤ 1 / 2 := by
    rw [hdist, show |res| / 2 = 1 / 2 * |res| by ring, mul_le_mul_iff_left₀ (abs_pos.mpr hres)]
  have hdenotes : Denotes f k bl (maskToWidth (Float64.toI64
      (ofQ (nearest ((q - u - (f.offset.getD 0).toInt) / res)) : Exact)) bl) (.number q) ↔
      |(m : ℚ) * res + (f.offset.getD 0).toInt + u - q| ≤ |res| / 2 := by
    constructor
    · rintro ⟨m', hm', step, shown, hstep, hshown, hle⟩
      rw [hread, Option.mem_some_iff] at hm'
      rw [← hm', shown_eq h] at hshown
      rw [h.resolution] at hstep
      rw [ofQ_injective hshown, ofQ_injective hstep]
      exact hle
    · intro hle
      exact ⟨m, hread, res, _, h.resolution, shown_eq h m, hle⟩
  rw [hdenotes, hscale, hnear, Quantity.Fits]
  exact (or_iff_right hres).symm

theorem scaledToRaw_eq (h : f.Rated k res u) (q : ℚ) :
    scaledToRaw f (ofQ q) =
      if res = 0 then .error (.valueOutOfRange f.name (ofQ q))
      else .ok (Float64.toI64
        (ofQ (nearest ((q - u - (f.offset.getD 0).toInt) / res)) : Exact)) := by
  unfold scaledToRaw
  dsimp only
  rw [ofInt_eq, ofInt_eq, Int.cast_one, h.resolution, h.unitOffset, sub_eq, sub_eq]
  by_cases hzero : res = 0
  · rw [if_pos hzero, hzero]
    rfl
  · rw [if_neg hzero, div_eq hzero, round_eq]
    rfl

/-- What was staged is in its slot. -/
theorem refusedOrDenoted_staged_iff {id : Identifier} {v : Quantity} {raw : UInt64}
    (hfield : b.pgn.fields[order.toNat - 1]? = some f)
    (hpush : b.push order id v.value = .ok (b.withStaged (order.toNat - 1) (.scalar raw))) :
    RefusedOrDenoted b order id f k bl v ↔ Denotes f k bl raw v := by
  have hlt : order.toNat - 1 < b.staged.length := by
    rw [b.aligned]
    exact (List.getElem?_eq_some_iff.mp hfield).1
  have hslot : (b.withStaged (order.toNat - 1) (.scalar raw)).staged[order.toNat - 1]? =
      some (some (.scalar raw)) := List.getElem?_set_self hlt
  rw [RefusedOrDenoted, hpush]
  constructor
  · rintro (⟨x, hx⟩ | ⟨b', raw', hb', hraw', hdenotes⟩)
    · nomatch hx
    · rw [← Except.ok.inj hb', hslot] at hraw'
      injection hraw' with hraw'
      injection hraw' with hraw'
      injection hraw' with hraw'
      rw [hraw']
      exact hdenotes
  · intro hdenotes
    exact .inr ⟨_, raw, rfl, hslot, hdenotes⟩

/-- **A value that does not fit is wrapped.** The value is refused or denoted by the staged bits
if and only if it is within the range of the readings. -/
theorem refusedOrDenoted_iff (id : Identifier) (horder : order ≠ 0)
    (hfield : b.pgn.fields[order.toNat - 1]? = some f)
    (htype : f.fieldType.bind FieldType.reading = some k) (hbl : f.bitLength = some bl)
    (hpos : 1 ≤ bl) (hwidth : bl ≤ 64) (h : f.Rated k res u) (v : Quantity) :
    RefusedOrDenoted b order id f k bl v ↔ v.Fits f k bl.toNat res u := by
  have hfloat := not_float_of_reading htype
  have hpush := push_scalar id horder hfield htype v.value
  cases v with
  | int n =>
      rw [Quantity.value, valueToRaw_int b.db hbl hfloat] at hpush
      exact (refusedOrDenoted_staged_iff hfield hpush).trans (denotes_int_iff h hpos hwidth n)
  | pgn p =>
      have hp : (p.toUInt64.toInt64).toInt = p.toNat := by
        rw [toInt_toInt64, if_pos]
        · rfl
        · have := p.toNat_lt
          show 2 * p.toNat < 2 ^ 64
          omega
      rw [Quantity.value, valueToRaw_pgn b.db hbl] at hpush
      have hdenotes := denotes_int_iff h hpos hwidth p.toUInt64.toInt64
      have hlow := @lowest_bounds f k bl.toNat hpos hwidth
      rw [hp, and_iff_right (by omega)] at hdenotes
      exact (refusedOrDenoted_staged_iff hfield hpush).trans hdenotes
  | number q =>
      rw [Quantity.value, valueToRaw_number b.db hbl hfloat, scaledToRaw_eq h] at hpush
      by_cases hzero : res = 0
      · -- a division by zero is no number, and refused
        rw [if_pos hzero] at hpush
        exact iff_of_true (.inl ⟨_, hpush⟩) (.inl hzero)
      · rw [if_neg hzero] at hpush
        exact (refusedOrDenoted_staged_iff hfield hpush).trans
          (denotes_number_iff h hzero hpos hwidth q)

end Push

/-! ## A temperature of 400 degrees

It takes more than sixteen bits, and is read back as one below the absolute zero. -/

def temperaturePgn : PgnInfo Exact where
  pgn := 130312
  id := ⟨"temperature", Eq.refl true⟩
  description := "Temperature"
  packetType := .single
  fallback := none
  priority := none
  length := some 2
  fields := [temperatureField]
  repeatingFieldSet1 := .none
  repeatingFieldSet2 := .none
  idIsPinned := false

def temperatureBuilder : PgnBuilder Exact :=
  .forPgn ⟨.metric, [temperaturePgn], [], [], [], [], by simp [temperaturePgn]⟩ temperaturePgn

theorem temperatureField_rated : temperatureField.Rated .number (1 / 100) (-27315 / 100) :=
  ⟨rfl, rfl, nofun, nofun⟩

theorem refusedOrDenoted_iff_temperature :
    RefusedOrDenoted temperatureBuilder 1 ⟨"temperature", Eq.refl true⟩ temperatureField .number 16
        (.number 20) ↔
      (Quantity.number 20).Fits temperatureField .number 16 (1 / 100) (-27315 / 100) :=
  refusedOrDenoted_iff _ (by decide) rfl rfl rfl (by decide) (by decide) temperatureField_rated _

theorem not_refusedOrDenoted :
    ¬RefusedOrDenoted temperatureBuilder 1 ⟨"temperature", Eq.refl true⟩ temperatureField .number 16
      (.number 400) := by
  have hpush := @push_scalar temperatureBuilder 1 temperatureField .number ⟨"temperature", Eq.refl true⟩
    (by decide) rfl rfl (Quantity.number 400).value
  rw [Quantity.value, @valueToRaw_number Exact _ _ temperatureField 16 rfl (by decide),
    scaledToRaw_eq temperatureField_rated, if_neg (by norm_num)] at hpush
  rw [refusedOrDenoted_staged_iff rfl hpush, denotes_number_iff temperatureField_rated
    (by norm_num) (by decide) (by decide), Quantity.Fits]
  have hhigh : temperatureField.highest .number (UInt32.toNat 16) = 65535 := by decide
  have hoffset : (temperatureField.offset.getD 0).toInt = 0 := rfl
  rw [hhigh, hoffset]
  rintro (hzero | ⟨-, hbelow | ⟨hbound, -⟩⟩)
  · norm_num at hzero
  · norm_num at hbelow
  · norm_num at hbound

end Canboat
