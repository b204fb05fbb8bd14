import Canboat.Format.Ebl
import Canboat.Format.Instant
import Canboat.Io.Convert

/-!
# Whole frames of a gateway

A frame as a record of an EBL capture, and as a message that is sent. Its length is one byte in
both, as is the length of the message around it.
-/

namespace Canboat

open Ngt1

def N2K_MSG_SEND : UInt8 := 0x94

namespace Ebl

/-- The instant of a record; a frame without one, and one before 1970, is at the epoch. -/
def unixMs (f : RawFrame) : ℕ := ((f.timestamp.bind fun ts => toUnixMs ts.toList).getD 0).toNat

def filetime (unixMs : ℕ) : UInt64 :=
  UInt64.ofNat (min ((unixMs + FILETIME_TO_UNIX_MS.toNat) * 10000) 18446744073709551615)

/-- The payload of a received message, as `toRawFrame` takes it apart. -/
def receivedPayload (f : RawFrame) : List UInt8 :=
  f.prio :: LittleEndian.encode 3 f.pgn.toNat ++ [f.dst, f.src] ++ LittleEndian.encode 4 0 ++
    UInt8.ofNat f.data.length :: f.data

def encodeFrame (f : RawFrame) (out : List UInt8) : List UInt8 :=
  encodeMessage N2K_MSG_RECEIVED (receivedPayload f) (encodeHeader (filetime (unixMs f)) out)

end Ebl

namespace Ngt1

def encodeN2kSendPayload (f : RawFrame) : List UInt8 :=
  f.prio :: LittleEndian.encode 3 f.pgn.toNat ++ f.dst :: UInt8.ofNat f.data.length :: f.data

/-- None where the assertion on the length of the payload fails. -/
def encodeN2kSendFrame (f : RawFrame) : Option (List UInt8) :=
  encodeNgtMessage N2K_MSG_SEND (encodeN2kSendPayload f) []

end Ngt1

/-! ## The instant fits -/

/-- Every character is a byte at least. -/
theorem length_le_utf8Bytes (s : List Char) : s.length ≤ (utf8Bytes s).length := by
  induction s with
  | nil => simp
  | cons c s ih =>
      have hpos := c.utf8Size_pos
      rw [utf8Bytes] at ih ⊢
      rw [List.flatMap_cons, List.length_append, List.length_cons, String.length_utf8EncodeChar]
      omega

theorem numberBetween_lt {b : List UInt8} {i j : ℕ} {v : ℤ} (h : numberBetween b i j = some v) :
    v < 10 ^ (j - i) := by
  rw [numberBetween, Option.bind_eq_some_iff] at h
  obtain ⟨s, hs, hv⟩ := h
  have hlength : s.length ≤ j - i := by
    rw [fromUtf8] at hs
    split_ifs at hs with hbytes
    obtain rfl := Option.some.inj hs
    calc (fromUtf8Lossy ((b.take j).drop i)).length
        ≤ (utf8Bytes (fromUtf8Lossy ((b.take j).drop i))).length := length_le_utf8Bytes _
      _ = ((b.take j).drop i).length := congrArg List.length hbytes
      _ ≤ j - i := by
        rw [List.length_drop, List.length_take]
        exact Nat.sub_le_sub_right (Nat.min_le_left _ _) i
  have hvalue : ∀ {t : List Char}, (∀ c ∈ t, c.isDigit = true) → t.length ≤ s.length →
      (digitsValue t : ℤ) < 10 ^ (j - i) := by
    intro t ht hle
    exact_mod_cast (digitsValue_lt ht).trans_le
      (Nat.pow_le_pow_right (by decide) (hle.trans hlength))
  obtain ⟨t, rfl, -, ht, rfl⟩ | ⟨t, rfl, -, ht, rfl⟩ | ⟨-, hs, rfl⟩ := ascii_of_parseI64Int hv
  · have hpos : (0 : ℤ) < 10 ^ (j - i) := by positivity
    omega
  · exact hvalue ht (by simp)
  · exact hvalue hs le_rfl

theorem daysSinceEpoch_le {y m d n : ℤ} (hy : y < 10000) (h : daysSinceEpoch y m d = some n) :
    n ≤ 3000000 := by
  by_cases hin : ¬(1 ≤ m ∧ m ≤ 12) ∨ ¬(1 ≤ d ∧ d ≤ 31)
  · rw [daysSinceEpoch, if_pos hin] at h
    cases h
  rw [daysSinceEpoch, if_neg hin] at h
  obtain rfl := Option.some.inj h
  obtain ⟨hmonth, hday⟩ : (1 ≤ m ∧ m ≤ 12) ∧ 1 ≤ d ∧ d ≤ 31 := by tauto
  obtain ⟨year, hyear, hle⟩ : ∃ year, (if m ≤ 2 then y - 1 else y) = year ∧ year ≤ 9999 :=
    ⟨_, rfl, by split_ifs <;> omega⟩
  obtain ⟨month, hmp, hpos, hlast⟩ :
      ∃ month, (if m > 2 then m - 3 else m + 9) = month ∧ 0 ≤ month ∧ month ≤ 11 :=
    ⟨_, rfl, by split_ifs <;> omega, by split_ifs <;> omega⟩
  obtain ⟨hera, hyoe, hlt⟩ := eraYears year
  rw [hyear, hmp, hera, Int.tdiv_eq_ediv_of_nonneg (show 0 ≤ 153 * month + 2 by omega),
    Int.tdiv_eq_ediv_of_nonneg hyoe, Int.tdiv_eq_ediv_of_nonneg hyoe]
  omega

/-- A year of four digits is far below what the ticks can hold. -/
theorem toUnixMs_lt {ts : List Char} {v : ℤ} (h : toUnixMs ts = some v) :
    v < 300000000000000 := by
  rw [toUnixMs] at h
  split_ifs at h with hlength hmarks
  · simp at h
  simp only [Option.bind_eq_bind, Option.bind_eq_some_iff] at h
  obtain ⟨y, hy, mo, -, d, -, hour, hhour, mi, hmi, s, hs, days, hdays, h⟩ := h
  obtain rfl := Option.some.inj h
  have hle := daysSinceEpoch_le (numberBetween_lt hy) hdays
  have hfraction : fractionRead (utf8Bytes ts) < 1000 := by
    rw [fractionRead]
    split_ifs
    · rcases hnumber : numberBetween (utf8Bytes ts) 20 23 with - | v
      · decide
      · exact numberBetween_lt hnumber
    · decide
  have hh := numberBetween_lt hhour
  have hm := numberBetween_lt hmi
  have hsec := numberBetween_lt hs
  norm_num at hh hm hsec
  omega

namespace Ebl

theorem unixMs_lt (f : RawFrame) : unixMs f < 300000000000000 := by
  rw [unixMs]
  rcases hms : f.timestamp.bind fun ts => toUnixMs ts.toList with - | v
  · decide
  · obtain ⟨ts, -, hts⟩ := Option.bind_eq_some_iff.mp hms
    have hlt := toUnixMs_lt hts
    simp only [Option.getD_some]
    omega

theorem filetime_div {n : ℕ} (h : n < 300000000000000) :
    FILETIME_TO_UNIX_MS ≤ filetime n / 10000 ∧
      (filetime n / 10000 - FILETIME_TO_UNIX_MS).toNat = n := by
  have hepoch : FILETIME_TO_UNIX_MS.toNat = 11644473600000 := by decide
  have hticks : (filetime n).toNat = (n + FILETIME_TO_UNIX_MS.toNat) * 10000 := by
    rw [filetime, Nat.min_eq_left (by omega), UInt64.toNat_ofNat_of_lt']
    rw [hepoch, UInt64.size]
    omega
  have hms : (filetime n / 10000).toNat = n + FILETIME_TO_UNIX_MS.toNat := by
    rw [UInt64.toNat_div, hticks]
    exact Nat.mul_div_cancel _ (by decide)
  have hle : FILETIME_TO_UNIX_MS ≤ filetime n / 10000 := by
    rw [UInt64.le_iff_toNat_le, hms]
    exact Nat.le_add_left _ _
  refine ⟨hle, ?_⟩
  rw [UInt64.toNat_sub_of_le _ _ hle, hms, Nat.add_sub_cancel]

theorem length_receivedPayload (f : RawFrame) :
    (receivedPayload f).length = 11 + f.data.length := by
  simp [receivedPayload]
  omega

/-- The data comes back whole where its length is a byte. -/
theorem toRawFrame_receivedPayload {f : RawFrame} (hpgn : f.pgn < 0x1000000)
    (hlen : f.data.length ≤ 255) :
    (NgtMessage.mk N2K_MSG_RECEIVED (receivedPayload f)).toRawFrame =
      some { f with timestamp := some "0" } := by
  have hbyte : (UInt8.ofNat f.data.length).toNat = f.data.length :=
    UInt8.toNat_ofNat_of_lt (Nat.lt_succ_of_le hlen)
  have hdecode : UInt32.ofNat (LittleEndian.decode (LittleEndian.encode 3 f.pgn.toNat)) = f.pgn := by
    rw [LittleEndian.decode_encode_of_lt (UInt32.lt_iff_toNat_lt.mp hpgn), UInt32.ofNat_toNat]
  have hdlen : (receivedPayload f).getD 10 0 = UInt8.ofNat f.data.length := rfl
  rw [NgtMessage.toRawFrame, if_neg (not_not.mpr rfl), if_neg (by simp [length_receivedPayload])]
  dsimp only
  rw [hdlen, hbyte, length_receivedPayload, if_neg (lt_irrefl _)]
  congr 1
  rw [← length_receivedPayload, List.take_length]
  obtain ⟨ts, prio, pgn, src, dst, data⟩ := f
  rw [RawFrame.mk.injEq]
  refine ⟨?_, rfl, hdecode, rfl, rfl, rfl⟩
  change some (LittleEndian.decode (LittleEndian.encode 4 0)).repr = some "0"
  decide

/-- The payload fits the byte that counts it up to 244 bytes of data. -/
theorem pushBytes_encodeFrame {f : RawFrame} (hlen : f.data.length ≤ 244) :
    (Ngt1Decoder.withEbl.pushBytes (encodeFrame f [])).2 =
      [.header (.timestamp (filetime (unixMs f) / 10000 - FILETIME_TO_UNIX_MS)),
        .message ⟨N2K_MSG_RECEIVED, receivedPayload f⟩] := by
  have hfit : (receivedPayload f).length ≤ 255 := by
    rw [length_receivedPayload]
    omega
  exact congrArg Prod.snd (pushBytes_encodeRecord
    (r := ⟨filetime (unixMs f), ⟨N2K_MSG_RECEIVED, receivedPayload f⟩⟩)
    (Or.inl rfl : (Ngt1Decoder.withEbl.pushBytes []).1.AtFrameStart)
    (filetime_div (unixMs_lt f)).1 hfit)

end Ebl

namespace Ngt1

theorem length_encodeN2kSendPayload (f : RawFrame) :
    (encodeN2kSendPayload f).length = 6 + f.data.length := by
  simp [encodeN2kSendPayload]
  omega

theorem encodeN2kSendFrame_of_le {f : RawFrame} (hlen : f.data.length ≤ 249) :
    ∃ wire, encodeN2kSendFrame f = some wire ∧
      (Ngt1Decoder.new.pushBytes wire).2 = [.message ⟨N2K_MSG_SEND, encodeN2kSendPayload f⟩] := by
  have hfit : (encodeN2kSendPayload f).length ≤ 255 := by
    rw [length_encodeN2kSendPayload]
    omega
  obtain ⟨wire, hwire, hevents⟩ := pushBytes_encodeNgtMessage
    (m := ⟨N2K_MSG_SEND, encodeN2kSendPayload f⟩)
    (Or.inl rfl : (Ngt1Decoder.new.pushBytes []).1.AtFrameStart) hfit
  exact ⟨wire, hwire, by rw [hevents]; rfl⟩

theorem encodeN2kSendFrame_of_lt {f : RawFrame} (hlen : 249 < f.data.length) :
    encodeN2kSendFrame f = none := by
  rw [encodeN2kSendFrame, encodeNgtMessage, length_encodeN2kSendPayload, if_neg (by omega)]

end Ngt1

open Ebl

/-- A captured frame comes back behind its instant; a sent one carries its data behind their
length, and is refused where the message would be over 255 bytes. -/
theorem frame_round_trip (f : RawFrame) :
    (f.pgn < 0x1000000 → f.data.length ≤ 244 → ∃ ms m,
      (Ngt1Decoder.withEbl.pushBytes (encodeFrame f [])).2 =
        [.header (.timestamp ms), .message m] ∧
      (ms.toNat : ℤ) = max 0 ((f.timestamp.bind fun ts => toUnixMs ts.toList).getD 0) ∧
      m.toRawFrame = some { f with timestamp := some "0" }) ∧
    (f.data.length ≤ 249 → ∃ wire m, encodeN2kSendFrame f = some wire ∧
      (Ngt1Decoder.new.pushBytes wire).2 = [.message m] ∧ m.command = N2K_MSG_SEND ∧
      m.payload.take 5 = f.prio :: LittleEndian.encode 3 f.pgn.toNat ++ [f.dst] ∧
      (m.payload.getD 5 0).toNat = f.data.length ∧ m.payload.drop 6 = f.data) ∧
    (249 < f.data.length → encodeN2kSendFrame f = none) := by
  refine ⟨?_, ?_, encodeN2kSendFrame_of_lt⟩
  · intro hpgn hlen
    refine ⟨_, _, pushBytes_encodeFrame hlen, ?_,
      toRawFrame_receivedPayload hpgn (hlen.trans (by decide))⟩
    rw [(filetime_div (unixMs_lt f)).2, unixMs, Int.toNat_eq_max, max_comm]
  · intro hlen
    obtain ⟨wire, hwire, hevents⟩ := encodeN2kSendFrame_of_le hlen
    have hbyte : (UInt8.ofNat f.data.length).toNat = f.data.length :=
      UInt8.toNat_ofNat_of_lt (hlen.trans_lt (by decide))
    exact ⟨wire, _, hwire, hevents, rfl, rfl, hbyte, rfl⟩

/-- More data than a message holds. -/
def overlong : RawFrame := ⟨none, 3, 127251, 1, 255, List.replicate 250 0⟩

theorem length_overlong : overlong.data.length = 250 := List.length_replicate

/-- A frame of escapes and no time, in both forms. -/
theorem frame_round_trip_escapes :
    (∃ ms m, (Ngt1Decoder.withEbl.pushBytes (encodeFrame
        ⟨none, 3, 127251, 0x1b, 0x10, [0x10, 0x1b, 0x10]⟩ [])).2 =
        [.header (.timestamp ms), .message m] ∧ (ms.toNat : ℤ) = 0 ∧
      m.toRawFrame = some ⟨some "0", 3, 127251, 0x1b, 0x10, [0x10, 0x1b, 0x10]⟩) ∧
    (∃ wire, encodeN2kSendFrame ⟨none, 3, 127251, 0x1b, 0x10, [0x10, 0x1b, 0x10]⟩ = some wire) ∧
    encodeN2kSendFrame overlong = none := by
  have h := frame_round_trip ⟨none, 3, 127251, 0x1b, 0x10, [0x10, 0x1b, 0x10]⟩
  obtain ⟨wire, -, hwire, -⟩ := h.2.1 (by decide)
  exact ⟨h.1 (by decide) (by decide), ⟨wire, hwire⟩,
    (frame_round_trip overlong).2.2 (by rw [length_overlong]; decide)⟩

/-- Data for more than one message are refused, and an instant before 1970 is lost. -/
theorem frame_not_round_trip :
    (¬∀ f : RawFrame, f.prio < 8 → f.pgn < 0x40000 → f.data.length ≤ 1785 →
      ∃ wire, encodeN2kSendFrame f = some wire) ∧
    ¬∀ f : RawFrame, f.prio < 8 → f.pgn < 0x40000 → f.data.length ≤ 1785 → ∃ ms m,
      (Ngt1Decoder.withEbl.pushBytes (encodeFrame f [])).2 =
        [.header (.timestamp ms), .message m] ∧
      (ms.toNat : ℤ) = (f.timestamp.bind fun ts => toUnixMs ts.toList).getD 0 := by
  constructor
  · intro h
    obtain ⟨wire, hwire⟩ := h overlong (by decide) (by decide) (by rw [length_overlong]; decide)
    rw [encodeN2kSendFrame_of_lt (by rw [length_overlong]; decide)] at hwire
    cases hwire
  · intro h
    obtain ⟨ms, m, -, hms⟩ := h ⟨some "1969-12-31-23:59:59", 3, 127251, 1, 255, []⟩ (by decide)
      (by decide) (by decide)
    have hbefore : toUnixMs "1969-12-31-23:59:59".toList = some (-1000) := by decide
    rw [Option.bind_some, hbefore] at hms
    have hpos := Int.natCast_nonneg ms.toNat
    rw [hms] at hpos
    exact absurd hpos (by decide)

end Canboat
