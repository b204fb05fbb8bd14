import Canboat.Format.Common
import Canboat.Format.Plain
import Canboat.Format.Timestamp

/-!
# Lines of other gateways

Actisense N2K ASCII, YDWG-02, iKonvert, Airmar, Chetco and Garmin CSV, with the slices and the
arithmetic that could fault.
-/

namespace Canboat

open Checked

/-! ## The date of a day number -/

def i64Min : ℤ := -9223372036854775808

def i64Max : ℤ := 9223372036854775807

def i32Max : ℤ := 2147483647

/-- `days_to_ymd` in `i64` and `i32`. -/
def checkedDaysToYmd (days : ℤ) : Except Fault (ℤ × ℕ × ℕ) := do
  let z ← checkedInt i64Min i64Max (days + 719468)
  let era := z / 146097
  let start ← checkedInt i64Min i64Max (era * 146097)
  let doe ← checkedInt i64Min i64Max (z - start)
  let yoe := (doe - doe / 1460 + doe / 36524 - doe / 146096) / 365
  let year ← checkedInt i64Min i64Max (yoe + era * 400)
  -- `as i32`
  let y := year.bmod 4294967296
  let doy := doe - (365 * yoe + yoe / 4 - yoe / 100)
  let mp := (5 * doy + 2) / 153
  let d := doy - (153 * mp + 2) / 5 + 1
  let m := if mp < 10 then mp + 3 else mp - 9
  let y ← if m ≤ 2 then checkedInt (-i32Max - 1) i32Max (y + 1) else pure y
  pure (y, m.toNat, d.toNat)

/-- A year in four places, the sign among them. -/
def paddedYear (y : ℤ) : List Char :=
  if y < 0 then '-' :: (padded 3 y.natAbs).toList else (padded 4 y.natAbs).toList

/-- `YYYY-MM-DDTHH:MM:SS,mmm` of milliseconds since 1970. -/
def formatUnixMs (ms : ℕ) : Except Fault (List Char) := do
  let secs := ms / 1000
  let tod := secs % 86400
  let (y, mo, d) ← checkedDaysToYmd (secs / 86400 : ℕ)
  pure (paddedYear y ++ ("-" ++ padded 2 mo ++ "-" ++ padded 2 d ++ "T" ++ padded 2 (tod / 3600) ++
    ":" ++ padded 2 (tod / 60 % 60) ++ ":" ++ padded 2 (tod % 60) ++ "," ++
    padded 3 (ms % 1000)).toList)

/-! ## Hexadecimal payloads -/

/-- The bytes of pairs of digits, up to a limit. -/
def hexBytes (limit : ℕ) (text : List Char) : Checked ParseError (List UInt8) :=
  if byteLen text % 2 ≠ 0 then
    throw (.badHexByte (byteLen text / 2) [text.getLast?.getD ' '] none)
  else
    ((pairs (utf8Bytes text)).take limit).foldlM (fun data chunk => do
      let s ← orError (fromUtf8 chunk) (.badHexByte data.length (fromUtf8Lossy chunk) none)
      let b ← orError (parseHex 255 s) (.badHexByte data.length s none)
      pure (data ++ [UInt8.ofNat b])) []

namespace ActisenseAscii

/-- `HHMMSS` by its byte positions. -/
def timeParts (time : List Char) : Except Fault (List Char × List Char × List Char) := do
  let h ← sliceText time 0 2
  let m ← sliceText time 2 4
  let s ← sliceText time 4 6
  pure (h, m, s)

/-- `HHMMSS[.mmm]` as `HH:MM:SS,mmm`. -/
def formatActisenseTimestamp (rest : List Char) : Checked ParseError (List Char) := do
  let bad : ParseError := .badInteger "timestamp" rest none
  let (time, frac) := (splitOnce '.' rest).getD (rest, ['0', '0', '0'])
  if byteLen time < 6 then throw bad
  else do
    let (h, m, s) ← check (timeParts time)
    let _ ← orError (parseU32 h) bad
    let _ ← orError (parseU32 m) bad
    let _ ← orError (parseU32 s) bad
    let ms ← orError (parseU32 frac) bad
    pure (h ++ ':' :: m ++ ':' :: s ++ ',' :: (padded 3 (ms.toNat % 1000)).toList)

/-- The payload with the bytes of one more token. -/
def appendToken (data : List UInt8) (t : List Char) : Checked ParseError (List UInt8) :=
  if byteLen t % 2 ≠ 0 then throw (.badHexByte data.length t none)
  else
    (pairs (utf8Bytes t)).foldlM (fun data pair => do
      let s ← orError (fromUtf8 pair) (.badHexByte data.length t none)
      let b ← orError (parseHex 255 s) (.badHexByte data.length s none)
      pure (data ++ [UInt8.ofNat b])) data

def parseLine (line : List Char) : Checked ParseError RawFrame := do
  let line := trimNewlines line
  if line = [] then throw .empty
  else do
    let toks := splitWhitespace line
    let tsTok ← orError toks[0]? .missingTimestamp
    if tsTok.head? ≠ some 'A' ∨ byteLen tsTok < 7 then throw (.badInteger "timestamp" tsTok none)
    else do
      let rest ← check (sliceText tsTok 1 (byteLen tsTok))
      let timestamp ← formatActisenseTimestamp rest
      let sdpTok ← orError toks[1]? (.badHeader 3 1)
      let sdp ← orError (parseHex 4294967295 sdpTok) (.badInteger "sdp" sdpTok none)
      let sdp := UInt32.ofNat sdp
      let pgnTok ← orError toks[2]? (.badHeader 3 2)
      let pgn ← orError (parseHex 4294967295 pgnTok) (.badInteger "pgn" pgnTok none)
      let data ← (toks.drop 3).foldlM appendToken []
      pure { timestamp := some (String.ofList timestamp), prio := (sdp &&& 0xf).toUInt8,
             pgn := UInt32.ofNat pgn, src := ((sdp >>> 12) &&& 0xff).toUInt8,
             dst := ((sdp >>> 4) &&& 0xff).toUInt8, data }

end ActisenseAscii

namespace Ydwg02

/-- The date of the host's clock, in seconds since 1970 if it can be read, with the time. -/
def synthIsoTimestamp (clock : Option UInt64) (time : List Char) : Except Fault (List Char) := do
  let secs := (clock.map (·.toInt64.toInt)).getD 0
  let (y, m, d) ← checkedDaysToYmd (secs / 86400)
  pure (paddedYear y ++ ("-" ++ padded 2 m ++ "-" ++ padded 2 d ++ "T").toList ++ time)

def parseLine (clock : Option UInt64) (line : List Char) : Checked ParseError RawFrame := do
  let line := trimNewlines line
  if line = [] then throw .empty
  else do
    let toks := splitWhitespace line
    let timeTok ← orError toks[0]? .missingTimestamp
    let timestamp ← check (synthIsoTimestamp clock timeTok)
    let _ ← orError toks[1]? (.badHeader 3 1)
    let canidTok ← orError toks[2]? (.badHeader 3 2)
    let canid ← orError (parseHex 4294967295 canidTok) (.badInteger "canid" canidTok none)
    let (prio, pgn, src, dst) := iso11783Decompose (UInt32.ofNat canid)
    let data ← (toks.drop 3).foldlM (fun data t => do
      let b ← orError (parseHex 255 t) (.badHexByte data.length t none)
      pure (data ++ [UInt8.ofNat b])) []
    pure { timestamp := some (String.ofList timestamp), prio, pgn, src, dst, data }

end Ydwg02

namespace Ikonvert

inductive IkonvertLine
  | frame (f : RawFrame)
  | control (s : List Char)
  | other

/-- Its six bits, and whether it is padding. -/
def b64Value (b : UInt8) : Option (UInt32 × Bool) :=
  if 0x41 ≤ b ∧ b ≤ 0x5a then some ((b - 0x41).toUInt32, false)
  else if 0x61 ≤ b ∧ b ≤ 0x7a then some ((b - 0x61 + 26).toUInt32, false)
  else if 0x30 ≤ b ∧ b ≤ 0x39 then some ((b - 0x30 + 52).toUInt32, false)
  else if b = 0x2b then some (62, false)
  else if b = 0x2f then some (63, false)
  else if b = 0x3d then some (0, true)
  else none

/-- Three bytes for each group of four, and how often padding stood in them. -/
def decodeGroups : List UInt8 → Option (List UInt8 × ℕ)
  | a :: b :: c :: d :: bytes => do
      let (a, padA) ← b64Value a
      let (b, padB) ← b64Value b
      let (c, padC) ← b64Value c
      let (d, padD) ← b64Value d
      let combined := (a <<< 18) ||| (b <<< 12) ||| (c <<< 6) ||| d
      let (out, pad) ← decodeGroups bytes
      pure (((combined >>> 16) &&& 0xff).toUInt8 :: ((combined >>> 8) &&& 0xff).toUInt8 ::
        (combined &&& 0xff).toUInt8 :: out,
        padA.toNat + padB.toNat + padC.toNat + padD.toNat + pad)
  | _ => some ([], 0)

def b64Decode (s : List Char) : Except Fault (Option (List UInt8)) :=
  let s := trim s
  if s = [] then .ok (some [])
  else if (utf8Bytes s).length % 4 ≠ 0 then .ok none
  else
    match decodeGroups (utf8Bytes s) with
    | none => .ok none
    | some (out, pad) =>
        if 0 < pad then do
          let n ← checkedSub out.length pad
          .ok (some (out.take n))
        else .ok (some out)

def parseInt (max : ℕ) (raw : Option (List Char)) (field : String) : Checked ParseError ℕ := do
  let s ← orError raw (.badHeader 6 0)
  orError (parseUnsigned max (trim s)) (.badInteger field s none)

def parseN2kLine (rest : List Char) : Checked ParseError RawFrame := do
  let it := splitN ',' 6 rest
  let pgn ← parseInt 4294967295 it[0]? "pgn"
  let prio ← parseInt 255 it[1]? "prio"
  let src ← parseInt 255 it[2]? "src"
  let dst ← parseInt 255 it[3]? "dst"
  let ts ← orError it[4]? (.badHeader 6 4)
  let b64 ← orError it[5]? (.badHeader 6 5)
  let decoded ← check (b64Decode b64)
  let data ← orError decoded (.badHexByte 0 b64 none)
  pure { timestamp := some (String.ofList ts), prio := UInt8.ofNat prio, pgn := UInt32.ofNat pgn,
         src := UInt8.ofNat src, dst := UInt8.ofNat dst, data }

def parseLine (line : List Char) : Checked ParseError IkonvertLine :=
  let line := trimNewlines line
  if line = [] then throw .empty
  else
    match stripPrefix "!PDGY,".toList line with
    | some rest => do pure (.frame (← parseN2kLine rest))
    | none =>
        match stripPrefix "$PDGY,".toList line with
        | some rest => pure (.control rest)
        | none => pure .other

end Ikonvert

namespace Airmar

/-- The payload with the bytes of a token, parted by commas, up to the largest. -/
def appendToken (data : List UInt8) (raw : List Char) : Checked ParseError (List UInt8) :=
  ((raw.splitOn ',').filter (· ≠ [])).foldlM (fun data tok =>
    if FASTPACKET_MAX_SIZE ≤ data.length then pure data
    else do
      let b ← orError (parseHex 255 tok) (.badHexByte data.length tok none)
      pure (data ++ [UInt8.ofNat b])) data

def parseLine (line : List Char) : Checked ParseError RawFrame := do
  let line := trimNewlines line
  if line = [] then throw .empty
  else do
    let (timestamp, rest) ← orError (splitOnceText " - ".toList line) (.badHeader 3 1)
    let toks := splitWhitespace rest
    let _ ← orError toks[0]? (.badHeader 3 2)
    let canidTok ← orError toks[1]? (.badHeader 3 3)
    let canid ← orError (parseHex 4294967295 canidTok) (.badInteger "canid" canidTok none)
    let (prio, pgn, src, dst) := iso11783Decompose (UInt32.ofNat canid)
    let data ← (toks.drop 2).foldlM appendToken []
    pure { timestamp := some (String.ofList timestamp), prio, pgn, src, dst, data }

end Airmar

namespace Chetco

def formatChetcoTimestamp (ms : ℕ) : Except Fault (List Char) := formatUnixMs ms

def parseLine (line : List Char) : Checked ParseError RawFrame := do
  let line := trimNewlines line
  if line = [] then throw .empty
  else do
    let rest ← orError (stripPrefix "$PCDIN,".toList line) .missingTimestamp
    let it := splitN ',' 4 rest
    let pgnTok ← orError it[0]? (.badHeader 4 1)
    let tstampTok ← orError it[1]? (.badHeader 4 2)
    let srcTok ← orError it[2]? (.badHeader 4 3)
    let dataTok ← orError it[3]? (.badHeader 4 4)
    let pgn ← orError (parseHex 4294967295 pgnTok) (.badInteger "pgn" pgnTok none)
    let tstampMs ← orError (parseHex u64Max (tstampTok.takeWhile fun c => (hexValue c).isSome))
      (.badInteger "tstamp" tstampTok none)
    let src ← orError (parseHex 255 srcTok) (.badInteger "src" srcTok none)
    let data ← hexBytes FASTPACKET_MAX_SIZE (dataTok.takeWhile (· ≠ '*'))
    let timestamp ← check (formatChetcoTimestamp tstampMs)
    pure { timestamp := some (String.ofList timestamp), prio := 0, pgn := UInt32.ofNat pgn,
           src := UInt8.ofNat src, dst := 0xff, data }

end Chetco

namespace GarminCsv

inductive GarminCsvLine
  | frame (f : RawFrame)
  | header

inductive Variant
  | relative
  | absolute
deriving DecidableEq, Repr

def CSV1_HEADER : List Char :=
  "Sequence #,Timestamp,PGN,Name,Manufacturer,Remote Address,Local Address,Priority,Single Frame,Size,Packet".toList

def CSV2_HEADER : List Char :=
  "Sequence #,Month_Day_Year_Hours_Minutes_Seconds_msTicks,PGN,Processed PGN,Name,Manufacturer,Remote Address,Local Address,Priority,Single Frame,Size,Packet".toList

def formatRelativeTimestamp (msStr : List Char) : Checked ParseError (List Char) := do
  let ms ← orError (parseUnsigned u64Max msStr) (.badInteger "tstamp" msStr none)
  check (formatUnixMs ms)

/-- `Month_Day_Year_Hours_Minutes_Seconds_msTicks`. -/
def formatAbsoluteTimestamp (tok : List Char) : Checked ParseError (List Char) := do
  let p := tok.splitOn '_'
  let bad : ParseError := .badInteger "tstamp" tok none
  let u32 (i : ℕ) : Checked ParseError ℕ := do
    let s ← orError p[i]? bad
    orError (parseUnsigned 4294967295 s) bad
  let mo ← u32 0
  let d ← u32 1
  let y ← u32 2
  let h ← u32 3
  let mn ← u32 4
  let s ← u32 5
  let ticks ← orError p[6]? bad
  let ms ← orError (parseUnsigned u64Max ticks) bad
  pure (padded 4 y ++ "-" ++ padded 2 mo ++ "-" ++ padded 2 d ++ "T" ++ padded 2 h ++ ":" ++
    padded 2 mn ++ ":" ++ padded 2 s ++ "," ++ padded 3 (ms % 1000)).toList

def parseLine (line : List Char) (variant : Variant) : Checked ParseError GarminCsvLine := do
  let line := trimNewlines line
  if line = [] then throw .empty
  else if line = CSV1_HEADER ∨ line = CSV2_HEADER then pure .header
  else do
    let parts := line.splitOn ','
    let seqTok ← orError parts[0]? (.badHeader 11 0)
    let _ ← orError (parseUnsigned 4294967295 seqTok) (.badInteger "seq" seqTok none)
    let tstampTok ← orError parts[1]? (.badHeader 11 1)
    let pgnTok ← orError parts[2]? (.badHeader 11 2)
    let pgn ← orError (parseUnsigned 4294967295 pgnTok) (.badInteger "pgn" pgnTok none)
    let columnsBeforeBlock := if variant = .absolute then 3 else 2
    (List.range columnsBeforeBlock).forM fun skipped => do
      let _ ← orError parts[3 + skipped]? (.badHeader 11 (3 + skipped))
      pure ()
    let block := 3 + columnsBeforeBlock
    let srcTok ← orError parts[block]? (.badHeader 11 5)
    let dstTok ← orError parts[block + 1]? (.badHeader 11 6)
    let prioTok ← orError parts[block + 2]? (.badHeader 11 7)
    let _ ← orError parts[block + 3]? (.badHeader 11 8)
    let sizeTok ← orError parts[block + 4]? (.badHeader 11 9)
    let packetTok ← orError parts[block + 5]? (.badHeader 11 10)
    let src ← orError (parseUnsigned 255 srcTok) (.badInteger "src" srcTok none)
    let dst ← orError (parseUnsigned 255 dstTok) (.badInteger "dst" dstTok none)
    let prio ← orError (parseUnsigned 255 prioTok) (.badInteger "prio" prioTok none)
    let size ← orError (parseUnsigned u64Max sizeTok) (.badInteger "size" sizeTok none)
    let hexStr := ((stripPrefix "0x".toList packetTok).or (stripPrefix "0X".toList packetTok)).getD
      packetTok
    let data ← hexBytes (min size FASTPACKET_MAX_SIZE) hexStr
    let timestamp ← match variant with
      | .relative => formatRelativeTimestamp tstampTok
      | .absolute => formatAbsoluteTimestamp tstampTok
    pure (.frame { timestamp := some (String.ofList timestamp), prio := UInt8.ofNat prio,
                   pgn := UInt32.ofNat pgn, src := UInt8.ofNat src, dst := UInt8.ofNat dst, data })

end GarminCsv

/-! ## When a line can be read -/

/-- In sixty-four bits only the step to the year after can be too much. -/
theorem checkedDaysToYmd_eq {days : ℤ} (hlo : -1000000000000000 ≤ days)
    (hhi : days ≤ 1000000000000000) :
    checkedDaysToYmd days =
      if (daysToYmd days).1 ≤ i32Max then .ok (daysToYmd days) else .error .overflow := by
  have hz : checkedInt i64Min i64Max (days + 719468) = .ok (days + 719468) :=
    checkedInt_ok (by rw [i64Min]; omega) (by rw [i64Max]; omega)
  have hstart : checkedInt i64Min i64Max ((days + 719468) / 146097 * 146097) =
      .ok ((days + 719468) / 146097 * 146097) :=
    checkedInt_ok (by rw [i64Min]; omega) (by rw [i64Max]; omega)
  have hdoe : checkedInt i64Min i64Max (days + 719468 - (days + 719468) / 146097 * 146097) =
      .ok (days + 719468 - (days + 719468) / 146097 * 146097) :=
    checkedInt_ok (by rw [i64Min]; omega) (by rw [i64Max]; omega)
  rw [checkedDaysToYmd, daysToYmd]
  simp only [hz, hstart, hdoe, bind, Except.bind]
  have hdoe0 : 0 ≤ days + 719468 - (days + 719468) / 146097 * 146097 := by omega
  have hdoe1 : days + 719468 - (days + 719468) / 146097 * 146097 < 146097 := by omega
  have hera0 : -10000000000 ≤ (days + 719468) / 146097 := by omega
  have hera1 : (days + 719468) / 146097 ≤ 10000000000 := by omega
  generalize days + 719468 - (days + 719468) / 146097 * 146097 = doe at *
  generalize (days + 719468) / 146097 = era at *
  have hyoe0 : 0 ≤ (doe - doe / 1460 + doe / 36524 - doe / 146096) / 365 := by omega
  have hyoe1 : (doe - doe / 1460 + doe / 36524 - doe / 146096) / 365 ≤ 400 := by omega
  generalize (doe - doe / 1460 + doe / 36524 - doe / 146096) / 365 = yoe at *
  have hyear : checkedInt i64Min i64Max (yoe + era * 400) = .ok (yoe + era * 400) :=
    checkedInt_ok (by rw [i64Min]; omega) (by rw [i64Max]; omega)
  have hy0 : -2147483648 ≤ (yoe + era * 400).bmod 4294967296 := Int.le_bmod (by decide)
  have hy1 : (yoe + era * 400).bmod 4294967296 < 2147483648 := Int.bmod_lt (by decide)
  simp only [hyear]
  generalize (yoe + era * 400).bmod 4294967296 = y at *
  generalize doe - (365 * yoe + yoe / 4 - yoe / 100) = doy at *
  generalize (5 * doy + 2) / 153 = mp at *
  generalize (if mp < 10 then mp + 3 else mp - 9) = m at *
  by_cases hm : m ≤ 2
  · rw [if_pos hm, if_pos hm, checkedInt]
    have hlow : -i32Max - 1 ≤ y + 1 := by rw [i32Max]; omega
    by_cases hfits : y + 1 ≤ i32Max
    · rw [if_pos ⟨hlow, hfits⟩, if_pos hfits]
      rfl
    · rw [if_neg fun h => hfits h.2, if_neg hfits]
  · rw [if_neg hm, if_neg hm, if_pos (show y ≤ i32Max by rw [i32Max]; omega)]
    rfl

theorem year_le {days : ℤ} (hlo : 0 ≤ days) (hhi : days ≤ 300000000000) :
    (daysToYmd days).1 ≤ i32Max := by
  rw [daysToYmd]
  dsimp only
  have hera0 : 0 ≤ (days + 719468) / 146097 := by omega
  have hera1 : (days + 719468) / 146097 ≤ 3000000 := by omega
  have hdoe0 : 0 ≤ days + 719468 - (days + 719468) / 146097 * 146097 := by omega
  have hdoe1 : days + 719468 - (days + 719468) / 146097 * 146097 < 146097 := by omega
  generalize days + 719468 - (days + 719468) / 146097 * 146097 = doe at *
  generalize (days + 719468) / 146097 = era at *
  have hyoe0 : 0 ≤ (doe - doe / 1460 + doe / 36524 - doe / 146096) / 365 := by omega
  have hyoe1 : (doe - doe / 1460 + doe / 36524 - doe / 146096) / 365 ≤ 400 := by omega
  have hyear : ((doe - doe / 1460 + doe / 36524 - doe / 146096) / 365 + era * 400).bmod 4294967296 =
      (doe - doe / 1460 + doe / 36524 - doe / 146096) / 365 + era * 400 :=
    Int.bmod_eq_of_le (by omega) (by omega)
  rw [hyear, i32Max]
  split_ifs <;> omega

/-- The date of any number of milliseconds in 64 bits. -/
theorem formatUnixMs_ok {ms : ℕ} (hms : ms ≤ u64Max) : ∃ s, formatUnixMs ms = .ok s := by
  rw [u64Max] at hms
  have hdays : (0 : ℤ) ≤ (ms / 1000 / 86400 : ℕ) := Int.natCast_nonneg _
  have hbound : ((ms / 1000 / 86400 : ℕ) : ℤ) ≤ 300000000000 := by omega
  rw [formatUnixMs]
  dsimp only
  rw [checkedDaysToYmd_eq (by omega) (by omega), if_pos (year_le hdays hbound)]
  exact ⟨_, rfl⟩

theorem returns_hexBytes (limit : ℕ) (text : List Char) : Returns (hexBytes limit text) := by
  rw [hexBytes, returns_ite_throw]
  intro _
  apply returns_foldlM
  intro data chunk
  simp

namespace ActisenseAscii

/-- The digits of the time, before its fraction. -/
def timeOf (rest : List Char) : List Char := ((splitOnce '.' rest).getD (rest, ['0', '0', '0'])).1

/-- The first token, where it is long enough, is cut between characters. -/
def Fits (line : List Char) : Prop :=
  ∀ tok ∈ (splitWhitespace (trimNewlines line))[0]?, tok.head? = some 'A' → 7 ≤ byteLen tok →
    6 ≤ byteLen (timeOf tok.tail) → ∀ k ∈ [2, 4, 6], Boundary (timeOf tok.tail) k

theorem timeParts_ok_iff {time : List Char} :
    (∃ r, timeParts time = .ok r) ↔ ∀ k ∈ [2, 4, 6], Boundary time k := by
  have hstart : Boundary time 0 := ⟨[], time, rfl, rfl⟩
  have hh := sliceText_returns_iff (s := time) (show 0 ≤ 2 by decide)
  have hm := sliceText_returns_iff (s := time) (show 2 ≤ 4 by decide)
  have hs := sliceText_returns_iff (s := time) (show 4 ≤ 6 by decide)
  simp only [List.mem_cons, List.not_mem_nil, or_false, forall_eq_or_imp, forall_eq]
  rw [timeParts]
  constructor
  · intro h
    obtain ⟨h, hslice, hrest⟩ := Fault.ok_bind_iff.mp h
    obtain ⟨m, mslice, hrest⟩ := Fault.ok_bind_iff.mp hrest
    obtain ⟨s, sslice, -⟩ := Fault.ok_bind_iff.mp hrest
    exact ⟨(hh.mp ⟨h, hslice⟩).2, (hm.mp ⟨m, mslice⟩).2, (hs.mp ⟨s, sslice⟩).2⟩
  · rintro ⟨h2, h4, h6⟩
    obtain ⟨h, hh⟩ := hh.mpr ⟨hstart, h2⟩
    obtain ⟨m, hm⟩ := hm.mpr ⟨h2, h4⟩
    obtain ⟨s, hs⟩ := hs.mpr ⟨h4, h6⟩
    exact ⟨(h, m, s), by rw [hh, hm, hs]; rfl⟩

theorem returns_appendToken (data : List UInt8) (t : List Char) : Returns (appendToken data t) := by
  rw [appendToken, returns_ite_throw]
  intro _
  apply returns_foldlM
  intro data pair
  simp

theorem returns_formatActisenseTimestamp (rest : List Char) :
    Returns (formatActisenseTimestamp rest) ↔
      (6 ≤ byteLen (timeOf rest) → ∀ k ∈ [2, 4, 6], Boundary (timeOf rest) k) := by
  rw [formatActisenseTimestamp]
  dsimp only
  rw [returns_ite_throw, returns_check_bind, ← timeParts_ok_iff, timeOf, Nat.not_lt]
  refine forall_congr' fun _ => exists_congr fun r => and_iff_left ?_
  simp

theorem parseLine_returns_iff (line : List Char) : Returns (parseLine line) ↔ Fits line := by
  rw [parseLine, Fits]
  dsimp only
  have hnonempty : ∀ tok ∈ (splitWhitespace (trimNewlines line))[0]?, trimNewlines line ≠ [] := by
    intro tok htok hnil
    rw [hnil] at htok
    cases htok
  rw [returns_ite_throw, returns_orError_bind]
  refine Iff.trans ⟨fun h tok htok => h (hnonempty tok htok) tok htok, fun h _ => h⟩
    (forall₂_congr fun tok _ => ?_)
  rw [returns_ite_throw, not_or, not_not, Nat.not_lt, and_imp]
  refine forall₂_congr fun hA _ => ?_
  obtain ⟨rest, rfl⟩ : ∃ rest, tok = 'A' :: rest := by
    cases tok with
    | nil => cases hA
    | cons c rest => exact ⟨rest, by rw [Option.some_inj.mp hA]⟩
  rw [show sliceText ('A' :: rest) 1 (byteLen ('A' :: rest)) = .ok rest from
    sliceText_append ['A'] rest, List.tail_cons, returns_check_bind]
  simp only [Except.ok.injEq, exists_eq_left']
  rw [returns_bind, returns_formatActisenseTimestamp, and_iff_left]
  intro timestamp _
  rw [returns_orError_bind]
  intro sdpTok _
  rw [returns_orError_bind]
  intro sdp _
  rw [returns_orError_bind]
  intro pgnTok _
  rw [returns_orError_bind]
  intro pgn _
  exact returns_bind_of_left (returns_foldlM returns_appendToken _ _) fun data => returns_pure _

end ActisenseAscii

namespace Ydwg02

/-- The year of the clock's date is a number of 32 bits. -/
def Fits (clock : Option UInt64) (line : List Char) : Prop :=
  splitWhitespace (trimNewlines line) ≠ [] →
    (daysToYmd ((clock.map (·.toInt64.toInt)).getD 0 / 86400)).1 ≤ i32Max

theorem synthIsoTimestamp_ok_iff (clock : Option UInt64) (time : List Char) :
    (∃ s, synthIsoTimestamp clock time = .ok s) ↔
      (daysToYmd ((clock.map (·.toInt64.toInt)).getD 0 / 86400)).1 ≤ i32Max := by
  have hbounds : -9223372036854775808 ≤ (clock.map (·.toInt64.toInt)).getD 0 ∧
      (clock.map (·.toInt64.toInt)).getD 0 ≤ 9223372036854775807 := by
    cases clock with
    | none => decide
    | some secs => exact ⟨secs.toInt64.le_toInt, Int64.toInt_le _⟩
  rw [synthIsoTimestamp]
  dsimp only
  rw [Fault.ok_bind_iff, checkedDaysToYmd_eq (by omega) (by omega)]
  split_ifs with hfits
  · exact iff_of_true ⟨_, rfl, _, rfl⟩ hfits
  · exact iff_of_false (by rintro ⟨r, ⟨⟩, -⟩) hfits

theorem parseLine_returns_iff (clock : Option UInt64) (line : List Char) :
    Returns (parseLine clock line) ↔ Fits clock line := by
  rw [parseLine, Fits]
  dsimp only
  rw [returns_ite_throw, returns_orError_bind]
  cases htoks : splitWhitespace (trimNewlines line) with
  | nil => exact iff_of_true (fun _ tok htok => by cases htok) fun h => absurd rfl h
  | cons tok toks =>
      have hne : trimNewlines line ≠ [] := by
        intro hnil
        rw [hnil] at htoks
        cases htoks
      rw [List.getElem?_cons_zero, forall_prop_of_true hne,
        forall_prop_of_true (List.cons_ne_nil tok toks), ← synthIsoTimestamp_ok_iff clock tok]
      simp only [Option.mem_some_iff, forall_eq']
      rw [returns_check_bind]
      refine exists_congr fun timestamp => and_iff_left ?_
      rw [returns_orError_bind]
      intro dir _
      rw [returns_orError_bind]
      intro canidTok _
      rw [returns_orError_bind]
      intro canid _
      refine returns_bind_of_left (returns_foldlM (fun data t => ?_) _ _) fun data => returns_pure _
      simp

end Ydwg02

namespace Ikonvert

/-- A text of base 64 is padding for three quarters at most. -/
def B64Fits (s : List Char) : Prop :=
  (utf8Bytes (trim s)).length % 4 = 0 → (∀ b ∈ utf8Bytes (trim s), (b64Value b).isSome) →
    4 * (utf8Bytes (trim s)).count 0x3d ≤ 3 * (utf8Bytes (trim s)).length

/-- A frame with numbers in its first four fields has such a text for its last. -/
def FrameFits (rest : List Char) : Prop :=
  (∀ i ∈ [(0, 4294967295), (1, 255), (2, 255), (3, 255)],
    ∃ s ∈ (splitN ',' 6 rest)[i.1]?, (parseUnsigned i.2 (trim s)).isSome) →
    ∀ b64 ∈ (splitN ',' 6 rest)[5]?, B64Fits b64

def Fits (line : List Char) : Prop :=
  ∀ rest ∈ stripPrefix "!PDGY,".toList (trimNewlines line), FrameFits rest

theorem b64Value_padding {b : UInt8} {r : UInt32 × Bool} (h : b64Value b = some r) :
    r.2.toNat = if b == 0x3d then 1 else 0 := by
  by_cases hpad : b = 0x3d
  · subst hpad
    cases (show b64Value 0x3d = some (0, true) from rfl).symm.trans h
    rfl
  · rw [if_neg (by simpa using hpad)]
    rw [b64Value, if_neg hpad] at h
    split_ifs at h <;> cases h <;> rfl

/-- Bytes in groups of four that are no group are none. -/
theorem eq_nil_of_short {bytes : List UInt8} (hlen : bytes.length % 4 = 0)
    (hshort : ∀ a b c d rest, bytes = a :: b :: c :: d :: rest → False) : bytes = [] := by
  match bytes, hlen, hshort with
  | [], _, _ => rfl
  | a :: b :: c :: d :: rest, _, hshort => exact (hshort a b c d rest rfl).elim

theorem decodeGroups_eq (bytes : List UInt8) (hlen : bytes.length % 4 = 0)
    (hall : ∀ b ∈ bytes, (b64Value b).isSome) :
    ∃ out, decodeGroups bytes = some (out, bytes.count 0x3d) ∧
      4 * out.length = 3 * bytes.length := by
  induction bytes using decodeGroups.induct with
  | case1 a b c d bytes ih =>
      simp only [List.mem_cons, forall_eq_or_imp] at hall
      obtain ⟨ha, hb, hc, hd, hrest⟩ := hall
      obtain ⟨va, ha⟩ := Option.isSome_iff_exists.mp ha
      obtain ⟨vb, hb⟩ := Option.isSome_iff_exists.mp hb
      obtain ⟨vc, hc⟩ := Option.isSome_iff_exists.mp hc
      obtain ⟨vd, hd⟩ := Option.isSome_iff_exists.mp hd
      simp only [List.length_cons] at hlen ⊢
      obtain ⟨out, hout, hcount⟩ := ih (by omega) hrest
      rw [decodeGroups, ha, hb, hc, hd, hout]
      refine ⟨_, congrArg some (Prod.ext rfl ?_), by simp only [List.length_cons]; omega⟩
      simp only [List.count_cons, b64Value_padding ha, b64Value_padding hb, b64Value_padding hc,
        b64Value_padding hd]
      omega
  | case2 bytes hshort =>
      rw [eq_nil_of_short hlen hshort]
      exact ⟨[], rfl, rfl⟩

theorem isSome_of_decodeGroups {bytes : List UInt8} {r : List UInt8 × ℕ}
    (hlen : bytes.length % 4 = 0) (h : decodeGroups bytes = some r) :
    ∀ b ∈ bytes, (b64Value b).isSome := by
  induction bytes using decodeGroups.induct generalizing r with
  | case1 a b c d bytes ih =>
      simp only [decodeGroups, Option.bind_eq_bind, Option.bind_eq_some_iff] at h
      obtain ⟨va, ha, vb, hb, vc, hc, vd, hd, s, hs, -⟩ := h
      simp only [List.length_cons] at hlen
      simp only [List.mem_cons, forall_eq_or_imp, ha, hb, hc, hd, Option.isSome_some, true_and]
      exact ih (by omega) hs
  | case2 bytes hshort =>
      rw [eq_nil_of_short hlen hshort]
      nofun

theorem b64Decode_ok_iff (s : List Char) : (∃ r, b64Decode s = .ok r) ↔ B64Fits s := by
  rw [b64Decode, B64Fits]
  split_ifs with hempty hlen
  · rw [hempty]
    exact iff_of_true ⟨_, rfl⟩ fun _ _ => Nat.le_refl 0
  · exact iff_of_true ⟨_, rfl⟩ fun h => absurd h hlen
  · have hlen := not_not.mp hlen
    rw [forall_prop_of_true hlen]
    by_cases hall : ∀ b ∈ utf8Bytes (trim s), (b64Value b).isSome
    · obtain ⟨out, hout, hcount⟩ := decodeGroups_eq _ hlen hall
      rw [hout, forall_prop_of_true hall]
      dsimp only
      split_ifs with hpad
      · rw [Fault.ok_bind_iff]
        simp only [checkedSub_ok_iff]
        constructor
        · rintro ⟨_, ⟨hle, _⟩, _⟩
          omega
        · intro hle
          exact ⟨_, ⟨by omega, rfl⟩, _, rfl⟩
      · exact iff_of_true ⟨_, rfl⟩ (by omega)
    · cases hgroups : decodeGroups (utf8Bytes (trim s)) with
      | none => exact iff_of_true ⟨_, rfl⟩ fun h => absurd h hall
      | some r => exact absurd (isSome_of_decodeGroups hlen hgroups) hall

theorem returns_parseInt_bind {α : Type} {max : ℕ} {raw : Option (List Char)} {field : String}
    {f : ℕ → Checked ParseError α} :
    Returns (parseInt max raw field >>= f) ↔
      ∀ s ∈ raw, ∀ n ∈ parseUnsigned max (trim s), Returns (f n) := by
  rw [parseInt, bind_assoc, returns_orError_bind]
  exact forall₂_congr fun s _ => returns_orError_bind

theorem returns_parseN2kLine (rest : List Char) : Returns (parseN2kLine rest) ↔ FrameFits rest := by
  rw [parseN2kLine, FrameFits]
  simp only [returns_parseInt_bind, List.mem_cons, List.not_mem_nil, or_false, forall_eq_or_imp,
    forall_eq, and_imp, Option.isSome_iff_exists]
  have htail : ∀ b64, (∃ r, b64Decode b64 = .ok r) ↔ B64Fits b64 := b64Decode_ok_iff
  constructor
  · rintro h ⟨s₀, hs₀, n₀, hn₀⟩ ⟨s₁, hs₁, n₁, hn₁⟩ ⟨s₂, hs₂, n₂, hn₂⟩ ⟨s₃, hs₃, n₃, hn₃⟩ b64 hb64
    have hrest := h s₀ hs₀ n₀ hn₀ s₁ hs₁ n₁ hn₁ s₂ hs₂ n₂ hn₂ s₃ hs₃ n₃ hn₃
    obtain ⟨ts, hts⟩ : ∃ ts, (splitN ',' 6 rest)[4]? = some ts := by
      have hlong := (List.getElem?_eq_some_iff.mp hb64).1
      exact ⟨_, List.getElem?_eq_getElem (by omega)⟩
    rw [returns_orError_bind] at hrest
    have hdecode := hrest ts hts
    rw [returns_orError_bind] at hdecode
    have hdecode := hdecode b64 hb64
    rw [returns_check_bind] at hdecode
    obtain ⟨r, hr, -⟩ := hdecode
    exact (htail b64).mp ⟨r, hr⟩
  · intro h s₀ hs₀ n₀ hn₀ s₁ hs₁ n₁ hn₁ s₂ hs₂ n₂ hn₂ s₃ hs₃ n₃ hn₃
    rw [returns_orError_bind]
    intro ts _
    rw [returns_orError_bind]
    intro b64 hb64
    obtain ⟨r, hr⟩ := (htail b64).mpr (h ⟨s₀, hs₀, n₀, hn₀⟩ ⟨s₁, hs₁, n₁, hn₁⟩ ⟨s₂, hs₂, n₂, hn₂⟩
      ⟨s₃, hs₃, n₃, hn₃⟩ b64 hb64)
    rw [returns_check_bind]
    refine ⟨r, hr, ?_⟩
    rw [returns_orError_bind]
    exact fun data _ => returns_pure _

theorem parseLine_returns_iff (line : List Char) : Returns (parseLine line) ↔ Fits line := by
  rw [parseLine, Fits]
  rw [returns_ite_throw]
  cases hframe : stripPrefix "!PDGY,".toList (trimNewlines line) with
  | none =>
      refine iff_of_true (fun _ => ?_) nofun
      cases stripPrefix "$PDGY,".toList (trimNewlines line) with
      | none => exact returns_pure _
      | some rest => exact returns_pure _
  | some rest =>
      have hne : trimNewlines line ≠ [] := by
        intro hnil
        rw [hnil] at hframe
        cases hframe
      rw [forall_prop_of_true hne]
      simp only [Option.mem_some_iff, forall_eq', bind_pure_comp, returns_map,
        returns_parseN2kLine]

end Ikonvert

namespace Airmar

theorem parseLine_returns (line : List Char) : Returns (parseLine line) := by
  rw [parseLine]
  dsimp only
  rw [returns_ite_throw]
  intro _
  rw [returns_orError_bind]
  intro parts _
  rw [returns_orError_bind]
  intro pgnTok _
  rw [returns_orError_bind]
  intro canidTok _
  rw [returns_orError_bind]
  intro canid _
  refine returns_bind_of_left (returns_foldlM (fun data raw => ?_) _ _) fun data => returns_pure _
  apply returns_foldlM
  intro data tok
  rw [returns_ite]
  simp

end Airmar

namespace Chetco

theorem le_of_parseHex {max n : ℕ} {s : List Char} (h : parseHex max s = some n) : n ≤ max := by
  unfold parseHex at h
  dsimp only at h
  split_ifs at h
  simpa using (Option.filter_eq_some_iff.mp h).2

theorem parseLine_returns (line : List Char) : Returns (parseLine line) := by
  rw [parseLine]
  dsimp only
  rw [returns_ite_throw]
  intro _
  rw [returns_orError_bind]
  intro rest _
  rw [returns_orError_bind]
  intro pgnTok _
  rw [returns_orError_bind]
  intro tstampTok _
  rw [returns_orError_bind]
  intro srcTok _
  rw [returns_orError_bind]
  intro dataTok _
  rw [returns_orError_bind]
  intro pgn _
  rw [returns_orError_bind]
  intro tstampMs hms
  rw [returns_orError_bind]
  intro src _
  refine returns_bind_of_left (returns_hexBytes _ _) fun data => ?_
  obtain ⟨timestamp, htimestamp⟩ := formatUnixMs_ok (le_of_parseHex hms)
  rw [returns_check_bind]
  exact ⟨timestamp, htimestamp, returns_pure _⟩

end Chetco

namespace GarminCsv

theorem le_of_parseUnsigned {max n : ℕ} {s : List Char} (h : parseUnsigned max s = some n) :
    n ≤ max := by
  unfold parseUnsigned at h
  simpa using (Option.filter_eq_some_iff.mp h).2

theorem returns_formatRelativeTimestamp (msStr : List Char) :
    Returns (formatRelativeTimestamp msStr) := by
  rw [formatRelativeTimestamp, returns_orError_bind]
  intro ms hms
  exact returns_check.mpr (formatUnixMs_ok (le_of_parseUnsigned hms))

theorem returns_formatAbsoluteTimestamp (tok : List Char) :
    Returns (formatAbsoluteTimestamp tok) := by
  rw [formatAbsoluteTimestamp]
  simp

theorem parseLine_returns (line : List Char) (variant : Variant) :
    Returns (parseLine line variant) := by
  rw [parseLine]
  dsimp only
  rw [returns_ite_throw]
  intro _
  rw [returns_ite]
  refine ⟨fun _ => returns_pure _, fun _ => ?_⟩
  rw [returns_orError_bind]
  intro seqTok _
  rw [returns_orError_bind]
  intro seq _
  rw [returns_orError_bind]
  intro tstampTok _
  rw [returns_orError_bind]
  intro pgnTok _
  rw [returns_orError_bind]
  intro pgn _
  refine returns_bind_of_left (returns_forM (fun skipped => by simp) _) fun _ => ?_
  simp only [returns_orError_bind]
  intro srcTok _ dstTok _ prioTok _ single _ sizeTok _ packetTok _ src _ dst _ prio _ size _
  refine returns_bind_of_left (returns_hexBytes _ _) fun data => ?_
  cases variant with
  | relative =>
      exact returns_bind_of_left (returns_formatRelativeTimestamp tstampTok)
        fun _ => returns_pure _
  | absolute =>
      exact returns_bind_of_left (returns_formatAbsoluteTimestamp tstampTok)
        fun _ => returns_pure _

end GarminCsv

end Canboat
