import Canboat.Bridge.Aivdm
import Canboat.Core.Units
import Canboat.Decode.DeviceName
import Canboat.Decode.Units
import Canboat.Lib.Gate
import Canboat.Output.LatLon
import Canboat.Snapshot.Keys

/-!
# NMEA 0183 sentences

A decoded record becomes a sentence if its definition is one of those that have one, if its fields
are there, and if no record of its class was let through within the last second.
-/

namespace Canboat

open Binary64 (digits)

/-- A class of sentences that share a slot of the limiter. -/
inductive Rate
  | VesselHeading
  | WindData
  | WaterDepth
  | WaterSpeed
  | Rudder
  | GpsSpeed
  | GpsDop
  | GpsPosition
  | Environmental
  | DistanceLog
deriving DecidableEq, Repr

structure RateLimiter (F : Type) where
  lastPassed : UInt8 × Rate → Option ℕ
  enabled : Bool
  /-- In m/s and degrees, with the time they were taken. -/
  lastSogCog : Option (F × F × ℕ)
  /-- Of the AIS encoder. -/
  aisSeq : UInt8

namespace Nmea0183

/-- `Duration::from_secs(1)`. -/
def RATE_GAP : ℕ := seconds 1

variable {F : Type}

def newLimiter (enabled : Bool) : RateLimiter F := ⟨fun _ => none, enabled, none, 0⟩

/-- Whether the record is to be dropped; if not, its slot is stamped. -/
def shouldDropFast (rl : RateLimiter F) (now : ℕ) (src : UInt8) (rate : Rate) :
    Bool × RateLimiter F :=
  if !rl.enabled then (false, rl)
  else if (rl.lastPassed (src, rate)).any fun prev => now - prev < RATE_GAP then (true, rl)
  else (false, { rl with lastPassed := Function.update rl.lastPassed (src, rate) (some now) })

def recordSogCog (rl : RateLimiter F) (now : ℕ) (sog cog : F) : RateLimiter F :=
  { rl with lastSogCog := some (sog, cog, now) }

def recentSogCog (rl : RateLimiter F) (now : ℕ) : Option (F × F) :=
  (rl.lastSogCog.filter fun s => now - s.2.2 < RATE_GAP).map fun s => (s.1, s.2.1)

/-! ## The sentences -/

/-- Talker letters for the source, and a checksum. -/
def create (src : UInt8) (body : List Char) : List Char :=
  let first := 65 + ((src >>> 4) &&& 0x0f).toNat
  let first := if 80 ≤ first then first + 1 else first
  let second := 65 + (src &&& 0x0f).toNat
  let text := Char.ofNat first :: Char.ofNat second :: body
  let chk := (utf8Bytes text).foldl (· ^^^ ·) 0
  '$' :: (text ++ '*' :: (Ais.hexChecksum chk ++ ['\r', '\n']))

/-- Joined by commas. -/
def fields (parts : List (List Char)) : List Char := (parts.intersperse [',']).flatten

variable [Float64 F]

variable (F) in
def MS_TO_KNOTS : F := Float64.ofRat 1.94384

variable (F) in
def MS_TO_KMH : F := Float64.ofRat 3.6

variable (F) in
def M_TO_NM : F := Float64.div (Float64.ofInt 1) (Float64.ofInt 1852)

end Nmea0183

section

variable {F : Type} [Float64 F]

def DecodedField.asF64In (f : DecodedField F) (target : String) : Option F :=
  f.value.asF64.bind fun v =>
    match f.unit with
    | some source => convertUnit v source target
    | none => some v

end

namespace Nmea0183

variable {F : Type} [Float64 F]

/-- The value of the field of this order. -/
def numberOf (d : DecodedPgn F) (order : UInt8) : Option F := (d.field order).bind (·.value.asF64)

def numberIn (d : DecodedPgn F) (order : UInt8) (unit : String) : Option F :=
  (d.field order).bind (·.asF64In unit)

def lookupOf (d : DecodedPgn F) (order : UInt8) : Option UInt64 :=
  (d.field order).bind (·.value.lookupValue)

def fixed1 (v : F) : List Char := Float64.displayFixed 1 v

def fixed2 (v : F) : List Char := Float64.displayFixed 2 v

def isNegative (v : F) : Bool := Float64.lt v (Float64.ofInt 0)

def vesselHeading (src : UInt8) (d : DecodedPgn F) : List Char :=
  match numberIn d 2 "deg" with
  | none => []
  | some heading =>
      let reference : Int64 := ((lookupOf d 5).map (·.toInt64)).getD (-1)
      match numberIn d 3 "deg", numberIn d 4 "deg", decide (reference = 1) with
      | some dev, some var, true =>
          create src (fields ["HDG".toList, fixed1 heading, fixed1 (Float64.abs dev),
            [if isNegative dev then 'W' else 'E'], fixed1 (Float64.abs var),
            [if isNegative var then 'W' else 'E']])
      | _, _, _ =>
          if reference = 0 then create src (fields ["HDT".toList, fixed1 heading, ['T']])
          else if reference = 1 then create src (fields ["HDM".toList, fixed1 heading, ['M']])
          else []

def windData (src : UInt8) (d : DecodedPgn F) : List Char :=
  match numberOf d 2, numberIn d 3 "deg" with
  | some speed, some angle =>
      let reference : Int64 := ((lookupOf d 4).map (·.toInt64)).getD (-1)
      let sentence (refChar : Char) :=
        create src (fields ["MWV".toList, fixed1 angle, [refChar],
          fixed1 (Float64.mul speed (MS_TO_KMH F)), ['K'], ['A']])
      if reference = 2 then sentence 'R'
      else if reference = 3 then sentence 'T'
      else []
  | _, _ => []

/-- The speed and course are kept for the position's sentences. -/
def sogCog (src : UInt8) (d : DecodedPgn F) (now : ℕ) (rl : RateLimiter F) :
    List Char × RateLimiter F :=
  match numberOf d 5, numberIn d 4 "deg" with
  | some sog, some cog =>
      (create src (fields ["VTG".toList, fixed1 cog, ['T'], [], ['M'],
        fixed2 (Float64.mul sog (MS_TO_KNOTS F)), ['N'], fixed2 (Float64.mul sog (MS_TO_KMH F)),
        ['K']]), recordSogCog rl now sog cog)
  | _, _ => ([], rl)

def rudder (src : UInt8) (d : DecodedPgn F) : List Char :=
  match numberIn d 5 "deg" with
  | some pos =>
      create src (fields ["RSA".toList, fixed1 (Float64.mul (Float64.ofInt (-1)) pos), ['A'], [],
        ['F']])
  | none => []

def waterSpeed (src : UInt8) (d : DecodedPgn F) : List Char :=
  match numberOf d 2 with
  | some s =>
      create src (fields ["VHW".toList, [], ['T'], [], ['M'],
        fixed1 (Float64.mul s (MS_TO_KNOTS F)), ['N'], fixed1 (Float64.mul s (MS_TO_KMH F)), ['K']])
  | none => []

def waterDepth (src : UInt8) (d : DecodedPgn F) : List Char :=
  match numberOf d 2 with
  | some depth =>
      create src (fields ["DPT".toList, fixed1 depth, ((numberOf d 3).map fixed1).getD []])
  | none => []

def distanceLog (src : UInt8) (d : DecodedPgn F) : List Char :=
  match numberOf d 3, numberOf d 4 with
  | some log, some trip =>
      create src (fields ["VLW".toList, fixed1 (Float64.mul log (M_TO_NM F)), ['N'],
        fixed1 (Float64.mul trip (M_TO_NM F)), ['N']])
  | _, _ => []

/-- Of water only. -/
def environmental (src : UInt8) (d : DecodedPgn F) : List Char :=
  match lookupOf d 2 with
  | none => []
  | some source =>
      if source ≠ 0 then []
      else
        match numberIn d 4 "C" with
        | some celsius => create src (fields ["MTW".toList, fixed1 celsius, ['C']])
        | none => []

/-- `char::from_digit(n as u32, 10)`. -/
def fromDigit (n : UInt64) : List Char :=
  if n.toUInt32 < 10 then digits n.toUInt32.toNat else []

def gpsDop (src : UInt8) (d : DecodedPgn F) : List Char :=
  let mode := ((lookupOf d 3).map fromDigit).getD []
  let hdop := ((numberOf d 5).map fixed2).getD []
  let vdop := ((numberOf d 6).map fixed2).getD []
  create src (fields (["GSA".toList, ['M'], mode] ++ List.replicate 13 [] ++ [hdop, vdop]))

/-- Without colons, the zeros at the end, and then a point at the end. -/
def cleanupTime (s : List Char) : List Char :=
  let s := ((s.filter (· ≠ ':')).reverse.dropWhile (· = '0')).reverse
  if s.getLast? = some '.' then s.dropLast else s

/-- Day, month, and the last two digits of the year. -/
def nmeaDateString (days : UInt16) : List Char :=
  let (y, m, d) := daysToYmd days.toNat
  let year := Binary64.paddedDigits 4 y.toNat
  Binary64.paddedDigits 2 d ++ Binary64.paddedDigits 2 m ++ year.drop (year.length - 2)

/-- Degrees times a hundred and minutes, with the letter of the hemisphere. -/
def latlonToNmea (decimal : F) (isLat : Bool) : List Char × Char :=
  let abs := Float64.abs decimal
  let deg := floor abs
  let combined := Float64.add (Float64.mul deg (Float64.ofInt 100))
    (Float64.mul (Float64.sub abs deg) (Float64.ofInt 60))
  let hem :=
    if isLat then if isNegative decimal then 'S' else 'N'
    else if isNegative decimal then 'W'
    else 'E'
  (Float64.displayFixed 4 combined, hem)

/-- To seven decimal places, as the text of the analyzer has it. -/
def roundPosition (v : F) : F :=
  Float64.div (Float64.round (Float64.mul v (Float64.ofInt 10000000))) (Float64.ofInt 10000000)

def positionTime (d : DecodedPgn F) : List Char :=
  match (d.field 3).map DecodedField.value with
  | some (.time _ secs) => cleanupTime (formatTime secs 4 false)
  | _ => []

def positionDate (d : DecodedPgn F) : List Char :=
  match (d.field 2).map DecodedField.value with
  | some (.date days) => nmeaDateString days
  | _ => []

/-- Two sentences; the speed and course of the second are a second old at most. -/
def position (src : UInt8) (d : DecodedPgn F) (now : ℕ) (rl : RateLimiter F) : List Char :=
  match numberOf d 4, numberOf d 5 with
  | some lat, some lon =>
      let (latStr, latHem) := latlonToNmea (roundPosition lat) true
      let (lonStr, lonHem) := latlonToNmea (roundPosition lon) false
      let (sogStr, cogStr) :=
        match recentSogCog rl now with
        | some (sog, cog) => (fixed2 (Float64.mul sog (MS_TO_KNOTS F)), fixed1 cog)
        | none => ([], [])
      create src (fields ["GLL".toList, latStr, [latHem], lonStr, [lonHem], positionTime d, ['A']]) ++
        create src (fields ["RMC".toList, positionTime d, ['A'], latStr, [latHem], lonStr, [lonHem],
          sogStr, cogStr, positionDate d, [], [], ['A']])
  | _, _ => []

/-! ## The dispatcher -/

def rudderId : Identifier := ⟨"rudder", by decide⟩

def vesselHeadingId : Identifier := ⟨"vesselHeading", by decide⟩

def speedId : Identifier := ⟨"speed", by decide⟩

def waterDepthId : Identifier := ⟨"waterDepth", by decide⟩

def distanceLogId : Identifier := ⟨"distanceLog", by decide⟩

def cogSogRapidUpdateId : Identifier := ⟨"cogSogRapidUpdate", by decide⟩

def gnssPositionDataId : Identifier := ⟨"gnssPositionData", by decide⟩

def gnssDopsId : Identifier := ⟨"gnssDops", by decide⟩

def windDataId : Identifier := ⟨"windData", by decide⟩

def environmentalParametersId : Identifier := ⟨"environmentalParameters", by decide⟩

/-- The class that gates the record's sentence. -/
def rateOf (id : Identifier) : Option Rate :=
  if id = rudderId then some .Rudder
  else if id = vesselHeadingId then some .VesselHeading
  else if id = speedId then some .WaterSpeed
  else if id = waterDepthId then some .WaterDepth
  else if id = distanceLogId then some .DistanceLog
  else if id = cogSogRapidUpdateId then some .GpsSpeed
  else if id = gnssPositionDataId then some .GpsPosition
  else if id = gnssDopsId then some .GpsDop
  else if id = windDataId then some .WindData
  else if id = environmentalParametersId then some .Environmental
  else none

/-- The converter of the class. -/
def sentences (rate : Rate) (d : DecodedPgn F) (now : ℕ) (rl : RateLimiter F) :
    List Char × RateLimiter F :=
  match rate with
  | .Rudder => (rudder d.src d, rl)
  | .VesselHeading => (vesselHeading d.src d, rl)
  | .WaterSpeed => (waterSpeed d.src d, rl)
  | .WaterDepth => (waterDepth d.src d, rl)
  | .DistanceLog => (distanceLog d.src d, rl)
  | .GpsSpeed => sogCog d.src d now rl
  | .GpsPosition => (position d.src d now rl, rl)
  | .GpsDop => (gpsDop d.src d, rl)
  | .WindData => (windData d.src d, rl)
  | .Environmental => (environmental d.src d, rl)

/-- What is appended to the output, and the limiter behind it. AIS goes to its own encoder. -/
def convertNmea0183 (ais : DecodedPgn F → UInt8 → List Char × UInt8) (now : ℕ) (d : DecodedPgn F)
    (rl : RateLimiter F) : List Char × RateLimiter F :=
  if isAisPgn d.pgn then
    let (out, seq) := ais d rl.aisSeq
    (out, { rl with aisSeq := seq })
  else
    match rateOf d.id with
    | none => ([], rl)
    | some rate =>
        let (drop, rl) := shouldDropFast rl now d.src rate
        if drop then ([], rl) else sentences rate d now rl

end Nmea0183

end Canboat
