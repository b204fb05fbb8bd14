import Canboat.Bridge.Overrides
import Canboat.Snapshot.Store
import Canboat.Tui.DeviceCache
import Canboat.Tui.Line
import Mathlib.Logic.Function.Basic

/-!
# State of the user interface

The latest record for each `(pgn, src, secondary)`, what is remembered of devices, and what the
server has reported on its control channels. Maps that the code keeps in order are put in order
where they are read.
-/

namespace Canboat.Tui

open Json

/-- What the state uses of other crates. -/
structure Env (F : Type) where
  /-- `PgnDatabase::embedded(Units::Metric)`. -/
  db : PgnDatabase F
  /-- The text of a value, as `serde_json` writes it. -/
  display : Value F → String

structure Entry (F : Type) where
  description : String
  line : Value F

structure Nmea0183Device where
  muted : Bool
  sentences : IndexMap String Bool

structure OverrideRow where
  src : UInt8
  pgn : UInt32
  intervalMs : UInt32
  manufacturerCode : Option UInt16
  industryCode : Option UInt8
  description : String
  lastSeen : ℕ
deriving DecidableEq

/-- The sentence that stands for a whole source. -/
def NMEA0183_ALL : String := "ALL"

def PGN_NMEA0183_FILTER : UInt32 := 262657

structure AppState (F : Type) where
  entries : IndexMap CacheKey (Entry F)
  deviceCache : NameKey → Option CachedInfo
  /-- The NAME in the last claim from a source. -/
  srcToName : UInt8 → Option NameKey
  nmea0183 : IndexMap UInt8 Nmea0183Device
  overrides : IndexMap (UInt8 × UInt32) OverrideRow
  messagesSeen : UInt64

/-- The arguments of `upsert`, and when it is called. -/
structure Arrival (F : Type) where
  pgn : UInt32
  src : UInt8
  secondary : Option String
  description : String
  line : Value F
  now : ℕ

variable {F : Type} (env : Env F)

/-! ## Identity -/

def nameKeyFromClaim (line : Value F) : Option NameKey :=
  match fieldNumber line "Manufacturer Code", fieldNumber line "Unique Number" with
  | some mfr, some uid =>
      match u16TryFrom mfr, u32TryFrom uid with
      | some manufacturerCode, some uniqueNumber => some { manufacturerCode, uniqueNumber }
      | _, _ => none
  | _, _ => none

def manufacturerNameFromClaim (line : Value F) : Option String :=
  ((fieldValue line "Manufacturer Code").bind fun v => v.pointer ["name"]).bind Json.Tree.asStr

def stampOf (line : Value F) : Option String := (line.pointer ["timestamp"]).bind Json.Tree.asStr

def claimInfo (line : Value F) : CachedInfo where
  manufacturerName := manufacturerNameFromClaim line
  deviceFunction := (fieldNumber line "Device Function").map toU32
  deviceClass := (fieldNumber line "Device Class").map toU32
  industryGroup := (fieldNumber line "Industry Group").map toU32
  firstSeen := stampOf line
  lastSeen := stampOf line

def productInfo (line : Value F) : CachedInfo where
  productCode := (fieldNumber line "Product Code").map toU32
  modelId := fieldText env.display line "Model ID"
  softwareVersion := fieldText env.display line "Software Version Code"
  modelVersion := fieldText env.display line "Model Version"
  modelSerialCode := fieldText env.display line "Model Serial Code"
  nmeaDbVersion := (fieldNumber line "NMEA 2000 Version").map toU32
  certificationLevel := (fieldNumber line "Certification Level").map toU32
  loadEquivalency := (fieldNumber line "Load Equivalency").map toU32
  lastSeen := stampOf line

def configInfo (line : Value F) : CachedInfo where
  installationDescription1 := fieldText env.display line "Installation Description #1"
  installationDescription2 := fieldText env.display line "Installation Description #2"
  manufacturerInformation := fieldText env.display line "Manufacturer Information"
  lastSeen := stampOf line

namespace AppState

variable (s : AppState F)

def new (deviceCache : NameKey → Option CachedInfo) : AppState F where
  entries := IndexMap.empty
  deviceCache
  srcToName _ := none
  nmea0183 := IndexMap.empty
  overrides := IndexMap.empty
  messagesSeen := 0

/-- Merge into what is remembered of a device. -/
def remember (key : NameKey) (info : CachedInfo) : AppState F :=
  { s with deviceCache :=
      Function.update s.deviceCache key (some (((s.deviceCache key).getD {}).mergeFrom info)) }

def observeForCache (pgn : UInt32) (src : UInt8) (line : Value F) : AppState F :=
  if pgn = 60928 then
    match nameKeyFromClaim line with
    | none => s
    | some key =>
        { s with srcToName := Function.update s.srcToName src (some key) }.remember key
          (claimInfo line)
  else if pgn = 126996 then
    match s.srcToName src with
    | none => s
    | some key => s.remember key (productInfo env line)
  else if pgn = 126998 then
    match s.srcToName src with
    | none => s
    | some key => s.remember key (configInfo env line)
  else s

/-! ## Reports of the control channels -/

def applyNmea0183Report (line : Value F) : AppState F :=
  if fieldNumber line "Function" ≠ some 0 then s
  else
    match fieldNumber line "Source", fieldText env.display line "Sentence" with
    | some src, some sentence =>
        let muted : Bool := ((fieldNumber line "Muted").getD 0) ≠ 0
        { s with nmea0183 := s.nmea0183.upsert (toU8 src) fun dev =>
            let dev := dev.getD ⟨false, IndexMap.empty⟩
            if sentence = NMEA0183_ALL then { dev with muted := muted }
            else { dev with sentences := dev.sentences.insert sentence muted } }
    | _, _ => s

/-- The definition of a PGN that matches the manufacturer, or its first. -/
def variantFor (db : PgnDatabase F) (pgn : UInt32) (mfr : Option UInt16) : Option (PgnInfo F) :=
  (mfr.bind fun m => (db.pgnVariants pgn).find? fun v =>
    (v.fields.head?.bind (·.matchValue)) = some (Int64.ofNat m.toNat)).or (db.firstPgn pgn)

def applyOverrideReport (line : Value F) (now : ℕ) : AppState F :=
  if fieldNumber line "Function" ≠ some 0 then s
  else
    match fieldNumber line "Source", fieldNumber line "PGN" with
    | some src, some pgn =>
        let src := toU8 src
        let pgn := toU32 pgn
        let interval := (fieldNumber line "Interval").getD 0
        let manufacturerCode :=
          ((fieldNumber line "Manufacturer Code").filter (· ≠ 0xffff)).map (·.toUInt64.toUInt16)
        let row : OverrideRow := {
          src
          pgn
          intervalMs := toU32 (if interval < 0 then 0 else interval)
          manufacturerCode
          industryCode := ((fieldNumber line "Industry Code").filter (· ≠ 0xff)).map toU8
          description := ((variantFor env.db pgn manufacturerCode).map (·.description)).getD ""
          lastSeen := now }
        { s with overrides := s.overrides.insert (src, pgn) row }
    | _, _ => s

/-! ## Arrivals -/

def countMessage : AppState F :=
  { s with messagesSeen := if s.messagesSeen = 0xffffffffffffffff then s.messagesSeen
      else s.messagesSeen + 1 }

def upsert (a : Arrival F) : AppState F :=
  let line := normalizeCamel env.db a.line
  let description := ((line.pointer ["description"]).bind Json.Tree.asStr).getD a.description
  if a.pgn = PGN_NMEA0183_FILTER then (s.applyNmea0183Report env line).countMessage
  else if a.pgn = PGN_PGN_OVERRIDE then (s.applyOverrideReport env line a.now).countMessage
  else
    let s := { s with entries := s.entries.insert ⟨a.pgn, a.src, a.secondary⟩ ⟨description, line⟩ }
    (s.observeForCache env a.pgn a.src line).countMessage

end AppState

/-! ## Views -/

structure DeviceInfo where
  src : UInt8
  manufacturer : String := ""
  model : String := ""
  software : String := ""
  installation : String := ""
  pgnCount : ℕ := 0
deriving DecidableEq, Repr

namespace DeviceInfo

variable (dev : DeviceInfo)

def fillFromClaim (line : Value F) : DeviceInfo :=
  if dev.manufacturer = "" then
    { dev with manufacturer :=
        (fieldText env.display line "Manufacturer Code").getD dev.manufacturer }
  else dev

def fillFromProductInfo (line : Value F) : DeviceInfo :=
  { dev with
    model := (fieldText env.display line "Model ID").getD dev.model
    software := (fieldText env.display line "Software Version Code").getD dev.software }

def fillFromConfigInfo (line : Value F) : DeviceInfo :=
  { dev with installation :=
      (fieldText env.display line "Installation Description #1").getD dev.installation }

def fill (pgn : UInt32) (line : Value F) : DeviceInfo :=
  if pgn = 60928 then dev.fillFromClaim env line
  else if pgn = 126996 then dev.fillFromProductInfo env line
  else if pgn = 126998 then dev.fillFromConfigInfo env line
  else dev

/-- A text that is still empty is taken from the cache. -/
def backfill (text : String) (cached : Option String) : String :=
  if text = "" then cached.getD text else text

def enrich (cached : CachedInfo) : DeviceInfo :=
  { dev with
    manufacturer := backfill dev.manufacturer cached.manufacturerName
    model := backfill dev.model cached.modelId
    software := backfill dev.software cached.softwareVersion
    installation := backfill dev.installation cached.installationDescription1 }

end DeviceInfo

namespace AppState

variable (s : AppState F)

/-- The entries of a source, in the order of the table. -/
def entriesOf (src : UInt8) : List (CacheKey × Entry F) :=
  s.entries.entries.filter fun e => e.1.src = src

/-- What the entries of a source say of its device. -/
def seenDevice (src : UInt8) : DeviceInfo :=
  let dev := (s.entriesOf src).foldl
    (fun (dev : DeviceInfo) e => dev.fill env e.1.pgn e.2.line) { src }
  { dev with pgnCount := ((s.entriesOf src).map (·.1.pgn)).dedup.length }

def deviceAt (src : UInt8) : DeviceInfo :=
  match (s.srcToName src).bind s.deviceCache with
  | none => s.seenDevice env src
  | some cached => (s.seenDevice env src).enrich cached

/-- One device for each source with an entry, in the order of the sources. -/
def deviceList : List DeviceInfo :=
  (allSources.filter fun src => s.entriesOf src ≠ []).map (s.deviceAt env)

/-- How long an override stays in view after its last report. -/
def OVERRIDE_TTL : ℕ := seconds 6

def overrideRows (now : ℕ) : List OverrideRow :=
  ((s.overrides.entries.map Prod.snd).filter fun r => now - r.lastSeen < OVERRIDE_TTL).mergeSort
    fun a b => a.src < b.src || (a.src == b.src && a.pgn ≤ b.pgn)

end AppState

/-- A source, or one of its sentences. -/
structure Nmea0183Row where
  src : UInt8
  sentence : Option String
  muted : Bool
deriving DecidableEq, Repr

def AppState.nmea0183Rows (s : AppState F) : List Nmea0183Row :=
  (s.nmea0183.entries.mergeSort fun a b => a.1 ≤ b.1).flatMap fun (src, dev) =>
    ⟨src, none, dev.muted⟩ ::
      (dev.sentences.entries.mergeSort fun a b => a.1 ≤ b.1).map fun (sentence, muted) =>
        ⟨src, some sentence, muted⟩

end Canboat.Tui
