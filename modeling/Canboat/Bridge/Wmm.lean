import Canboat.Bridge.Overrides
import Canboat.Bridge.Scx20
import Canboat.Decode.Units
import Canboat.Encode.Builder

/-!
# The magnetic variation quirk

Computes the variation for the position and the date on the bus, sends it each second from
canboat's own node, and asks each source of an older model once to stop.

The model of the Earth's field is a parameter, with its dates. One call reads the clock of the
host once.
-/

namespace Canboat

def PGN_POSITION_RAPID : UInt32 := 129025

def PGN_GNSS_POSITION : UInt32 := 129029

def PGN_SYSTEM_TIME : UInt32 := 126992

def PGN_MAGNETIC_VARIATION : UInt32 := 127258

structure WmmQuirk (F : Type) where
  /-- Latitude and longitude in degrees. -/
  lastPos : Option (F × F)
  /-- Days since 1970. -/
  lastDays : Option UInt16
  /-- In radians. -/
  cachedRad : Option F
  lastCompute : Option ℕ
  lastEmit : Option ℕ
  askedStop : UInt8 → Bool

/-- The database of SI units, and the declination at a place on a date. -/
structure WmmEnv (F : Type) where
  db : PgnDatabase F
  variationRad : F → F → ℤ × ℕ × ℕ → Option F

namespace WmmQuirk

def SOURCE_WMM_2025 : Int64 := 9

/-- The first and the last of the older models. -/
def OLDER_WMM : Int64 × Int64 := (4, 8)

def COMPUTE_INTERVAL : ℕ := seconds 600

def EMIT_INTERVAL : ℕ := seconds 1

def magneticVariation : Identifier := ⟨"magneticVariation", by decide⟩

variable {F : Type} [Float64 F]

def new : WmmQuirk F where
  lastPos := none
  lastDays := none
  cachedRad := none
  lastCompute := none
  lastEmit := none
  askedStop := fun _ => false

/-- Days since 1970 by the clock of the host. -/
def hostDays (wall : UInt64) : UInt16 := (wall / 1000 / 86400).toUInt16

def dateFromDays (days : UInt16) : ℤ × ℕ × ℕ := daysToYmd days.toNat

/-! ## What the bus tells -/

def observePosition (q : WmmQuirk F) (d : DecodedPgn F) (latOrder lonOrder : UInt8) : WmmQuirk F :=
  match (d.field latOrder).bind (·.value.asF64), (d.field lonOrder).bind (·.value.asF64) with
  | some lat, some lon => { q with lastPos := some (lat, lon) }
  | _, _ => q

def observeDate (q : WmmQuirk F) (d : DecodedPgn F) (order : UInt8) : WmmQuirk F :=
  match (d.field order).bind (·.value.asI64) with
  | some days =>
      if 0 ≤ days ∧ days < 65536 then { q with lastDays := some days.toUInt64.toUInt16 } else q
  | none => q

/-- The source of an older model that has not been asked yet. -/
def maybeRequestStop (q : WmmQuirk F) (d : DecodedPgn F) : WmmQuirk F × Option RawFrame :=
  match (d.field 2).bind (·.value.asI64) with
  | none => (q, none)
  | some source =>
      if ¬(OLDER_WMM.1 ≤ source ∧ source ≤ OLDER_WMM.2) ∨ q.askedStop d.src = true then (q, none)
      else
        -- an interval of zero stops the transmission
        ({ q with askedStop := Function.update q.askedStop d.src true },
          some (requestIntervalFrame d.src PGN_MAGNETIC_VARIATION 0 none none))

def observe (q : WmmQuirk F) (d : DecodedPgn F) : WmmQuirk F × Option RawFrame :=
  if d.pgn = PGN_POSITION_RAPID then (q.observePosition d 1 2, none)
  else if d.pgn = PGN_GNSS_POSITION then ((q.observePosition d 4 5).observeDate d 2, none)
  else if d.pgn = PGN_SYSTEM_TIME then (q.observeDate d 4, none)
  else if d.pgn = PGN_MAGNETIC_VARIATION then q.maybeRequestStop d
  else (q, none)

/-! ## What the quirk tells -/

/-- From the address that stands for the own node. -/
def variationMessage (db : PgnDatabase F) (wall : UInt64) (variationRad : F) (ageDays : UInt16) :
    Encoded F RawFrame := do
  let b ← db.encode magneticVariation
  let b : PgnBuilder F :=
    { b with prio := 7, src := ADDR_GLOBAL, timestamp := some (formatIsoMs wall) }
  let b ← b.push 2 ⟨"source", Eq.refl true⟩ (.int SOURCE_WMM_2025)
  let b ← b.push 5 ⟨"variation", by decide⟩ (.number variationRad)
  let b ← b.push 4 ⟨"ageOfService", by decide⟩ (.int (Int64.ofNat ageDays.toNat))
  b.build

/-- No frame where the message does not encode. -/
def buildFrame (db : PgnDatabase F) (wall : UInt64) (variationRad : F) (ageDays : UInt16) :
    Option RawFrame :=
  (variationMessage db wall variationRad ageDays).toOption

def days (q : WmmQuirk F) (wall : UInt64) : UInt16 := q.lastDays.getD (hostDays wall)

/-- A variation that cannot be computed leaves the last one. -/
def recompute (env : WmmEnv F) (q : WmmQuirk F) (now : ℕ) (wall : UInt64) (lat lon : F) :
    WmmQuirk F :=
  if q.cachedRad.isNone ∨ q.lastCompute.all (fun t => COMPUTE_INTERVAL ≤ now - t) then
    { q with
      cachedRad := (env.variationRad lat lon (dateFromDays (q.days wall))).or q.cachedRad
      lastCompute := some now }
  else q

def maybeEmit (env : WmmEnv F) (q : WmmQuirk F) (now : ℕ) (wall : UInt64) :
    WmmQuirk F × Option RawFrame :=
  match q.lastPos with
  | none => (q, none)
  | some (lat, lon) =>
      if q.lastEmit.any (fun last => now - last < EMIT_INTERVAL) then (q, none)
      else
        let q := q.recompute env now wall lat lon
        match q.cachedRad.bind fun rad => buildFrame env.db wall rad (q.days wall) with
        | none => (q, none)
        | some frame => ({ q with lastEmit := some now }, some frame)

def process (env : WmmEnv F) (q : WmmQuirk F) (d : DecodedPgn F) (now : ℕ) (wall : UInt64) :
    WmmQuirk F × List RawFrame :=
  let (q, stop) := q.observe d
  let (q, frame) := q.maybeEmit env now wall
  (q, stop.toList ++ frame.toList)

/-! ## One call -/

variable {env : WmmEnv F} {q : WmmQuirk F} {d : DecodedPgn F} {now : ℕ} {wall : UInt64}

theorem observePosition_lastEmit {latOrder lonOrder : UInt8} :
    (q.observePosition d latOrder lonOrder).lastEmit = q.lastEmit := by
  rw [observePosition]
  split
  · rfl
  · rfl

theorem observeDate_lastEmit {order : UInt8} : (q.observeDate d order).lastEmit = q.lastEmit := by
  rw [observeDate]
  split
  · split_ifs
    · rfl
    · rfl
  · rfl

/-- A source is asked to stop by a frame of the group function, only on its own variation. -/
theorem observe_spec (q : WmmQuirk F) (d : DecodedPgn F) :
    (q.observe d).1.lastEmit = q.lastEmit ∧
      ∀ f ∈ (q.observe d).2, d.pgn = PGN_MAGNETIC_VARIATION ∧ f.pgn = PGN_REQUEST_GROUP_FUNCTION := by
  rw [observe]
  split_ifs with hrapid hgnss htime hvariation
  · exact ⟨observePosition_lastEmit, nofun⟩
  · exact ⟨observeDate_lastEmit.trans observePosition_lastEmit, nofun⟩
  · exact ⟨observeDate_lastEmit, nofun⟩
  · rw [maybeRequestStop]
    split
    · exact ⟨rfl, nofun⟩
    · split_ifs
      · exact ⟨rfl, nofun⟩
      · refine ⟨rfl, ?_⟩
        intro f hf
        cases hf
        exact ⟨hvariation, rfl⟩
  · exact ⟨rfl, nofun⟩

/-- The definition of the variation in the database is the one of its PGN. -/
def DefinesVariation (db : PgnDatabase F) : Prop :=
  ∀ info, db.pgnById magneticVariation = some info → info.pgn = PGN_MAGNETIC_VARIATION

theorem buildFrame_pgn {db : PgnDatabase F} (hdb : DefinesVariation db) {rad : F} {age : UInt16}
    {f : RawFrame} (h : buildFrame db wall rad age = some f) : f.pgn = PGN_MAGNETIC_VARIATION := by
  have hmessage : variationMessage db wall rad age = .ok f := by
    rw [buildFrame] at h
    cases hm : variationMessage db wall rad age with
    | error e =>
        rw [hm] at h
        cases h
    | ok g =>
        rw [hm] at h
        cases h
        rfl
  rw [variationMessage] at hmessage
  obtain ⟨b, hb, h⟩ := encoded_bind_ok hmessage
  obtain ⟨b1, h1, h⟩ := encoded_bind_ok h
  obtain ⟨b2, h2, h⟩ := encoded_bind_ok h
  obtain ⟨b3, h3, h⟩ := encoded_bind_ok h
  have hkept := (PgnBuilder.push_kept h1).trans <|
    (PgnBuilder.push_kept h2).trans (PgnBuilder.push_kept h3)
  rw [(PgnBuilder.build_header h).1, hkept.pgn]
  exact hdb b.pgn (PgnDatabase.encode_pgn hb)

/-- A variation is sent where the last was sent an interval ago or more, and is the last then. -/
inductive Emits (q : WmmQuirk F) (now : ℕ) : WmmQuirk F × Option RawFrame → Prop
  | silent (q' : WmmQuirk F) (hlast : q'.lastEmit = q.lastEmit) : Emits q now (q', none)
  | sent (q' : WmmQuirk F) (f : RawFrame) (hlast : q'.lastEmit = some now)
      (hpgn : f.pgn = PGN_MAGNETIC_VARIATION)
      (hdue : ∀ last ∈ q.lastEmit, EMIT_INTERVAL ≤ now - last) : Emits q now (q', some f)

omit [Float64 F] in
theorem recompute_lastEmit {lat lon : F} :
    (q.recompute env now wall lat lon).lastEmit = q.lastEmit := by
  rw [recompute]
  split_ifs
  · rfl
  · rfl

theorem maybeEmit_emits (hdb : DefinesVariation env.db) : Emits q now (q.maybeEmit env now wall) := by
  rw [maybeEmit]
  split
  · exact .silent q rfl
  next lat lon _ =>
    split_ifs with hthrottled
    · exact .silent q rfl
    · dsimp only
      split
      · exact .silent _ recompute_lastEmit
      next frame hframe =>
        obtain ⟨rad, -, hbuild⟩ := Option.bind_eq_some_iff.mp hframe
        refine .sent _ frame rfl (buildFrame_pgn hdb hbuild) ?_
        intro last hlast
        rw [hlast] at hthrottled
        exact Nat.not_lt.mp fun hlt => hthrottled (decide_eq_true hlt)

end WmmQuirk

end Canboat
