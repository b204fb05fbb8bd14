import Canboat.Frame
import Canboat.Lib.IndexMap
import Canboat.Lib.LittleEndian
import Canboat.Lib.Replies

/-!
# Overrides of transmission intervals

Overrides belong to the NAME of a device, so that they follow it from address to address; clients
speak of devices by their sources. The engine keeps which NAME claimed each source last, and where
it sent the overrides of a NAME last.
-/

namespace Canboat

/-- Synthetic PGN of the control channel. -/
def PGN_PGN_OVERRIDE : UInt32 := 262658

def OV_FN_REPORT : UInt8 := 0

def PGN_REQUEST_GROUP_FUNCTION : UInt32 := 126208

/-- The source of frames of the server, to be rewritten by the device. -/
def LOCAL_SRC : UInt8 := 0

def OFFSET_DONT_CHANGE : UInt16 := 0xffff

/-- Not a proprietary PGN. -/
def MFR_NA : UInt16 := 0xffff

def IND_NA : UInt8 := 0xff

structure Override where
  /-- Zero stops the PGN. -/
  intervalMs : UInt32
  manufacturerCode : Option UInt16
  industryCode : Option UInt8
  description : Option String
deriving DecidableEq, Repr

/-- Overrides by NAME and PGN. -/
abbrev Rules : Type := IndexMap UInt64 (IndexMap UInt32 Override)

structure OverrideEngine where
  /-- The NAME that claimed a source last. -/
  srcName : UInt8 → Option UInt64
  rules : Rules
  /-- The source where the overrides of a NAME were sent last. -/
  replayed : IndexMap UInt64 UInt8

/-- Three bytes of a PGN. -/
def pgnBytes (pgn : UInt32) : List UInt8 := LittleEndian.encode 3 pgn.toNat

def requestIntervalFrame (dst : UInt8) (pgn intervalMs : UInt32) (mfr : Option UInt16)
    (industry : Option UInt8) : RawFrame where
  timestamp := none
  prio := 3
  pgn := PGN_REQUEST_GROUP_FUNCTION
  src := LOCAL_SRC
  dst := dst
  data := [0] ++ pgnBytes pgn ++ LittleEndian.encode 4 intervalMs.toNat ++
    LittleEndian.encode 2 OFFSET_DONT_CHANGE.toNat ++
    match mfr, industry with
    | some m, some i => [2, 1] ++ LittleEndian.encode 2 (m &&& 0x7ff).toNat ++ [3, i &&& 7]
    | _, _ => [0]

/-- What a frame of the control channel says. -/
structure Control where
  src : UInt8
  pgn : UInt32
  intervalMs : UInt32
  manufacturerCode : Option UInt16
  industryCode : Option UInt8
deriving DecidableEq, Repr

/-- `[fn, src, pgn (3), interval (4), mfr (2), industry]`. -/
def parseControl (data : List UInt8) : Option Control :=
  match data with
  | _ :: src :: p₀ :: p₁ :: p₂ :: i₀ :: i₁ :: i₂ :: i₃ :: m₀ :: m₁ :: industry :: _ =>
      let mfr := UInt16.ofNat (LittleEndian.decode [m₀, m₁])
      some { src
             pgn := UInt32.ofNat (LittleEndian.decode [p₀, p₁, p₂])
             intervalMs := UInt32.ofNat (LittleEndian.decode [i₀, i₁, i₂, i₃])
             manufacturerCode := if mfr ≠ MFR_NA then some mfr else none
             industryCode := if industry ≠ IND_NA then some industry else none }
  | _ => none

def reportFrame (timestamp : Option String) (src : UInt8) (pgn : UInt32) (ov : Override) :
    RawFrame where
  timestamp := timestamp
  prio := 7
  pgn := PGN_PGN_OVERRIDE
  src := LOCAL_SRC
  dst := 255
  data := [OV_FN_REPORT, src] ++ pgnBytes pgn ++ LittleEndian.encode 4 ov.intervalMs.toNat ++
    LittleEndian.encode 2 (ov.manufacturerCode.getD MFR_NA).toNat ++ [ov.industryCode.getD IND_NA]

namespace Rules

def lookup (rules : Rules) (name : UInt64) (pgn : UInt32) : Option Override :=
  (rules.get? name).bind fun pgns => pgns.get? pgn

def set (rules : Rules) (name : UInt64) (pgn : UInt32) (ov : Override) : Rules :=
  rules.upsert name fun pgns => (pgns.getD IndexMap.empty).insert pgn ov

/-- Without one override; a NAME with no more of them goes. -/
def remove (rules : Rules) (name : UInt64) (pgn : UInt32) : Rules :=
  match rules.get? name with
  | none => rules
  | some pgns =>
      let pgns := pgns.remove pgn
      if pgns.entries = [] then IndexMap.remove rules name else rules.insert name pgns

/-- All of them, with their NAMEs and PGNs. -/
def stored (rules : Rules) : List (UInt64 × UInt32 × Override) :=
  rules.entries.flatMap fun (name, pgns) => pgns.entries.map fun (pgn, ov) => (name, pgn, ov)

end Rules

/-- Sources in the order of the table. -/
def allSources : List UInt8 := (List.range 256).map UInt8.ofNat

namespace OverrideEngine

/-- A session that has seen no claims, with the overrides of the file. -/
def load (rules : Rules) : OverrideEngine where
  srcName _ := none
  rules
  replayed := IndexMap.empty

/-- The requests for all overrides of a NAME. -/
def requests (e : OverrideEngine) (src : UInt8) (name : UInt64) : List RawFrame :=
  match e.rules.get? name with
  | none => []
  | some pgns =>
      pgns.entries.map fun (pgn, ov) =>
        requestIntervalFrame src pgn ov.intervalMs ov.manufacturerCode ov.industryCode

def noteAddressClaim (e : OverrideEngine) (src : UInt8) (name : UInt64) :
    OverrideEngine × List RawFrame :=
  let e := { e with srcName := Function.update e.srcName src (some name) }
  if e.replayed.get? name = some src then (e, [])
  else ({ e with replayed := e.replayed.insert name src }, e.requests src name)

def applySetFrame (pgnDescription : UInt32 → Option String) (e : OverrideEngine)
    (data : List UInt8) : OverrideEngine × Option RawFrame :=
  match parseControl data with
  | none => (e, none)
  | some c =>
      match e.srcName c.src with
      | none => (e, none)
      | some name =>
          let ov : Override := {
            intervalMs := c.intervalMs
            manufacturerCode := c.manufacturerCode
            industryCode := c.industryCode
            description := pgnDescription c.pgn }
          ({ e with rules := e.rules.set name c.pgn ov, replayed := e.replayed.insert name c.src },
            some (requestIntervalFrame c.src c.pgn c.intervalMs c.manufacturerCode c.industryCode))

/-- Whether there was one to remove. -/
def remove (e : OverrideEngine) (name : UInt64) (pgn : UInt32) : OverrideEngine × Bool :=
  if (e.rules.lookup name pgn).isSome then ({ e with rules := e.rules.remove name pgn }, true)
  else (e, false)

def applyDeleteFrame (e : OverrideEngine) (data : List UInt8) : OverrideEngine :=
  match parseControl data with
  | none => e
  | some c =>
      match e.srcName c.src with
      | none => e
      | some name => (e.remove name c.pgn).1

def noteNak (e : OverrideEngine) (src : UInt8) (ackedPgn : UInt32) : OverrideEngine × Bool :=
  match e.srcName src with
  | none => (e, false)
  | some name => e.remove name ackedPgn

/-- The source of a NAME in the table turned around: the first. -/
def nameSrc (e : OverrideEngine) (name : UInt64) : Option UInt8 :=
  allSources.find? fun src => e.srcName src = some name

/-- The overrides of the NAMEs that have a source. -/
def rows (e : OverrideEngine) : List (UInt8 × UInt32 × Override) :=
  e.rules.entries.flatMap fun (name, pgns) =>
    match e.nameSrc name with
    | none => []
    | some src => pgns.entries.map fun (pgn, ov) => (src, pgn, ov)

def reportFrames (e : OverrideEngine) (timestamp : Option String) : List RawFrame :=
  (e.rows.mergeSort fun a b => a.1 < b.1 || (a.1 == b.1 && a.2.1 ≤ b.2.1)).map
    fun (src, pgn, ov) => reportFrame timestamp src pgn ov

end OverrideEngine

/-! ## Where a NAME is -/

/-- The claims of a session, the latest first. -/
abbrev Claims : Type := List (UInt8 × UInt64)

namespace Claims

/-- The source of the latest claim of a NAME. -/
def latestSource (claims : Claims) (name : UInt64) : Option UInt8 :=
  (claims.find? fun c => c.2 = name).map Prod.fst

/-- The NAME that claimed a source last. -/
def lastClaimer (claims : Claims) (src : UInt8) : Option UInt64 :=
  (claims.find? fun c => c.1 = src).map Prod.snd

/-- The NAME at a source: one that has not moved on, and that no other has displaced. -/
def nameAt (claims : Claims) (src : UInt8) : Option UInt64 :=
  (claims.lastClaimer src).filter fun name => claims.latestSource name = some src

def sourceOf (claims : Claims) (name : UInt64) : Option UInt8 :=
  (claims.latestSource name).filter fun src => claims.lastClaimer src = some name

end Claims

inductive OverrideOp
  | claim (src : UInt8) (name : UInt64)
  | set (data : List UInt8)
  | delete (data : List UInt8)
  | nak (src : UInt8) (pgn : UInt32)
  | report (timestamp : Option String)

/-- The engine, and the claims that it has been told of. -/
structure OverrideSession where
  engine : OverrideEngine
  claims : Claims

namespace OverrideSession

def load (rules : Rules) : OverrideSession := ⟨.load rules, []⟩

variable (pgnDescription : UInt32 → Option String)

def step (s : OverrideSession) : OverrideOp → OverrideSession
  | .claim src name => ⟨(s.engine.noteAddressClaim src name).1, (src, name) :: s.claims⟩
  | .set data => { s with engine := (s.engine.applySetFrame pgnDescription data).1 }
  | .delete data => { s with engine := s.engine.applyDeleteFrame data }
  | .nak src pgn => { s with engine := (s.engine.noteNak src pgn).1 }
  | .report _ => s

/-- The overrides and the memory of replays are the same but for one override of one NAME. -/
def Changes (e e' : OverrideEngine) (who : Option UInt64) (pgn : UInt32)
    (value : Option Override) : Prop :=
  (∀ name p, e'.rules.lookup name p =
    if who = some name ∧ p = pgn then value else e.rules.lookup name p) ∧
  ∀ name, e'.replayed.get? name = e.replayed.get? name

/-- What a control frame does is done to the NAME at its source. -/
def controlFollows (s : OverrideSession) (e' : OverrideEngine) (data : List UInt8)
    (value : Control → Option Override) : Prop :=
  match parseControl data with
  | none => e' = s.engine
  | some c => Changes s.engine e' (s.claims.nameAt c.src) c.pgn (value c)

def setOverride (c : Control) : Override where
  intervalMs := c.intervalMs
  manufacturerCode := c.manufacturerCode
  industryCode := c.industryCode
  description := pgnDescription c.pgn

/-- The reports that are due: one for each override of a NAME that has a source. -/
def dueReports (s : OverrideSession) (timestamp : Option String) : List RawFrame :=
  s.engine.rules.stored.flatMap fun (name, pgn, ov) =>
    (s.claims.sourceOf name).toList.map fun src => reportFrame timestamp src pgn ov

/-- A report gives back what is stored. -/
def ReadsBack (f : RawFrame) (src : UInt8) (ov : Override) : Prop :=
  ∃ c ∈ parseControl f.data, c.src = src ∧ c.intervalMs = ov.intervalMs ∧
    c.manufacturerCode = ov.manufacturerCode ∧ c.industryCode = ov.industryCode

/-- An operation follows the devices. -/
def Follows (s : OverrideSession) : OverrideOp → Prop
  | .claim src name =>
      (s.engine.noteAddressClaim src name).2 =
        if s.claims.latestSource name = some src then [] else s.engine.requests src name
  | .set data =>
      s.controlFollows (s.engine.applySetFrame pgnDescription data).1 data
          (fun c => some (setOverride pgnDescription c)) ∧
        ((s.engine.applySetFrame pgnDescription data).2.isSome →
          ∃ c ∈ parseControl data, (s.claims.nameAt c.src).isSome)
  | .delete data => s.controlFollows (s.engine.applyDeleteFrame data) data fun _ => none
  | .nak src pgn =>
      Changes s.engine (s.engine.noteNak src pgn).1 (s.claims.nameAt src) pgn none
  | .report timestamp =>
      (s.engine.reportFrames timestamp).Perm (s.dueReports timestamp) ∧
        ∀ name pgn ov, (name, pgn, ov) ∈ s.engine.rules.stored →
          ∀ src ∈ s.claims.sourceOf name, ReadsBack (reportFrame timestamp src pgn ov) src ov

/-- The NAME that claimed a source last has claimed no other since. -/
def Settled (claims : Claims) (src : UInt8) : Prop :=
  ∀ name ∈ claims.lastClaimer src, claims.latestSource name = some src

/-- An override that the control channel can say. -/
def Sayable (ov : Override) : Prop :=
  ov.manufacturerCode ≠ some MFR_NA ∧ ov.industryCode ≠ some IND_NA

/-- The source that an operation speaks of is settled, where there is something to change, and so
is the first source of each NAME with overrides. -/
def Clear (s : OverrideSession) : OverrideOp → Prop
  | .claim _ _ => True
  | .set data => ∀ c ∈ parseControl data, Settled s.claims c.src
  | .delete data => ∀ c ∈ parseControl data, ∀ name ∈ s.claims.lastClaimer c.src,
      (s.engine.rules.lookup name c.pgn).isSome → s.claims.latestSource name = some c.src
  | .nak src pgn => ∀ name ∈ s.claims.lastClaimer src,
      (s.engine.rules.lookup name pgn).isSome → s.claims.latestSource name = some src
  | .report _ => ∀ name pgn ov, (name, pgn, ov) ∈ s.engine.rules.stored →
      (∀ src ∈ allSources.find? fun src => s.claims.lastClaimer src = some name,
        s.claims.latestSource name = some src) ∧
      ((s.claims.sourceOf name).isSome → Sayable ov)

end OverrideSession

/-! ## Overrides as a map -/

namespace Rules

theorem lookup_set (rules : Rules) (name name' : UInt64) (pgn pgn' : UInt32) (ov : Override) :
    (rules.set name pgn ov).lookup name' pgn' =
      if name' = name ∧ pgn' = pgn then some ov else rules.lookup name' pgn' := by
  rw [lookup, set, IndexMap.get?_upsert]
  by_cases hname : name' = name
  · rw [if_pos hname, Option.bind_some, IndexMap.get?_insert]
    by_cases hpgn : pgn' = pgn
    · rw [if_pos hpgn, if_pos ⟨hname, hpgn⟩]
    · rw [if_neg hpgn, if_neg fun h => hpgn h.2, lookup, hname]
      cases rules.get? name <;> rfl
  · rw [if_neg hname, if_neg fun h => hname h.1, lookup]

theorem lookup_remove (rules : Rules) (name name' : UInt64) (pgn pgn' : UInt32) :
    (rules.remove name pgn).lookup name' pgn' =
      if name' = name ∧ pgn' = pgn then none else rules.lookup name' pgn' := by
  rw [remove]
  cases hpgns : rules.get? name with
  | none =>
      split_ifs with heq
      · rw [lookup, heq.1, hpgns, Option.bind_none]
      · rfl
  | some pgns =>
      have hother : ∀ pgn'', (rules.lookup name pgn'') = pgns.get? pgn'' := by
        intro pgn''
        rw [lookup, hpgns, Option.bind_some]
      have hremoved : (pgns.remove pgn).get? pgn' = if pgn' = pgn then none else pgns.get? pgn' :=
        IndexMap.get?_remove pgns pgn pgn'
      dsimp only
      by_cases hname : name' = name
      · rw [hname, hother]
        simp only [true_and]
        rw [← hremoved]
        split_ifs with hempty
        · have hnone : (pgns.remove pgn).get? pgn' = none := by
            rw [IndexMap.get?, hempty]
            rfl
          rw [lookup, IndexMap.get?_remove, if_pos rfl, Option.bind_none, hnone]
        · rw [lookup, IndexMap.get?_insert, if_pos rfl, Option.bind_some]
      · rw [if_neg (c := name' = name ∧ pgn' = pgn) fun h => hname h.1]
        split_ifs
        · rw [lookup, lookup, IndexMap.get?_remove, if_neg hname]
        · rw [lookup, lookup, IndexMap.get?_insert, if_neg hname]

theorem mem_stored {rules : Rules} {name : UInt64} {pgn : UInt32} {ov : Override} :
    (name, pgn, ov) ∈ rules.stored ↔ rules.lookup name pgn = some ov := by
  rw [stored, List.mem_flatMap, lookup, Option.bind_eq_some_iff]
  constructor
  · rintro ⟨⟨name', pgns⟩, hentry, hmem⟩
    obtain ⟨⟨pgn', ov'⟩, hpgn, heq⟩ := List.mem_map.mp hmem
    cases heq
    exact ⟨pgns, IndexMap.get?_eq_some.mpr hentry, IndexMap.get?_eq_some.mpr hpgn⟩
  · rintro ⟨pgns, hentry, hpgn⟩
    exact ⟨(name, pgns), IndexMap.get?_eq_some.mp hentry,
      List.mem_map.mpr ⟨(pgn, ov), IndexMap.get?_eq_some.mp hpgn, rfl⟩⟩

end Rules

/-! ## The claims so far -/

namespace Claims

@[simp] theorem latestSource_cons (claims : Claims) (src : UInt8) (name name' : UInt64) :
    latestSource ((src, name) :: claims) name' =
      if name' = name then some src else claims.latestSource name' := by
  rw [latestSource, List.find?_cons]
  by_cases h : name' = name
  · rw [if_pos h, h, decide_eq_true rfl]
    rfl
  · rw [if_neg h, decide_eq_false (Ne.symm h)]
    rfl

@[simp] theorem lastClaimer_cons (claims : Claims) (src src' : UInt8) (name : UInt64) :
    lastClaimer ((src, name) :: claims) src' =
      if src' = src then some name else claims.lastClaimer src' := by
  rw [lastClaimer, List.find?_cons]
  by_cases h : src' = src
  · rw [if_pos h, h, decide_eq_true rfl]
    rfl
  · rw [if_neg h, decide_eq_false (Ne.symm h)]
    rfl

theorem nameAt_eq_some {claims : Claims} {src : UInt8} {name : UInt64} :
    claims.nameAt src = some name ↔
      claims.lastClaimer src = some name ∧ claims.latestSource name = some src := by
  rw [nameAt, Option.filter_eq_some_iff, decide_eq_true_eq]

theorem sourceOf_eq_some {claims : Claims} {src : UInt8} {name : UInt64} :
    claims.sourceOf name = some src ↔
      claims.latestSource name = some src ∧ claims.lastClaimer src = some name := by
  rw [sourceOf, Option.filter_eq_some_iff, decide_eq_true_eq]

end Claims

/-! ## Reports -/

theorem parseControl_reportFrame (timestamp : Option String) (src : UInt8) (pgn : UInt32)
    (ov : Override) :
    parseControl (reportFrame timestamp src pgn ov).data = some {
      src
      pgn := UInt32.ofNat (pgn.toNat % 256 ^ 3)
      intervalMs := ov.intervalMs
      manufacturerCode :=
        if ov.manufacturerCode.getD MFR_NA ≠ MFR_NA then some (ov.manufacturerCode.getD MFR_NA)
        else none
      industryCode :=
        if ov.industryCode.getD IND_NA ≠ IND_NA then some (ov.industryCode.getD IND_NA)
        else none } := by
  have hpgn := LittleEndian.decode_encode_mod 3 pgn.toNat
  have hinterval := LittleEndian.decode_encode_of_lt (k := 4) ov.intervalMs.toNat_lt
  have hmfr := LittleEndian.decode_encode_of_lt (k := 2) (ov.manufacturerCode.getD MFR_NA).toNat_lt
  have hparse : parseControl (reportFrame timestamp src pgn ov).data =
      let mfr := UInt16.ofNat
        (LittleEndian.decode (LittleEndian.encode 2 (ov.manufacturerCode.getD MFR_NA).toNat))
      let industry := ov.industryCode.getD IND_NA
      some { src
             pgn := UInt32.ofNat (LittleEndian.decode (LittleEndian.encode 3 pgn.toNat))
             intervalMs :=
               UInt32.ofNat (LittleEndian.decode (LittleEndian.encode 4 ov.intervalMs.toNat))
             manufacturerCode := if mfr ≠ MFR_NA then some mfr else none
             industryCode := if industry ≠ IND_NA then some industry else none } := rfl
  rw [hparse, hpgn, hinterval, hmfr]
  simp only [UInt32.ofNat_toNat, UInt16.ofNat_toNat]

namespace OverrideSession

theorem readsBack_iff {timestamp : Option String} {src : UInt8} {pgn : UInt32} {ov : Override} :
    ReadsBack (reportFrame timestamp src pgn ov) src ov ↔ Sayable ov := by
  rw [ReadsBack, parseControl_reportFrame, Sayable]
  have hcode : ∀ {α : Type} [DecidableEq α] (o : Option α) (na : α),
      ((if o.getD na ≠ na then some (o.getD na) else none) = o) ↔ o ≠ some na := by
    intro α _ o na
    cases o with
    | none => simp
    | some a =>
        by_cases h : a = na
        · simp [h]
        · simp [h]
  simp only [Option.mem_some_iff, exists_eq_left', true_and, hcode]

/-- The rows and the reports that are due come from the same list. -/
theorem rows_eq (e : OverrideEngine) :
    e.rows = e.rules.stored.flatMap fun (name, pgn, ov) =>
      (e.nameSrc name).toList.map fun src => (src, pgn, ov) := by
  rw [OverrideEngine.rows, Rules.stored, List.flatMap_assoc]
  refine List.flatMap_congr fun entry _ => ?_
  obtain ⟨name, pgns⟩ := entry
  rw [List.flatMap_map]
  show _ = List.flatMap (fun a => (e.nameSrc name).toList.map fun src => (src, a.1, a.2)) pgns.entries
  dsimp only
  cases e.nameSrc name with
  | none => exact (List.flatMap_eq_nil_iff.mpr fun _ _ => rfl).symm
  | some src => exact List.map_eq_flatMap

theorem reportFrames_perm (e : OverrideEngine) (timestamp : Option String) :
    (e.reportFrames timestamp).Perm (e.rules.stored.flatMap fun (name, pgn, ov) =>
      (e.nameSrc name).toList.map fun src => reportFrame timestamp src pgn ov) := by
  have hsorted := (List.mergeSort_perm e.rows
    fun a b => a.1 < b.1 || (a.1 == b.1 && a.2.1 ≤ b.2.1)).map
      fun (src, pgn, ov) => reportFrame timestamp src pgn ov
  refine hsorted.trans (List.Perm.of_eq ?_)
  rw [rows_eq, List.map_flatMap]
  simp only [List.map_map]
  rfl

variable {pgnDescription : UInt32 → Option String} {s : OverrideSession}

/-! ## Following the devices -/

/-- The engine's tables are those of the claims. -/
structure Kept (s : OverrideSession) : Prop where
  claimer : ∀ src, s.engine.srcName src = s.claims.lastClaimer src
  replayed : ∀ name, s.engine.replayed.get? name = s.claims.latestSource name

theorem kept_load (rules : Rules) : Kept (load rules) := ⟨fun _ => rfl, fun _ => rfl⟩

theorem kept_claim (h : Kept s) (src : UInt8) (name : UInt64) :
    Kept (s.step pgnDescription (.claim src name)) := by
  have hclaimer : ∀ src', Function.update s.engine.srcName src (some name) src' =
      Claims.lastClaimer ((src, name) :: s.claims) src' := by
    intro src'
    rw [Function.update_apply, Claims.lastClaimer_cons, h.claimer]
  rw [step, OverrideEngine.noteAddressClaim]
  dsimp only
  split_ifs with hsame
  · refine ⟨hclaimer, fun name' => ?_⟩
    rw [Claims.latestSource_cons]
    split_ifs with hname
    · rw [hname]
      exact hsame
    · exact h.replayed name'
  · refine ⟨hclaimer, fun name' => ?_⟩
    rw [Claims.latestSource_cons, ← h.replayed]
    exact IndexMap.get?_insert ..

theorem follows_claim (h : Kept s) (src : UInt8) (name : UInt64) :
    Follows pgnDescription s (.claim src name) := by
  rw [Follows, OverrideEngine.noteAddressClaim, ← h.replayed]
  dsimp only
  split_ifs <;> rfl

/-- What the engine does with a frame that sets an override. -/
theorem applySetFrame_eq (e : OverrideEngine) {data : List UInt8} {c : Control}
    (hc : parseControl data = some c) {name : UInt64} (hname : e.srcName c.src = some name) :
    e.applySetFrame pgnDescription data =
      ({ e with
          rules := e.rules.set name c.pgn (setOverride pgnDescription c)
          replayed := e.replayed.insert name c.src },
        some (requestIntervalFrame c.src c.pgn c.intervalMs c.manufacturerCode c.industryCode)) := by
  rw [OverrideEngine.applySetFrame, hc]
  dsimp only
  rw [hname]
  rfl

theorem applySetFrame_none (e : OverrideEngine) {data : List UInt8} {c : Control}
    (hc : parseControl data = some c) (hname : e.srcName c.src = none) :
    e.applySetFrame pgnDescription data = (e, none) := by
  rw [OverrideEngine.applySetFrame, hc]
  dsimp only
  rw [hname]

theorem changes_none (e : OverrideEngine) (pgn : UInt32) (value : Option Override) :
    Changes e e none pgn value :=
  ⟨fun _ _ => (if_neg fun h => Option.some_ne_none _ h.1.symm).symm, fun _ => rfl⟩

theorem nameAt_of_settled {claims : Claims} {src : UInt8} (h : Settled claims src) :
    claims.nameAt src = claims.lastClaimer src := by
  ext name
  rw [Claims.nameAt_eq_some, and_iff_left_iff_imp]
  exact h name

theorem follows_set_iff (h : Kept s) (data : List UInt8) :
    Follows pgnDescription s (.set data) ↔ Clear s (.set data) := by
  rw [Follows, Clear, controlFollows]
  cases hc : parseControl data with
  | none =>
      rw [OverrideEngine.applySetFrame, hc]
      exact iff_of_true ⟨rfl, nofun⟩ nofun
  | some c =>
      simp only [Option.mem_some_iff, forall_eq', exists_eq_left']
      cases hname : s.engine.srcName c.src with
      | none =>
          have hlast := (h.claimer c.src).symm.trans hname
          have hsettled : Settled s.claims c.src := by
            intro name hmem
            cases hlast.symm.trans hmem
          rw [applySetFrame_none _ hc hname, nameAt_of_settled hsettled, hlast]
          exact iff_of_true ⟨changes_none .., nofun⟩ hsettled
      | some name =>
          have hlast := (h.claimer c.src).symm.trans hname
          rw [applySetFrame_eq _ hc hname]
          constructor
          · rintro ⟨-, hat⟩ name' hmem
            obtain ⟨name'', hname''⟩ := Option.isSome_iff_exists.mp (hat rfl)
            obtain ⟨hlast'', hlatest⟩ := Claims.nameAt_eq_some.mp hname''
            cases hmem.symm.trans hlast''
            exact hlatest
          · intro hsettled
            rw [nameAt_of_settled hsettled, hlast]
            refine ⟨⟨fun name' pgn' => ?_, fun name' => ?_⟩, fun _ => rfl⟩
            · dsimp only
              rw [Rules.lookup_set]
              simp only [Option.some.injEq, eq_comm]
            · dsimp only
              rw [IndexMap.get?_insert]
              split_ifs with heq
              · rw [heq, h.replayed, hsettled name hlast]
              · rfl

theorem lookup_engine_remove (e : OverrideEngine) (name name' : UInt64) (pgn pgn' : UInt32) :
    (e.remove name pgn).1.rules.lookup name' pgn' =
      if name' = name ∧ pgn' = pgn then none else e.rules.lookup name' pgn' := by
  rw [OverrideEngine.remove]
  split_ifs with hsome heq heq
  · rw [Rules.lookup_remove, if_pos heq]
  · rw [Rules.lookup_remove, if_neg heq]
  · rw [heq.1, heq.2]
    exact Option.not_isSome_iff_eq_none.mp hsome
  · rfl

theorem replayed_engine_remove (e : OverrideEngine) (name : UInt64) (pgn : UInt32) :
    (e.remove name pgn).1.replayed = e.replayed := by
  rw [OverrideEngine.remove]
  split_ifs <;> rfl

theorem changes_remove_iff (h : Kept s) {src : UInt8} {name : UInt64} (pgn : UInt32)
    (hname : s.engine.srcName src = some name) :
    Changes s.engine (s.engine.remove name pgn).1 (s.claims.nameAt src) pgn none ↔
      ((s.engine.rules.lookup name pgn).isSome → s.claims.latestSource name = some src) := by
  have hlast := (h.claimer src).symm.trans hname
  constructor
  · rintro ⟨hrules, -⟩ hsome
    have hgone := hrules name pgn
    rw [lookup_engine_remove, if_pos ⟨rfl, rfl⟩] at hgone
    by_contra hmoved
    rw [if_neg] at hgone
    · rw [← hgone] at hsome
      cases hsome
    · rintro ⟨hat, -⟩
      exact hmoved (Claims.nameAt_eq_some.mp hat).2
  · intro hlatest
    refine ⟨fun name' pgn' => ?_, fun name' => by rw [replayed_engine_remove]⟩
    rw [lookup_engine_remove]
    by_cases heq : name' = name ∧ pgn' = pgn
    · rw [if_pos heq, heq.1, heq.2]
      by_cases hsome : (s.engine.rules.lookup name pgn).isSome
      · rw [if_pos ⟨Claims.nameAt_eq_some.mpr ⟨hlast, hlatest hsome⟩, rfl⟩]
      · rw [Option.not_isSome_iff_eq_none.mp hsome, ite_self]
    · rw [if_neg heq, if_neg]
      rintro ⟨hat, rfl⟩
      cases hlast.symm.trans (Claims.nameAt_eq_some.mp hat).1
      exact heq ⟨rfl, rfl⟩

theorem nameAt_none {claims : Claims} {src : UInt8} (h : claims.lastClaimer src = none) :
    claims.nameAt src = none := by
  rw [Claims.nameAt, h, Option.filter_none]

theorem follows_delete_iff (h : Kept s) (data : List UInt8) :
    Follows pgnDescription s (.delete data) ↔ Clear s (.delete data) := by
  rw [Follows, Clear, controlFollows, OverrideEngine.applyDeleteFrame]
  cases hc : parseControl data with
  | none => exact iff_of_true rfl nofun
  | some c =>
      simp only [Option.mem_some_iff, forall_eq']
      rw [← h.claimer]
      cases hname : s.engine.srcName c.src with
      | none =>
          rw [nameAt_none ((h.claimer c.src).symm.trans hname)]
          exact iff_of_true (changes_none ..) nofun
      | some name =>
          simp only [Option.mem_some_iff, forall_eq']
          exact changes_remove_iff h c.pgn hname

theorem follows_nak_iff (h : Kept s) (src : UInt8) (pgn : UInt32) :
    Follows pgnDescription s (.nak src pgn) ↔ Clear s (.nak src pgn) := by
  rw [Follows, Clear, OverrideEngine.noteNak, ← h.claimer]
  cases hname : s.engine.srcName src with
  | none =>
      rw [nameAt_none ((h.claimer src).symm.trans hname)]
      exact iff_of_true (changes_none ..) nofun
  | some name =>
      simp only [Option.mem_some_iff, forall_eq']
      exact changes_remove_iff h pgn hname

theorem mem_allSources (src : UInt8) : src ∈ allSources :=
  List.mem_map.mpr ⟨src.toNat, List.mem_range.mpr src.toNat_lt, UInt8.ofNat_toNat⟩

theorem nameSrc_eq (h : Kept s) (name : UInt64) :
    s.engine.nameSrc name = allSources.find? fun src => s.claims.lastClaimer src = some name := by
  rw [OverrideEngine.nameSrc]
  simp only [h.claimer]

theorem lastClaimer_first {claims : Claims} {name : UInt64} {src : UInt8}
    (h : (allSources.find? fun src => claims.lastClaimer src = some name) = some src) :
    claims.lastClaimer src = some name := by
  simpa using List.find?_some h

/-- A NAME whose first source is the one of its latest claim is there. -/
theorem sourceOf_eq (h : Kept s) {name : UInt64}
    (hfirst : ∀ src ∈ s.engine.nameSrc name, s.claims.latestSource name = some src) :
    s.engine.nameSrc name = s.claims.sourceOf name := by
  rw [nameSrc_eq h] at hfirst ⊢
  cases hfind : allSources.find? fun src => s.claims.lastClaimer src = some name with
  | some src =>
      have hlast := lastClaimer_first hfind
      exact (Claims.sourceOf_eq_some.mpr ⟨hfirst src hfind, hlast⟩).symm
  | none =>
      symm
      rw [Option.eq_none_iff_forall_ne_some]
      intro src hsource
      have hlast := (Claims.sourceOf_eq_some.mp hsource).2
      exact absurd (decide_eq_true hlast) (List.find?_eq_none.mp hfind src (mem_allSources src))

theorem follows_report_iff (h : Kept s) (timestamp : Option String) :
    Follows pgnDescription s (.report timestamp) ↔ Clear s (.report timestamp) := by
  rw [Follows, Clear]
  simp only [readsBack_iff]
  constructor
  · rintro ⟨hperm, hread⟩ name pgn ov hstored
    refine ⟨fun src hfirst => ?_, fun hsource => ?_⟩
    · rw [← nameSrc_eq h] at hfirst
      -- The report at the first source is one of those that are due.
      have hmem : reportFrame timestamp src pgn ov ∈ s.dueReports timestamp := by
        rw [← hperm.mem_iff, (reportFrames_perm s.engine timestamp).mem_iff, List.mem_flatMap]
        exact ⟨(name, pgn, ov), hstored,
          List.mem_map.mpr ⟨src, Option.mem_toList.mpr hfirst, rfl⟩⟩
      rw [dueReports, List.mem_flatMap] at hmem
      obtain ⟨⟨name', pgn', ov'⟩, -, hmem⟩ := hmem
      obtain ⟨src', hsrc', heq⟩ := List.mem_map.mp hmem
      have hdata := congrArg (fun f => f.data[1]?) heq
      cases hdata
      obtain ⟨hlatest, hlast⟩ := Claims.sourceOf_eq_some.mp (Option.mem_toList.mp hsrc')
      rw [nameSrc_eq h] at hfirst
      have hlast' := lastClaimer_first hfirst
      cases hlast.symm.trans hlast'
      exact hlatest
    · obtain ⟨src, hsrc⟩ := Option.isSome_iff_exists.mp hsource
      exact hread name pgn ov hstored src hsrc
  · intro hclear
    constructor
    · refine (reportFrames_perm s.engine timestamp).trans (List.Perm.of_eq ?_)
      refine List.flatMap_congr fun entry hentry => ?_
      obtain ⟨name, pgn, ov⟩ := entry
      dsimp only
      rw [sourceOf_eq h]
      rw [nameSrc_eq h]
      exact (hclear name pgn ov hentry).1
    · intro name pgn ov hstored src hsrc
      exact (hclear name pgn ov hstored).2 (Option.isSome_iff_exists.mpr ⟨src, hsrc⟩)

theorem follows_iff (h : Kept s) (op : OverrideOp) : Follows pgnDescription s op ↔ Clear s op := by
  cases op with
  | claim src name => exact iff_of_true (follows_claim h src name) trivial
  | set data => exact follows_set_iff h data
  | delete data => exact follows_delete_iff h data
  | nak src pgn => exact follows_nak_iff h src pgn
  | report timestamp => exact follows_report_iff h timestamp

theorem kept_remove (h : Kept s) (name : UInt64) (pgn : UInt32) :
    Kept { s with engine := (s.engine.remove name pgn).1 } := by
  have hclaimer : (s.engine.remove name pgn).1.srcName = s.engine.srcName := by
    rw [OverrideEngine.remove]
    split_ifs <;> rfl
  refine ⟨fun src => ?_, fun name' => ?_⟩
  · rw [hclaimer]
    exact h.claimer src
  · rw [replayed_engine_remove]
    exact h.replayed name'

/-- The step lemma. -/
theorem kept_step (h : Kept s) (op : OverrideOp) (hclear : Clear s op) :
    Kept (s.step pgnDescription op) := by
  cases op with
  | claim src name => exact kept_claim h src name
  | set data =>
      rw [step]
      cases hc : parseControl data with
      | none =>
          rw [OverrideEngine.applySetFrame, hc]
          exact h
      | some c =>
          cases hname : s.engine.srcName c.src with
          | none =>
              rw [applySetFrame_none _ hc hname]
              exact h
          | some name =>
              have hlatest := hclear c hc name ((h.claimer c.src).symm.trans hname)
              rw [applySetFrame_eq _ hc hname]
              refine ⟨h.claimer, fun name' => (IndexMap.get?_insert ..).trans ?_⟩
              split_ifs with heq
              · rw [heq, hlatest]
              · exact h.replayed name'
  | delete data =>
      rw [step, OverrideEngine.applyDeleteFrame]
      cases parseControl data with
      | none => exact h
      | some c =>
          dsimp only
          cases s.engine.srcName c.src with
          | none => exact h
          | some name => exact kept_remove h name c.pgn
  | nak src pgn =>
      rw [step, OverrideEngine.noteNak]
      cases s.engine.srcName src with
      | none => exact h
      | some name => exact kept_remove h name pgn
  | report timestamp => exact h

/-- Overrides follow the devices in the runs of which each operation is clear, and in no other:
it speaks of a source whose last claimer has not moved on. -/
theorem overrides_follow_iff (pgnDescription : UInt32 → Option String) (rules : Rules)
    (ops : List OverrideOp) :
    Along (step pgnDescription) (Follows pgnDescription) (load rules) ops ↔
      Along (step pgnDescription) Clear (load rules) ops :=
  Along.iff_of_step (fun _ op h => follows_iff h op) (fun _ op h hclear => kept_step h op hclear)
    (kept_load rules)

/-- A device with an override moves from source 9 to source 20. -/
def moved : List OverrideOp :=
  [.claim 9 0x0004000010667913, .set [1, 9, 0x1a, 0xf1, 1, 0, 0, 0, 0, 0xff, 0xff, 0xff],
    .claim 20 0x0004000010667913]

/-- Its override is then reported at source 9. -/
theorem not_overrides_follow :
    ¬Along (step fun _ => none) (Follows fun _ => none) (load IndexMap.empty)
      (moved ++ [.report none]) := by
  intro h
  have hreport := (h moved (.report none) [] rfl).1
  revert hreport
  decide +kernel

end OverrideSession

end Canboat
