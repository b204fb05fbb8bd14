import Canboat.Tui.State
import Mathlib.Data.List.Infix

/-!
# Devices and their addresses

A device is known by its NAME and lives at an address. What the cache holds of a NAME comes from
records of that device. The device list also reads the latest records from the address, and these
stay when another device claims it.
-/

namespace Canboat.Tui

open Json

/-- Calls of `upsert`, the latest first. -/
abbrev History (F : Type) := List (Arrival F)

variable {F : Type} (env : Env F) (cache : NameKey → Option CachedInfo)

def stateAfter : History F → AppState F
  | [] => .new cache
  | a :: h => (stateAfter h).upsert env a

/-- The line in its bare form. -/
def Arrival.record (a : Arrival F) : Value F := normalizeCamel env.db a.line

/-- What is kept of a record. -/
def Arrival.entry (a : Arrival F) : Entry F where
  description :=
    (((a.record env).pointer ["description"]).bind Json.Tree.asStr).getD a.description
  line := a.record env

def Arrival.key (a : Arrival F) : CacheKey := ⟨a.pgn, a.src, a.secondary⟩

/-- What the cache takes from a record. -/
def Arrival.info (a : Arrival F) : CachedInfo :=
  if a.pgn = 60928 then claimInfo (a.record env)
  else if a.pgn = 126996 then productInfo env (a.record env)
  else if a.pgn = 126998 then configInfo env (a.record env)
  else {}

namespace History

/-- The key in the latest claim from a source. -/
def claimer (h : History F) (src : UInt8) : Option NameKey :=
  (h.find? fun a => a.pgn = 60928 ∧ a.src = src).bind fun a => nameKeyFromClaim (a.record env)

/-- The device that sent a record: the one a claim names, or else the one at the source. -/
def sender (h : History F) (a : Arrival F) : Option NameKey :=
  if a.pgn = 60928 then nameKeyFromClaim (a.record env) else claimer env h a.src

def recordsOf (k : NameKey) : History F → List (Arrival F)
  | [] => []
  | a :: h => if sender env h a = some k then a :: recordsOf k h else recordsOf k h

/-- Each information record was sent by a device that had claimed the source. -/
def Attributed : History F → Prop
  | [] => True
  | a :: h => (a.pgn = 126996 ∨ a.pgn = 126998 → (claimer env h a.src).isSome) ∧ Attributed h

/-- The latest text of a device that is not blank. -/
def latestText (h : History F) (k : NameKey) (field : TextField) : Option String :=
  (recordsOf env k h).findSome? fun a => ((a.info env).text field).filter fun s => !isBlankText s

/-- The cache holds the latest texts, over those it began with. -/
def Cached (h : History F) : Prop :=
  ∀ k field, ((stateAfter env cache h).deviceCache k).bind (·.text field) =
    (latestText env h k field).or ((cache k).bind (·.text field))

end History

/-! ## Texts of the device list -/

inductive Shown
  | manufacturer
  | model
  | software
  | installation

namespace Shown

def of (dev : DeviceInfo) : Shown → String
  | .manufacturer => dev.manufacturer
  | .model => dev.model
  | .software => dev.software
  | .installation => dev.installation

def field : Shown → TextField
  | .manufacturer => .manufacturerName
  | .model => .modelId
  | .software => .softwareVersion
  | .installation => .installationDescription1

/-- The text in a record with that PGN. -/
def read (pgn : UInt32) (line : Value F) : Shown → Option String
  | .manufacturer => if pgn = 60928 then fieldText env.display line "Manufacturer Code" else none
  | .model => if pgn = 126996 then fieldText env.display line "Model ID" else none
  | .software => if pgn = 126996 then fieldText env.display line "Software Version Code" else none
  | .installation =>
      if pgn = 126998 then fieldText env.display line "Installation Description #1" else none

end Shown

def Arrival.Carries (a : Arrival F) (shown : Shown) (text : String) : Prop :=
  shown.read env a.pgn (a.record env) = some text ∨ (a.info env).text shown.field = some text

namespace History

/-- A text of the device: one that a record of it carried, or that the cache began with. -/
def Known (h : History F) (k : NameKey) (shown : Shown) (text : String) : Prop :=
  (∃ a ∈ recordsOf env k h, a.Carries env shown text) ∨
    (cache k).bind (·.text shown.field) = some text

/-- The list shows no text at an address but those of the device that claimed it last. -/
def ShowsOwn (h : History F) : Prop :=
  ∀ dev ∈ (stateAfter env cache h).deviceList env, ∀ k ∈ claimer env h dev.src,
    ∀ shown : Shown, shown.of dev = "" ∨ Known env cache h k shown (shown.of dev)

/-- A claim finds no text of another device in the entries of its source, other than the entry
that it replaces. -/
def Vacant (h : History F) (a : Arrival F) : Prop :=
  a.pgn = 60928 → ∀ k ∈ nameKeyFromClaim (a.record env),
    ∀ e ∈ (stateAfter env cache h).entriesOf a.src, e.1 ≠ ⟨60928, a.src, a.secondary⟩ →
      ∀ (shown : Shown) (text : String), shown.read env e.1.pgn e.2.line = some text →
        text = "" ∨ Known env cache (a :: h) k shown text

def AllVacant : History F → Prop
  | [] => True
  | a :: h => Vacant env cache h a ∧ AllVacant h

end History

/-! ## A step -/

namespace AppState

variable (s : AppState F) (a : Arrival F)

/-- The device whose cached texts a record changes. -/
def owner : Option NameKey :=
  if a.pgn = 60928 then nameKeyFromClaim (a.record env)
  else if a.pgn = 126996 ∨ a.pgn = 126998 then s.srcToName a.src
  else none

@[simp] theorem countMessage_deviceCache : s.countMessage.deviceCache = s.deviceCache := rfl

@[simp] theorem countMessage_srcToName : s.countMessage.srcToName = s.srcToName := rfl

@[simp] theorem countMessage_entries : s.countMessage.entries = s.entries := rfl

theorem observeForCache_deviceCache :
    (s.observeForCache env a.pgn a.src (a.record env)).deviceCache =
      match s.owner env a with
      | none => s.deviceCache
      | some k => Function.update s.deviceCache k
          (some (((s.deviceCache k).getD {}).mergeFrom (a.info env))) := by
  rw [observeForCache, owner, Arrival.info]
  by_cases hclaim : a.pgn = 60928
  · simp only [hclaim, if_true]
    cases nameKeyFromClaim (a.record env) <;> rfl
  · by_cases hproduct : a.pgn = 126996
    · simp only [hproduct, true_or, if_true]
      cases s.srcToName a.src <;> rfl
    · by_cases hconfig : a.pgn = 126998
      · simp only [hconfig, or_true, if_true]
        cases s.srcToName a.src <;> rfl
      · simp [hclaim, hproduct, hconfig]

theorem observeForCache_srcToName :
    (s.observeForCache env a.pgn a.src (a.record env)).srcToName =
      match (if a.pgn = 60928 then nameKeyFromClaim (a.record env) else none) with
      | none => s.srcToName
      | some k => Function.update s.srcToName a.src (some k) := by
  rw [observeForCache]
  by_cases hclaim : a.pgn = 60928
  · simp only [hclaim, if_true]
    cases nameKeyFromClaim (a.record env) <;> rfl
  · simp only [hclaim, if_false]
    split_ifs
    · cases s.srcToName a.src <;> rfl
    · cases s.srcToName a.src <;> rfl
    · rfl

theorem observeForCache_entries (pgn : UInt32) (src : UInt8) (line : Value F) :
    (s.observeForCache env pgn src line).entries = s.entries := by
  rw [observeForCache]
  split_ifs
  · cases nameKeyFromClaim line <;> rfl
  · cases s.srcToName src <;> rfl
  · cases s.srcToName src <;> rfl
  · rfl

/-- A report changes the views of the control channels alone. -/
theorem applyNmea0183Report_rest (line : Value F) :
    (s.applyNmea0183Report env line).entries = s.entries ∧
      (s.applyNmea0183Report env line).deviceCache = s.deviceCache ∧
      (s.applyNmea0183Report env line).srcToName = s.srcToName := by
  rw [applyNmea0183Report]
  split_ifs
  · exact ⟨rfl, rfl, rfl⟩
  · split <;> exact ⟨rfl, rfl, rfl⟩

theorem applyOverrideReport_rest (line : Value F) (now : ℕ) :
    (s.applyOverrideReport env line now).entries = s.entries ∧
      (s.applyOverrideReport env line now).deviceCache = s.deviceCache ∧
      (s.applyOverrideReport env line now).srcToName = s.srcToName := by
  rw [applyOverrideReport]
  split_ifs
  · exact ⟨rfl, rfl, rfl⟩
  · split <;> exact ⟨rfl, rfl, rfl⟩

def IsControl (pgn : UInt32) : Prop := pgn = PGN_NMEA0183_FILTER ∨ pgn = PGN_PGN_OVERRIDE

instance : DecidablePred IsControl := fun pgn => by
  unfold IsControl
  infer_instance

theorem upsert_control (h : IsControl a.pgn) :
    (s.upsert env a).entries = s.entries ∧ (s.upsert env a).deviceCache = s.deviceCache ∧
      (s.upsert env a).srcToName = s.srcToName := by
  rw [upsert]
  by_cases hfilter : a.pgn = PGN_NMEA0183_FILTER
  · rw [if_pos hfilter]
    exact s.applyNmea0183Report_rest env (normalizeCamel env.db a.line)
  · rw [if_neg hfilter, if_pos (h.resolve_left hfilter)]
    exact s.applyOverrideReport_rest env (normalizeCamel env.db a.line) a.now

theorem upsert_other (h : ¬IsControl a.pgn) :
    s.upsert env a =
      ({ s with entries := s.entries.insert a.key (a.entry env) }.observeForCache
        env a.pgn a.src (a.record env)).countMessage := by
  rw [IsControl, not_or] at h
  rw [upsert, if_neg h.1, if_neg h.2]
  rfl

theorem owner_control (h : IsControl a.pgn) : s.owner env a = none := by
  rcases h with h | h <;> rw [owner, h] <;> rfl

theorem upsert_deviceCache :
    (s.upsert env a).deviceCache =
      match s.owner env a with
      | none => s.deviceCache
      | some k => Function.update s.deviceCache k
          (some (((s.deviceCache k).getD {}).mergeFrom (a.info env))) := by
  by_cases h : IsControl a.pgn
  · rw [(s.upsert_control env a h).2.1, s.owner_control env a h]
  · rw [s.upsert_other env a h, countMessage_deviceCache, observeForCache_deviceCache]
    rfl

theorem upsert_srcToName :
    (s.upsert env a).srcToName =
      match (if a.pgn = 60928 then nameKeyFromClaim (a.record env) else none) with
      | none => s.srcToName
      | some k => Function.update s.srcToName a.src (some k) := by
  by_cases h : IsControl a.pgn
  · rw [(s.upsert_control env a h).2.2, if_neg]
    rintro hclaim
    rw [hclaim] at h
    exact absurd h (by decide)
  · rw [s.upsert_other env a h, countMessage_srcToName, observeForCache_srcToName]

/-- An entry is the one written, or it was there before under another key. -/
theorem mem_upsert_entries {e : CacheKey × Entry F} (h : e ∈ (s.upsert env a).entries.entries) :
    e = (a.key, a.entry env) ∨
      e ∈ s.entries.entries ∧ (IsControl a.pgn ∨ e.1 ≠ a.key) := by
  by_cases hcontrol : IsControl a.pgn
  · rw [(s.upsert_control env a hcontrol).1] at h
    exact Or.inr ⟨h, Or.inl hcontrol⟩
  · rw [s.upsert_other env a hcontrol, countMessage_entries, observeForCache_entries] at h
    rcases IndexMap.mem_insert.mp h with ⟨hkey, hentry⟩ | ⟨hkey, hmem⟩
    · exact Or.inl (Prod.ext hkey hentry)
    · exact Or.inr ⟨hmem, Or.inr hkey⟩

end AppState

/-! ## The list -/

namespace DeviceInfo

/-- After a record, a text is as it was or the record's. -/
theorem of_fill (dev : DeviceInfo) (pgn : UInt32) (line : Value F) (shown : Shown) :
    shown.of (dev.fill env pgn line) = shown.of dev ∨
      shown.read env pgn line = some (shown.of (dev.fill env pgn line)) := by
  rw [fill]
  by_cases hclaim : pgn = 60928
  · rw [if_pos hclaim, fillFromClaim]
    split_ifs
    · cases shown <;> simp [Shown.of, Shown.read, hclaim]
      cases fieldText env.display line "Manufacturer Code" <;> simp
    · exact Or.inl rfl
  · by_cases hproduct : pgn = 126996
    · rw [if_neg hclaim, if_pos hproduct, fillFromProductInfo]
      cases shown <;> simp [Shown.of, Shown.read, hproduct]
      · cases fieldText env.display line "Model ID" <;> simp
      · cases fieldText env.display line "Software Version Code" <;> simp
    · by_cases hconfig : pgn = 126998
      · rw [if_neg hclaim, if_neg hproduct, if_pos hconfig, fillFromConfigInfo]
        cases shown <;> simp [Shown.of, Shown.read, hconfig]
        cases fieldText env.display line "Installation Description #1" <;> simp
      · rw [if_neg hclaim, if_neg hproduct, if_neg hconfig]
        exact Or.inl rfl

theorem of_foldl_fill (es : List (CacheKey × Entry F)) (dev : DeviceInfo) (shown : Shown) :
    let dev' := es.foldl (fun (dev : DeviceInfo) e => dev.fill env e.1.pgn e.2.line) dev
    shown.of dev' = shown.of dev ∨
      ∃ e ∈ es, shown.read env e.1.pgn e.2.line = some (shown.of dev') := by
  induction es generalizing dev with
  | nil => exact Or.inl rfl
  | cons e es ih =>
      rcases ih (dev.fill env e.1.pgn e.2.line) with hsame | ⟨e', he', hread⟩
      · rcases dev.of_fill env e.1.pgn e.2.line shown with hold | hread
        · exact Or.inl (hsame.trans hold)
        · refine Or.inr ⟨e, List.mem_cons_self, ?_⟩
          rw [hread]
          exact congrArg some hsame.symm
      · exact Or.inr ⟨e', List.mem_cons_of_mem e he', hread⟩

theorem of_enrich (dev : DeviceInfo) (cached : CachedInfo) (shown : Shown) :
    shown.of (dev.enrich cached) =
      if shown.of dev = "" then (cached.text shown.field).getD "" else shown.of dev := by
  cases shown <;> simp only [Shown.of, enrich, backfill, Shown.field, CachedInfo.text] <;>
    split_ifs with h <;> simp [h]

end DeviceInfo

/-- A text of the list is empty, or an entry of the source or the cache has it. -/
theorem AppState.of_deviceAt (s : AppState F) (src : UInt8) (shown : Shown) :
    shown.of (s.deviceAt env src) = "" ∨
      (∃ e ∈ s.entriesOf src,
        shown.read env e.1.pgn e.2.line = some (shown.of (s.deviceAt env src))) ∨
      ((s.srcToName src).bind s.deviceCache).bind (·.text shown.field) =
        some (shown.of (s.deviceAt env src)) := by
  have hseen : shown.of (s.seenDevice env src) = "" ∨ ∃ e ∈ s.entriesOf src,
      shown.read env e.1.pgn e.2.line = some (shown.of (s.seenDevice env src)) := by
    have hcount : shown.of (s.seenDevice env src) = shown.of ((s.entriesOf src).foldl
        (fun (dev : DeviceInfo) e => dev.fill env e.1.pgn e.2.line) { src }) := by
      cases shown <;> rfl
    rw [hcount]
    refine (DeviceInfo.of_foldl_fill env (s.entriesOf src) { src } shown).imp_left fun h => ?_
    rw [h]
    cases shown <;> rfl
  rw [deviceAt]
  cases hcached : (s.srcToName src).bind s.deviceCache with
  | none =>
      simp only
      exact hseen.imp_right Or.inl
  | some cached =>
      simp only [DeviceInfo.of_enrich, Option.bind_some]
      split_ifs with hempty
      · cases htext : cached.text shown.field with
        | none => exact Or.inl rfl
        | some t => exact Or.inr (Or.inr rfl)
      · exact hseen.imp_right Or.inl

theorem AppState.deviceAt_src (s : AppState F) (src : UInt8) : (s.deviceAt env src).src = src := by
  have hfill : ∀ (es : List (CacheKey × Entry F)) (dev : DeviceInfo),
      (es.foldl (fun (dev : DeviceInfo) e => dev.fill env e.1.pgn e.2.line) dev).src = dev.src := by
    intro es
    induction es with
    | nil => exact fun _ => rfl
    | cons e es ih =>
        intro dev
        rw [List.foldl_cons, ih, DeviceInfo.fill]
        split_ifs
        · rw [DeviceInfo.fillFromClaim]
          split_ifs <;> rfl
        all_goals rfl
  have hseen : (s.seenDevice env src).src = src := hfill (s.entriesOf src) { src }
  rw [deviceAt]
  cases (s.srcToName src).bind s.deviceCache with
  | none => exact hseen
  | some cached => exact hseen

/-! ## Runs -/

namespace History

variable {h : History F} {a : Arrival F}

theorem claimer_cons (src : UInt8) :
    claimer env (a :: h) src =
      if a.pgn = 60928 ∧ a.src = src then nameKeyFromClaim (a.record env)
      else claimer env h src := by
  rw [claimer, List.find?_cons]
  by_cases hc : a.pgn = 60928 ∧ a.src = src
  · simp [hc]
  · rw [decide_eq_false hc, if_neg hc]
    rfl

theorem Known.cons {k : NameKey} {shown : Shown} {text : String}
    (hk : Known env cache h k shown text) (a : Arrival F) :
    Known env cache (a :: h) k shown text := by
  refine hk.imp_left ?_
  rintro ⟨b, hb, hcarries⟩
  refine ⟨b, ?_, hcarries⟩
  rw [recordsOf]
  split_ifs
  · exact List.mem_cons_of_mem a hb
  · exact hb

theorem known_own {k : NameKey} (hs : sender env h a = some k) {shown : Shown} {text : String}
    (hcarries : a.Carries env shown text) : Known env cache (a :: h) k shown text := by
  refine Or.inl ⟨a, ?_, hcarries⟩
  rw [recordsOf, if_pos hs]
  exact List.mem_cons_self

/-- The device that claimed a source last is the one that the state has there. -/
def Named (h : History F) : Prop :=
  ∀ src, ∀ k ∈ claimer env h src, (stateAfter env cache h).srcToName src = some k

theorem named_step (hn : Named env cache h) (a : Arrival F) : Named env cache (a :: h) := by
  intro src k hk
  rw [claimer_cons] at hk
  change ((stateAfter env cache h).upsert env a).srcToName src = some k
  rw [AppState.upsert_srcToName]
  by_cases hclaim : a.pgn = 60928
  · rw [if_pos hclaim]
    by_cases hsrc : a.src = src
    · rw [if_pos ⟨hclaim, hsrc⟩] at hk
      rw [Option.mem_def.mp hk, hsrc]
      exact Function.update_self ..
    · rw [if_neg fun hc => hsrc hc.2] at hk
      cases nameKeyFromClaim (a.record env) with
      | none => exact hn src k hk
      | some k' => exact (Function.update_of_ne (Ne.symm hsrc) _ _).trans (hn src k hk)
  · rw [if_neg fun hc => hclaim hc.1] at hk
    rw [if_neg hclaim]
    exact hn src k hk

/-- The cache changes for the sender of a record, or the record has nothing for it. -/
theorem owner_spec (hn : Named env cache h)
    (hattr : a.pgn = 126996 ∨ a.pgn = 126998 → (claimer env h a.src).isSome) :
    (∃ k, (stateAfter env cache h).owner env a = some k ∧ sender env h a = some k) ∨
      (stateAfter env cache h).owner env a = none ∧
        (sender env h a = none ∨ a.info env = {}) := by
  rw [AppState.owner, sender]
  by_cases hclaim : a.pgn = 60928
  · rw [if_pos hclaim, if_pos hclaim]
    cases nameKeyFromClaim (a.record env) with
    | none => exact Or.inr ⟨rfl, Or.inl rfl⟩
    | some k => exact Or.inl ⟨k, rfl, rfl⟩
  · rw [if_neg hclaim, if_neg hclaim]
    by_cases hinfo : a.pgn = 126996 ∨ a.pgn = 126998
    · rw [if_pos hinfo]
      obtain ⟨k, hk⟩ := Option.isSome_iff_exists.mp (hattr hinfo)
      exact Or.inl ⟨k, hn a.src k hk, hk⟩
    · rw [if_neg hinfo]
      rw [not_or] at hinfo
      refine Or.inr ⟨rfl, Or.inr ?_⟩
      rw [Arrival.info, if_neg hclaim, if_neg hinfo.1, if_neg hinfo.2]

theorem latestText_cons (k : NameKey) (field : TextField) :
    latestText env (a :: h) k field =
      if sender env h a = some k then
        (((a.info env).text field).filter fun s => !isBlankText s).or (latestText env h k field)
      else latestText env h k field := by
  rw [latestText, recordsOf]
  split_ifs
  · rw [List.findSome?_cons]
    cases ((a.info env).text field).filter fun s => !isBlankText s <;> rfl
  · rfl

theorem cached_step (hn : Named env cache h) (hc : Cached env cache h)
    (hattr : a.pgn = 126996 ∨ a.pgn = 126998 → (claimer env h a.src).isSome) :
    Cached env cache (a :: h) := by
  intro k field
  change (((stateAfter env cache h).upsert env a).deviceCache k).bind (·.text field) = _
  rw [AppState.upsert_deviceCache, latestText_cons]
  rcases owner_spec env cache hn hattr with ⟨k', howner, hsender⟩ | ⟨howner, hnone⟩
  · rw [howner, hsender]
    by_cases hk : k' = k
    · -- a record of this device: its texts are merged over the ones held
      have hold : (((stateAfter env cache h).deviceCache k).getD {}).text field =
          ((stateAfter env cache h).deviceCache k).bind (·.text field) := by
        cases (stateAfter env cache h).deviceCache k with
        | none => exact CachedInfo.text_default field
        | some info => rfl
      rw [if_pos (congrArg some hk), hk]
      simp only [Function.update_self, Option.bind_some, CachedInfo.text_mergeFrom]
      rw [takeStr, hold, hc k field, Option.or_assoc]
    · rw [if_neg fun heq => hk (Option.some.inj heq)]
      simp only [Function.update_of_ne (Ne.symm hk)]
      exact hc k field
  · rw [howner]
    rcases hnone with hnone | hempty
    · rw [hnone, if_neg (Option.some_ne_none k).symm]
      exact hc k field
    · rw [hempty, CachedInfo.text_default, Option.filter_none, Option.none_or, ite_self]
      exact hc k field

/-- What the entries of a claimed source show is known of the device that claimed it. -/
def EntriesOwn (h : History F) : Prop :=
  ∀ src, ∀ k ∈ claimer env h src, ∀ e ∈ (stateAfter env cache h).entriesOf src,
    ∀ (shown : Shown) (text : String), shown.read env e.1.pgn e.2.line = some text →
      text = "" ∨ Known env cache h k shown text

theorem sender_of_claimer {k : NameKey} (hk : k ∈ claimer env (a :: h) a.src) :
    sender env h a = some k := by
  rw [claimer_cons] at hk
  rw [sender]
  by_cases hclaim : a.pgn = 60928
  · rw [if_pos ⟨hclaim, rfl⟩] at hk
    rw [if_pos hclaim]
    exact hk
  · rw [if_neg fun hc => hclaim hc.1] at hk
    rw [if_neg hclaim]
    exact hk

theorem entriesOwn_step (ho : EntriesOwn env cache h) (hv : Vacant env cache h a) :
    EntriesOwn env cache (a :: h) := by
  intro src k hk e he shown text hread
  obtain ⟨hmem, hsrc⟩ := List.mem_filter.mp he
  have hsrc : e.1.src = src := of_decide_eq_true hsrc
  rcases (stateAfter env cache h).mem_upsert_entries env a hmem with rfl | ⟨hold, hkey⟩
  · subst hsrc
    exact Or.inr (known_own env cache (sender_of_claimer env hk) (Or.inl hread))
  · have he : e ∈ (stateAfter env cache h).entriesOf src :=
      List.mem_filter.mpr ⟨hold, decide_eq_true hsrc⟩
    rw [claimer_cons] at hk
    by_cases hclaim : a.pgn = 60928 ∧ a.src = src
    · -- the device may be another than before: the source is vacant
      rw [if_pos hclaim] at hk
      rw [← hclaim.2] at he
      refine hv hclaim.1 k hk e he ?_ shown text hread
      rcases hkey with hcontrol | hkey
      · rw [hclaim.1] at hcontrol
        exact absurd hcontrol (by decide)
      · rw [Arrival.key, hclaim.1] at hkey
        exact hkey
    · rw [if_neg hclaim] at hk
      exact (ho src k hk e he shown text hread).imp_right fun hknown => hknown.cons env cache a

theorem named_run (h : History F) : Named env cache h := by
  induction h with
  | nil => exact fun _ _ hk => nomatch hk
  | cons a h ih => exact named_step env cache ih a

theorem cached_run (hattr : Attributed env h) : Cached env cache h := by
  induction h with
  | nil => exact fun _ _ => rfl
  | cons a h ih => exact cached_step env cache (named_run env cache h) (ih hattr.2) hattr.1

theorem entriesOwn_run (hv : AllVacant env cache h) : EntriesOwn env cache h := by
  induction h with
  | nil => exact fun _ _ hk => nomatch hk
  | cons a h ih => exact entriesOwn_step env cache (ih hv.2) hv.1

theorem showsOwn (hattr : Attributed env h) (hv : AllVacant env cache h) :
    ShowsOwn env cache h := by
  intro dev hdev k hk shown
  obtain ⟨src, -, rfl⟩ := List.mem_map.mp hdev
  rw [AppState.deviceAt_src] at hk
  rcases (stateAfter env cache h).of_deviceAt env src shown with
    hempty | ⟨e, he, hread⟩ | hcached
  · exact Or.inl hempty
  · exact entriesOwn_run env cache hv src k hk e he shown _ hread
  · rw [named_run env cache h src k hk, Option.bind_some, cached_run env cache hattr] at hcached
    rcases Option.or_eq_some_iff.mp hcached with hlatest | ⟨-, hinitial⟩
    · obtain ⟨a, ha, htext⟩ := List.exists_of_findSome?_eq_some hlatest
      exact Or.inr (Or.inl ⟨a, ha, Or.inr (Option.filter_eq_some_iff.mp htext).1⟩)
    · exact Or.inr (Or.inr hinitial)

theorem Attributed.suffix {h' : History F} (hattr : Attributed env h) (hs : h' <:+ h) :
    Attributed env h' := by
  induction h with
  | nil => rwa [List.suffix_nil.mp hs]
  | cons a h ih =>
      rcases List.suffix_cons_iff.mp hs with rfl | hs
      · exact hattr
      · exact ih hattr.2 hs

theorem AllVacant.suffix {h' : History F} (hv : AllVacant env cache h) (hs : h' <:+ h) :
    AllVacant env cache h' := by
  induction h with
  | nil => rwa [List.suffix_nil.mp hs]
  | cons a h ih =>
      rcases List.suffix_cons_iff.mp hs with rfl | hs
      · exact hv
      · exact ih hv.2 hs

/-- The cache follows the devices; the list does while no device claims an address with texts of
another left in its entries. -/
theorem devices_followed (hattr : Attributed env h) :
    (∀ h', h' <:+ h → Cached env cache h') ∧
      (AllVacant env cache h → ∀ h', h' <:+ h → ShowsOwn env cache h') :=
  ⟨fun _ hs => cached_run env cache (hattr.suffix env hs),
    fun hv _ hs => showsOwn env cache (hattr.suffix env hs) (hv.suffix env cache hs)⟩

end History

/-! ## An address used twice -/

theorem claimFlat_empty : ∀ p ∈ ([] : List (PgnInfo Binary64)),
    p.pgn = 60928 → ∀ f ∈ p.fields, ∀ t ∈ f.fieldType, ¬t.Nests :=
  List.forall_mem_nil _

def emptyDatabase : PgnDatabase Binary64 where
  units := .metric
  pgns := []
  lookups := []
  bitLookups := []
  indirectLookups := []
  fieldTypeLookups := []
  claimFlat := claimFlat_empty

def emptyEnv : Env Binary64 := ⟨emptyDatabase, fun _ => ""⟩

def recordLine (fields : List (String × Value Binary64)) : Value Binary64 :=
  .object [("timestamp", .null), ("fields", .object fields)]

def claimArrival (src : UInt8) (key : NameKey) : Arrival Binary64 where
  pgn := 60928
  src := src
  secondary := none
  description := "ISO Address Claim"
  line := recordLine [("Unique Number", .number (.posInt key.uniqueNumber.toUInt64)),
    ("Manufacturer Code", .number (.posInt key.manufacturerCode.toUInt64))]
  now := 0

def productArrival (src : UInt8) (model : String) : Arrival Binary64 where
  pgn := 126996
  src := src
  secondary := none
  description := "Product Information"
  line := recordLine [("Model ID", .string model)]
  now := 0

/-- A radar claims an address and tells its model; then a plotter claims the address. -/
def reused : History Binary64 :=
  [claimArrival 1 ⟨275, 42⟩, productArrival 1 "Radar", claimArrival 1 ⟨1855, 7⟩]

/-- The plotter is shown with the model of the radar. -/
theorem not_devices_followed : ¬∀ (env : Env Binary64) (cache : NameKey → Option CachedInfo)
    (h : History Binary64), h.Attributed env → h.Cached env cache ∧ h.ShowsOwn env cache := by
  intro hall
  have hdev : (⟨1, "", "Radar", "", "", 2⟩ : DeviceInfo) ∈
      (stateAfter emptyEnv (fun _ => none) reused).deviceList emptyEnv := by decide +kernel
  have hattr : reused.Attributed emptyEnv :=
    ⟨fun hpgn => absurd hpgn (by decide), fun _ => rfl, fun hpgn => absurd hpgn (by decide), trivial⟩
  have hshown := (hall emptyEnv (fun _ => none) reused hattr).2 _ hdev ⟨275, 42⟩ rfl .model
  rcases hshown with hempty | ⟨a, ha, hcarries⟩ | hcached
  · exact absurd hempty (by decide)
  · have hrecords : History.recordsOf emptyEnv ⟨275, 42⟩ reused = [claimArrival 1 ⟨275, 42⟩] := rfl
    rw [hrecords, List.mem_singleton] at ha
    subst ha
    rcases hcarries with hread | hinfo
    · cases hread
    · cases hinfo
  · cases hcached

/-- An address that is used by one device, after another has claimed a different one. -/
def settled : History Binary64 :=
  [productArrival 1 "Radar", claimArrival 2 ⟨275, 42⟩, claimArrival 1 ⟨1855, 7⟩]

theorem devices_followed_settled :
    (∀ h', h' <:+ settled → History.Cached emptyEnv (fun _ => none) h') ∧
      ∀ h', h' <:+ settled → History.ShowsOwn emptyEnv (fun _ => none) h' := by
  have hattr : settled.Attributed emptyEnv :=
    ⟨fun _ => rfl, fun hpgn => absurd hpgn (by decide), fun hpgn => absurd hpgn (by decide), trivial⟩
  have hempty : ∀ h : History Binary64, ∀ src : UInt8,
      ((stateAfter emptyEnv (fun _ => none) h).entriesOf src).isEmpty = true →
      ∀ e, e ∉ (stateAfter emptyEnv (fun _ => none) h).entriesOf src := by
    intro h src hnil e he
    rw [List.isEmpty_iff.mp hnil] at he
    cases he
  have hvacant : settled.AllVacant emptyEnv fun _ => none :=
    ⟨fun hpgn => absurd hpgn (by decide),
      fun _ _ _ e he => absurd he (hempty [claimArrival 1 ⟨1855, 7⟩] 2 rfl e),
      fun _ _ _ e he => absurd he (hempty [] 1 rfl e), trivial⟩
  have hfollowed := History.devices_followed emptyEnv (fun _ => none) hattr
  exact ⟨hfollowed.1, hfollowed.2 hvacant⟩

end Canboat.Tui
