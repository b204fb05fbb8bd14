import Canboat.Decode.Fields
import Canboat.Output.Json
import Canboat.Snapshot.Store
import Mathlib.Data.List.Sort

/-!
# Cache keys

The key under which a decoded record goes into the snapshot cache: its PGN, its source and the
texts of its primary-key fields, joined with underscores. Two records share a key exactly when
the texts, cut at the underscores that are in them, run the same.
-/

namespace Canboat

variable {F : Type} [Float64 F]

/-! ## Key fields -/

def AIS_PGNS : List UInt32 :=
  [129038, 129039, 129040, 129041, 129793, 129794, 129795, 129796, 129797, 129798, 129801, 129802,
    129803, 129804, 129805, 129806, 129807, 129808, 129809, 129810]

def isAisPgn (pgn : UInt32) : Bool := pgn ∈ AIS_PGNS

/-- Key fields that the schema does not mark; there are none. -/
def PRIMARY_KEY_OVERRIDES : List (UInt32 × String) := []

def isPartOfPrimaryKey (pgn : UInt32) (f : FieldInfo F) : Bool :=
  f.partOfPrimaryKey == some true ||
    PRIMARY_KEY_OVERRIDES.any fun o => o.1 == pgn && o.2 == f.id.val

/-- The order is in `[start, start + size)`. -/
def RepeatingFieldSet.covers (set : RepeatingFieldSet) (order : UInt32) : Bool :=
  match set.startField, set.size with
  | some start, some size => decide (start ≤ order) && decide (order < start + size)
  | _, _ => false

def fieldInAnyRepeatSet (info : PgnInfo F) (f : FieldInfo F) : Option UInt8 :=
  if info.repeatingFieldSet1.covers f.order.toUInt32 then some 1
  else if info.repeatingFieldSet2.covers f.order.toUInt32 then some 2
  else none

/-- Joined with `_`; nothing without parts. -/
def joinParts (parts : List (List Char)) : Option String :=
  if parts.isEmpty then none else some (String.ofList (['_'].intercalate parts))

/-- From the key fields outside the repeating sets, as far as they have a text. -/
def compositeSecondary (info : PgnInfo F) (getText : FieldInfo F → Option (List Char)) :
    Option String :=
  joinParts (((info.fields.filter (isPartOfPrimaryKey info.pgn)).filter fun f =>
    (fieldInAnyRepeatSet info f).isNone).filterMap getText)

/-- The repeating set that the first key field in one is in. -/
def repeatingPkSet (info : PgnInfo F) : Option UInt8 :=
  (info.fields.filter (isPartOfPrimaryKey info.pgn)).findSome? (fieldInAnyRepeatSet info)

def perIterationSecondary (info : PgnInfo F) (repeatSet : UInt8) (iter : UInt32)
    (getTop : FieldInfo F → Option (List Char))
    (getIter : FieldInfo F → UInt32 → Option (List Char)) : Option String :=
  joinParts ((info.fields.filter (isPartOfPrimaryKey info.pgn)).filterMap fun f =>
    match fieldInAnyRepeatSet info f with
    | none => getTop f
    | some set => if set = repeatSet then getIter f iter else none)

/-! ## The texts of a record -/

/-- A lookup counts with its number; a value without one that tells records apart has none. -/
def fieldValueText (f : DecodedField F) : Option (List Char) :=
  match f.value with
  | .lookup value _ => some (Binary64.digits value.toNat)
  | .integer v => some (writeInt v.toInt)
  | .number v => some (Float64.display v)
  | .float v => some (Float64.display v)
  | .string s => some s
  | .mmsi v => some (Binary64.digits v.toNat)
  | .pgn value _ => some (Binary64.digits value.toNat)
  | .date d => some (Binary64.digits d.toNat)
  | .time raw _ => some (writeInt raw.toInt)
  | _ => none

/-- The decoded field at a place outside the sets. -/
def DecodedPgn.topField (d : DecodedPgn F) (f : FieldInfo F) : Option (DecodedField F) :=
  d.fields.find? fun x => x.repeatSet = 0 ∧ x.info.order = f.order

def topFieldText (d : DecodedPgn F) (f : FieldInfo F) : Option (List Char) :=
  (d.topField f).bind fieldValueText

def iterFieldText (d : DecodedPgn F) (repeatSet : UInt8) (iter : UInt32) (f : FieldInfo F) :
    Option (List Char) :=
  (d.fields.find? fun x =>
    x.repeatSet = repeatSet ∧ x.repeatIndex = some iter ∧ x.info.order = f.order).bind fieldValueText

/-- The iterations of the set that the record has, in order. -/
def collectIterIndexes (d : DecodedPgn F) (repeatSet : UInt8) : List UInt32 :=
  ((d.fields.filter fun f => f.repeatSet = repeatSet).filterMap (·.repeatIndex)).dedup.insertionSort
    (· ≤ ·)

/-! ## The server's store -/

/-- The record with one iteration of the set, as the first. -/
def synthesizeIterLine (d : DecodedPgn F) (repeatSet : UInt8) (iter : UInt32)
    (opts : JsonOptions) : List Char :=
  let kept := d.fields.filter fun f =>
    f.repeatSet = 0 ∨ (f.repeatSet = repeatSet ∧ f.repeatIndex = some iter)
  writeJson opts { d with fields := kept.map fun f =>
    if f.repeatSet = repeatSet then { f with repeatIndex := some 0 } else f }

def storeWhole (opts : JsonOptions) (d : DecodedPgn F) (secondary : Option String) (isAis : Bool)
    (now : ℕ) : List StoreCall :=
  [lazyCall ⟨d.pgn, d.src, secondary⟩ isAis d.description
    (fun _ => String.ofList (writeJson opts d)) now]

def storePerIteration (opts : JsonOptions) (d : DecodedPgn F) (info : PgnInfo F)
    (repeatSet : UInt8) (isAis : Bool) (now : ℕ) : List StoreCall :=
  (collectIterIndexes d repeatSet).map fun iter =>
    lazyCall ⟨d.pgn, d.src, perIterationSecondary info repeatSet iter (topFieldText d)
        fun f iter => iterFieldText d repeatSet iter f⟩ isAis d.description
      (fun _ => String.ofList (synthesizeIterLine d repeatSet iter opts)) now

/-- The stores for one record, by the first definition of its PGN; `metric` is the embedded
database in metric units. -/
def storeDecoded (metric : PgnDatabase F) (opts : JsonOptions) (d : DecodedPgn F) (now : ℕ) :
    List StoreCall :=
  match metric.firstPgn d.pgn with
  | none => storeWhole opts d none (isAisPgn d.pgn) now
  | some info =>
      match repeatingPkSet info with
      | some set => storePerIteration opts d info set (isAisPgn d.pgn) now
      | none =>
          storeWhole opts d (compositeSecondary info (topFieldText d)) (isAisPgn d.pgn) now

/-! ## Joined texts -/

theorem splitOn_intercalate_cons (t : List Char) (ts : List (List Char)) :
    (['_'].intercalate (t :: ts)).splitOn '_' = (t :: ts).flatMap (·.splitOn '_') := by
  induction ts generalizing t with
  | nil => rw [List.intercalate_singleton, List.flatMap_singleton]
  | cons t' ts ih =>
      rw [List.intercalate_cons_of_ne_nil (by simp), List.append_assoc, List.singleton_append,
        List.splitOn_append_cons_self, ih]
      rfl

/-- The pieces between underscores of all the texts. -/
def pieces (texts : List (List Char)) : List (List Char) := texts.flatMap (·.splitOn '_')

theorem pieces_eq_nil {texts : List (List Char)} (h : pieces texts = []) : texts = [] := by
  cases texts with
  | nil => rfl
  | cons t ts =>
      rw [pieces, List.flatMap_cons, List.append_eq_nil_iff] at h
      exact absurd h.1 (List.splitOn_ne_nil _ _)

theorem joinParts_eq_iff {s t : List (List Char)} :
    joinParts s = joinParts t ↔ pieces s = pieces t := by
  cases s with
  | nil =>
      constructor
      · intro h
        cases t with
        | nil => rfl
        | cons w t => cases h
      · intro h
        rw [pieces_eq_nil h.symm]
  | cons v s =>
      cases t with
      | nil =>
          constructor
          · intro h
            cases h
          · intro h
            cases pieces_eq_nil h
      | cons w t =>
          rw [joinParts, joinParts, if_neg (by simp), if_neg (by simp), Option.some.injEq,
            String.ofList_inj, pieces, pieces, ← splitOn_intercalate_cons,
            ← splitOn_intercalate_cons]
          constructor
          · exact congrArg _
          · intro h
            have hv : ['_'].intercalate ((['_'].intercalate (v :: s)).splitOn '_') = _ :=
              List.intercalate_splitOn '_'
            rw [h, List.intercalate_splitOn] at hv
            exact hv.symm

/-! ## Records apart -/

/-- The key fields outside the repeating sets. -/
def keyFields (info : PgnInfo F) : List (FieldInfo F) :=
  (info.fields.filter (isPartOfPrimaryKey info.pgn)).filter fun f =>
    (fieldInAnyRepeatSet info f).isNone

/-- The key texts that a record has. -/
def keyTexts (info : PgnInfo F) (d : DecodedPgn F) : List (List Char) :=
  (keyFields info).filterMap (topFieldText d)

/-- The value of a key field; `none` where the record has none or an unavailable one. -/
def keyValue (d : DecodedPgn F) (f : FieldInfo F) : Option (FieldValue F) :=
  (d.topField f).bind fun x =>
    match x.value with
    | .notAvailable => none
    | v => some v

def keyValues (variant : PgnInfo F) (d : DecodedPgn F) : List (Option (FieldValue F)) :=
  (keyFields variant).map (keyValue d)

/-- Each record goes under one key, and the keys differ. -/
def StoredApart (metric : PgnDatabase F) (opts : JsonOptions) (a b : DecodedPgn F) : Prop :=
  ∃ ka kb, (∀ now, (storeDecoded metric opts a now).map (·.key) = [ka]) ∧
    (∀ now, (storeDecoded metric opts b now).map (·.key) = [kb]) ∧ ka ≠ kb

omit [Float64 F] in
theorem collectIterIndexes_flat {d : DecodedPgn F} (hflat : ∀ f ∈ d.fields, f.repeatSet = 0)
    {set : UInt8} (hset : set ≠ 0) : collectIterIndexes d set = [] := by
  have hnone : d.fields.filter (fun f => f.repeatSet = set) = [] := by
    rw [List.filter_eq_nil_iff]
    intro f hf
    rw [hflat f hf, decide_eq_true_eq]
    exact Ne.symm hset
  rw [collectIterIndexes, hnone]
  rfl

omit [Float64 F] in
theorem repeatingPkSet_ne_zero {info : PgnInfo F} {set : UInt8}
    (h : repeatingPkSet info = some set) : set ≠ 0 := by
  obtain ⟨f, -, hf⟩ := List.exists_of_findSome?_eq_some h
  unfold fieldInAnyRepeatSet at hf
  split_ifs at hf
  · cases hf
    decide
  · cases hf
    decide

/-- The keys of a record without repeated fields. -/
theorem keys_storeDecoded (metric : PgnDatabase F) (opts : JsonOptions) {d : DecodedPgn F}
    (hflat : ∀ f ∈ d.fields, f.repeatSet = 0) (now : ℕ) :
    (storeDecoded metric opts d now).map (·.key) =
      (metric.firstPgn d.pgn).elim [⟨d.pgn, d.src, none⟩] fun info =>
        if (repeatingPkSet info).isSome then []
        else [⟨d.pgn, d.src, joinParts (keyTexts info d)⟩] := by
  unfold storeDecoded
  cases metric.firstPgn d.pgn with
  | none => rfl
  | some info =>
      simp only [Option.elim_some]
      cases hset : repeatingPkSet info with
      | none => rfl
      | some set =>
          simp only [storePerIteration]
          rw [collectIterIndexes_flat hflat (repeatingPkSet_ne_zero hset)]
          rfl

/-- Records of one PGN and source go under different keys exactly when the first definition of
the PGN has no key field in a repeating set and the pieces of its key texts differ. -/
theorem storedApart_iff (metric : PgnDatabase F) (opts : JsonOptions) {a b : DecodedPgn F}
    (hpgn : a.pgn = b.pgn) (hsrc : a.src = b.src) (ha : ∀ f ∈ a.fields, f.repeatSet = 0)
    (hb : ∀ f ∈ b.fields, f.repeatSet = 0) :
    StoredApart metric opts a b ↔ ∃ info, metric.firstPgn a.pgn = some info ∧
      repeatingPkSet info = none ∧ pieces (keyTexts info a) ≠ pieces (keyTexts info b) := by
  have hkeys := fun now => keys_storeDecoded metric opts ha now
  have hkeys' := fun now => keys_storeDecoded metric opts hb now
  rw [← hpgn, ← hsrc] at hkeys'
  unfold StoredApart
  simp only [hkeys, hkeys']
  cases metric.firstPgn a.pgn with
  | none =>
      constructor
      · rintro ⟨ka, kb, hka, hkb, hne⟩
        exact absurd ((List.singleton_inj.mp (hka 0)).symm.trans (List.singleton_inj.mp (hkb 0))) hne
      · rintro ⟨info, h, -⟩
        cases h
  | some info =>
      simp only [Option.some.injEq, exists_eq_left', Option.elim_some]
      cases repeatingPkSet info with
      | some set => simp
      | none => simp [joinParts_eq_iff]

/-- Records with different key values are stored apart when, and only when, they have one
definition's key texts apart. -/
theorem stored_apart_of_keyValues_iff (metric : PgnDatabase F) (opts : JsonOptions)
    (variant : PgnInfo F) {a b : DecodedPgn F} (hpgn : a.pgn = b.pgn) (hsrc : a.src = b.src)
    (ha : ∀ f ∈ a.fields, f.repeatSet = 0) (hb : ∀ f ∈ b.fields, f.repeatSet = 0) :
    (keyValues variant a ≠ keyValues variant b → StoredApart metric opts a b) ↔
      keyValues variant a = keyValues variant b ∨ ∃ info, metric.firstPgn a.pgn = some info ∧
        repeatingPkSet info = none ∧ pieces (keyTexts info a) ≠ pieces (keyTexts info b) := by
  rw [storedApart_iff metric opts hpgn hsrc ha hb, or_iff_not_imp_left]

/-- Three instances, each unavailable at 255. -/
def inverterStatus : PgnInfo Binary64 where
  pgn := 127509
  id := ⟨"inverterStatus", by decide⟩
  description := "Inverter Status"
  packetType := .single
  fallback := none
  priority := none
  length := none
  fields :=
    [{ (FieldInfo.number (Float64.ofInt 0) 1 ⟨"instance", by decide⟩ 8) with
        unknownValue := some 255, partOfPrimaryKey := some true },
      { (FieldInfo.number (Float64.ofInt 0) 2 ⟨"acInstance", by decide⟩ 8) with
        unknownValue := some 255, partOfPrimaryKey := some true },
      { (FieldInfo.number (Float64.ofInt 0) 3 ⟨"dcInstance", by decide⟩ 8) with
        unknownValue := some 255, partOfPrimaryKey := some true }]
  repeatingFieldSet1 := .none
  repeatingFieldSet2 := .none
  idIsPinned := false

def inverterDatabase : PgnDatabase Binary64 where
  units := .metric
  pgns := [inverterStatus]
  lookups := []
  bitLookups := []
  indirectLookups := []
  fieldTypeLookups := []
  claimFlat := by simp [inverterStatus]

def inverterFrame (data : List UInt8) : RawFrame := ⟨none, 6, 127509, 1, 255, data⟩

def nameValueOptions : JsonOptions := ⟨false, true, false, .off⟩

/-- What tells of a record in the examples. -/
structure KeyFacts where
  texts : List (List Char)
  present : List Bool
  flat : Bool
  pgn : UInt32
  src : UInt8
deriving DecidableEq

def keyFacts (d : DecodedPgn Binary64) : KeyFacts where
  texts := pieces (keyTexts inverterStatus d)
  present := (keyValues inverterStatus d).map (·.isSome)
  flat := d.fields.all (·.repeatSet = 0)
  pgn := d.pgn
  src := d.src

theorem inverter_decode {data : List UInt8} {facts : KeyFacts}
    (h : (inverterDatabase.decode (inverterFrame data)).toOption.map keyFacts = some facts) :
    ∃ d, inverterDatabase.decode (inverterFrame data) = .ok d ∧ keyFacts d = facts := by
  cases hdecode : inverterDatabase.decode (inverterFrame data) with
  | error e => rw [hdecode] at h; cases h
  | ok d =>
      rw [hdecode] at h
      exact ⟨d, rfl, Option.some.inj h⟩

theorem flat_of_keyFacts {d : DecodedPgn Binary64} {facts : KeyFacts} (h : keyFacts d = facts)
    (hflat : facts.flat = true) : ∀ f ∈ d.fields, f.repeatSet = 0 := by
  intro f hf
  rw [← h] at hflat
  exact of_decide_eq_true (List.all_eq_true.mp hflat f hf)

theorem keyValues_ne {a b : DecodedPgn Binary64}
    (h : (keyFacts a).present ≠ (keyFacts b).present) :
    keyValues inverterStatus a ≠ keyValues inverterStatus b :=
  fun heq => h (congrArg (fun values => values.map (·.isSome)) heq)

/-- Two inverters with the same first instance, one without an AC instance and one without a DC
instance, share the key `1_2`. -/
theorem inverters_collide : ∃ a b,
    inverterDatabase.decode (inverterFrame [1, 255, 2]) = .ok a ∧
      inverterDatabase.decode (inverterFrame [1, 2, 255]) = .ok b ∧
      keyValues inverterStatus a ≠ keyValues inverterStatus b ∧
      ¬StoredApart inverterDatabase nameValueOptions a b := by
  obtain ⟨a, ha, hfacts⟩ := inverter_decode (show
    (inverterDatabase.decode (inverterFrame [1, 255, 2])).toOption.map keyFacts =
      some ⟨[['1'], ['2']], [true, false, true], true, 127509, 1⟩ by decide +kernel)
  obtain ⟨b, hb, hfacts'⟩ := inverter_decode (show
    (inverterDatabase.decode (inverterFrame [1, 2, 255])).toOption.map keyFacts =
      some ⟨[['1'], ['2']], [true, true, false], true, 127509, 1⟩ by decide +kernel)
  refine ⟨a, b, ha, hb, keyValues_ne ?_, ?_⟩
  · rw [hfacts, hfacts']
    decide
  · have hpgn : a.pgn = 127509 := congrArg KeyFacts.pgn hfacts
    rw [storedApart_iff _ _ (hpgn.trans (congrArg KeyFacts.pgn hfacts').symm)
      ((congrArg KeyFacts.src hfacts).trans (congrArg KeyFacts.src hfacts').symm)
      (flat_of_keyFacts hfacts rfl) (flat_of_keyFacts hfacts' rfl)]
    rintro ⟨info, hinfo, -, hne⟩
    have hfirst : inverterDatabase.firstPgn 127509 = some inverterStatus := rfl
    rw [hpgn, hfirst] at hinfo
    cases hinfo
    exact hne ((congrArg KeyFacts.texts hfacts).trans (congrArg KeyFacts.texts hfacts').symm)

/-- Inverters with all their instances are stored apart. -/
theorem stored_apart_of_keyValues_iff_inverters : ∃ a b,
    inverterDatabase.decode (inverterFrame [1, 3, 2]) = .ok a ∧
      inverterDatabase.decode (inverterFrame [1, 2, 255]) = .ok b ∧
      StoredApart inverterDatabase nameValueOptions a b := by
  obtain ⟨a, ha, hfacts⟩ := inverter_decode (show
    (inverterDatabase.decode (inverterFrame [1, 3, 2])).toOption.map keyFacts =
      some ⟨[['1'], ['3'], ['2']], [true, true, true], true, 127509, 1⟩ by decide +kernel)
  obtain ⟨b, hb, hfacts'⟩ := inverter_decode (show
    (inverterDatabase.decode (inverterFrame [1, 2, 255])).toOption.map keyFacts =
      some ⟨[['1'], ['2']], [true, true, false], true, 127509, 1⟩ by decide +kernel)
  have hpgn : a.pgn = 127509 := congrArg KeyFacts.pgn hfacts
  refine ⟨a, b, ha, hb, (stored_apart_of_keyValues_iff inverterDatabase nameValueOptions
    inverterStatus (hpgn.trans (congrArg KeyFacts.pgn hfacts').symm)
    ((congrArg KeyFacts.src hfacts).trans (congrArg KeyFacts.src hfacts').symm)
    (flat_of_keyFacts hfacts rfl) (flat_of_keyFacts hfacts' rfl)).mpr (Or.inr ?_)
      (keyValues_ne ?_)⟩
  · refine ⟨inverterStatus, by rw [hpgn]; rfl, by decide, fun h => ?_⟩
    have htexts := (congrArg KeyFacts.texts hfacts).symm.trans
      (h.trans (congrArg KeyFacts.texts hfacts'))
    exact absurd htexts (by decide)
  · rw [hfacts, hfacts']
    decide

end Canboat
