import Canboat.Wire.Index
import Canboat.Wire.Labels

/-!
# There and back over the wire

What a receiver with the same database makes of a decoded record.
-/

namespace Canboat

variable {F : Type} [Float64 F]

/-- A value as it comes back: without the labels that are not found again. -/
def FieldInfo.ComesBack (db : PgnDatabase F) (f : FieldInfo F) :
    FieldValue F → FieldValue F → Prop
  | .lookup raw name, v' => ∃ name', v' = .lookup raw name' ∧
      (f.fieldType = some .lookup ∧ f.lookupFieldTypeEnumeration = none ∨
        f.fieldType = some .dynamicFieldKey ∧ f.lookupEnumeration = none → name' = name)
  | .bitField raw bits, v' => ∃ bits', v' = .bitField raw bits' ∧
      (f.fieldType = some .bitLookup → bits' = bits)
  | .pgn value description, v' => ∃ description', v' = .pgn value description' ∧
      (description.isSome ∨ db.pgnVariants value = [] → description' = description)
  -- the fields of a NAME are those of another definition
  | .isoName value subfields, v' => ∃ subfields', v' = .isoName value subfields' ∧
      subfields'.length = subfields.length
  | .unsupported _, v' => v' = .unsupported "UNSUPPORTED"
  | v, v' => v' = v

/-- An override as it comes back: a unit that is not the field's own is dropped. -/
structure FieldOverrides.ComesBack (f : FieldInfo F) (o o' : FieldOverrides F) : Prop where
  resolution : o'.resolution = o.resolution
  precision : o'.precision = o.precision
  unit : o'.unit = if o.unit = f.unit then o.unit else none

structure DecodedField.ComesBack (db : PgnDatabase F) (e e' : DecodedField F) : Prop where
  info : e'.info = e.info
  repeatIndex : e'.repeatIndex = e.repeatIndex
  repeatSet : e'.repeatSet = e.repeatSet
  value : e.info.ComesBack db e.value e'.value
  overrides : Option.Rel (FieldOverrides.ComesBack e.info) e.overrides e'.overrides

/-! ## Bit labels -/

section Bits

omit [Float64 F]

/-- A table in the order of its bits is what its bits give in their order. -/
theorem filterMap_get {table : BitLookupTable}
    (hsorted : table.values.Pairwise fun a b => a.bit < b.bit) :
    (List.finRange 64).filterMap table.get = table.values := by
  have hget : ∀ v ∈ table.values, table.get v.bit = some v := by
    intro v hv
    rw [BitLookupTable.get, List.find?_eq_some_iff_append]
    obtain ⟨pre, post, hsplit⟩ := List.append_of_mem hv
    refine ⟨decide_eq_true rfl, pre, post, hsplit, ?_⟩
    intro w hw
    rw [hsplit, List.pairwise_append] at hsorted
    have hlt := hsorted.2.2 w hw v List.mem_cons_self
    rw [Bool.not_eq_true', decide_eq_false_iff_not]
    exact hlt.ne
  have hbit : ∀ {b v}, table.get b = some v → v.bit = b ∧ v ∈ table.values := by
    intro b v h
    rw [BitLookupTable.get] at h
    have hsame := List.find?_some h
    exact ⟨of_decide_eq_true hsame, List.mem_of_find?_eq_some h⟩
  have hpairs : ((List.finRange 64).filterMap table.get).Pairwise fun a b => a.bit < b.bit := by
    rw [List.pairwise_filterMap]
    refine (List.pairwise_lt_finRange 64).imp ?_
    intro b b' hlt v hv v' hv'
    rw [(hbit hv).1, (hbit hv').1]
    exact hlt
  have hnodup : ∀ {l : List BitLookupValue}, (l.Pairwise fun a b => a.bit < b.bit) → l.Nodup :=
    fun h => h.imp fun hlt heq => (hlt.ne (congrArg BitLookupValue.bit heq)).elim
  have hperm : ((List.finRange 64).filterMap table.get).Perm table.values := by
    rw [List.perm_ext_iff_of_nodup (hnodup hpairs) (hnodup hsorted)]
    intro v
    rw [List.mem_filterMap]
    constructor
    · rintro ⟨b, -, hb⟩
      exact (hbit hb).2
    · intro hv
      exact ⟨v.bit, List.mem_finRange _, hget v hv⟩
  exact hperm.eq_of_pairwise (fun a b _ _ hab hba => (lt_asymm hab hba).elim) hpairs hsorted

theorem rehydrateBits_eq {db : PgnDatabase F}
    (hsorted : ∀ t ∈ db.bitLookups, t.values.Pairwise fun a b => a.bit < b.bit) (f : FieldInfo F)
    (raw : UInt64) :
    rehydrateBits db f raw = setBits (f.lookupBitEnumeration.bind db.bitLookup) raw := by
  unfold rehydrateBits setBits
  cases htable : f.lookupBitEnumeration.bind db.bitLookup with
  | none => rfl
  | some table =>
      obtain ⟨name, -, hname⟩ := Option.bind_eq_some_iff.mp htable
      have hvalues := filterMap_get (hsorted table (List.mem_of_find?_eq_some hname))
      dsimp only
      conv_rhs => rw [← hvalues, List.filter_filterMap, List.map_filterMap]
      apply List.filterMap_congr
      intro b _
      cases hget : table.get b with
      | none =>
          split_ifs
          all_goals rfl
      | some v =>
          have hbit : v.bit = b := by
            rw [BitLookupTable.get] at hget
            have hsame := List.find?_some hget
            exact of_decide_eq_true hsame
          rw [Option.filter_some]
          simp only [hbit]
          by_cases hset : raw &&& bitValue b ≠ 0
          · rw [if_pos hset, if_pos (decide_eq_true hset), Option.map_some, Option.map_some, hbit]
          · rw [if_neg hset, if_neg (by rwa [decide_eq_true_eq])]
            rfl

end Bits

/-! ## One field -/

omit [Float64 F] in
theorem rehydrateName_lookup {db : PgnDatabase F} {f : FieldInfo F} {raw : UInt64}
    (h : f.lookupFieldTypeEnumeration = none) : rehydrateName db f raw = lookupName db f raw := by
  rw [rehydrateName, h]
  exact Option.or_none

omit [Float64 F] in
theorem rehydrateName_key {db : PgnDatabase F} {f : FieldInfo F} {raw : UInt64}
    (h : f.lookupEnumeration = none) : rehydrateName db f raw = fieldTypeName db f raw := by
  rw [rehydrateName, h]
  rfl

omit [Float64 F] in
theorem staticOverride_comesBack (f : FieldInfo F) (o : FieldOverrides F) :
    o.ComesBack f ((WireOverrides.ofOverrides o).rehydrate f) where
  resolution := rfl
  precision := rfl
  unit := by
    change (o.unit.bind fun u => staticUnit u f) = _
    cases hunit : o.unit with
    | none =>
        split_ifs
        · rfl
        · rfl
    | some u =>
        rw [Option.bind_some, staticUnit]
        by_cases hown : f.unit = some u
        · rw [if_pos hown, if_pos hown.symm]
        · rw [if_neg hown, if_neg fun h => hown h.symm]

omit [Float64 F] in
theorem ofFields_length (fields : List (DecodedField F)) :
    (WireField.ofFields fields).length = fields.length := by
  induction fields with
  | nil => rfl
  | cons f fields ih => rw [WireField.ofFields, List.length_cons, List.length_cons, ih]

section Total

variable {pgnInfo : PgnInfo F}

omit [Float64 F] in
theorem fieldByOrder_ok (hne : pgnInfo.fields ≠ []) (order : UInt8) :
    ∃ f, fieldByOrder pgnInfo order = .ok f := by
  rw [fieldByOrder]
  split
  next hnil => exact absurd hnil hne
  next => exact ⟨_, rfl⟩

mutual

theorem rehydrateValue_ok (hne : pgnInfo.fields ≠ []) (info : FieldInfo F)
    (peerField : Option (FieldInfo F)) (db : PgnDatabase F) :
    ∀ v : WireValue F, ∃ v', rehydrateValue pgnInfo info peerField db v = .ok v'
  | .IsoName value subfields => by
      obtain ⟨subfields', hfields, -⟩ := rehydrateFields_ok hne none db subfields
      refine ⟨.isoName value subfields', ?_⟩
      rw [rehydrateValue, hfields]
      rfl
  | .Number _ | .Integer _ | .Float _ | .Binary _ | .Lookup _ | .BitField _ | .String _ | .Date _
  | .Time _ _ | .Mmsi _ | .Pgn _ | .Reserved _ _ _ | .Spare _ _ _ | .NotAvailable | .OutOfRange _
  | .ReservedValue _ | .Unsupported => by
      rw [rehydrateValue]
      exact ⟨_, rfl⟩

theorem rehydrateField_ok (hne : pgnInfo.fields ≠ []) (peerPgn : Option (PgnInfo F))
    (db : PgnDatabase F) :
    ∀ f : WireField F, ∃ f', WireField.rehydrate pgnInfo peerPgn db f = .ok f'
  | ⟨order, repeatIndex, repeatSet, value, overrides⟩ => by
      obtain ⟨info, hinfo⟩ := fieldByOrder_ok hne order
      obtain ⟨v, hv⟩ := rehydrateValue_ok hne info
        (peerPgn.bind fun p => p.fields[(order - 1).toNat]?) db value
      rw [WireField.rehydrate, hinfo]
      change ∃ f', (rehydrateValue _ _ _ _ _ >>= _) = _
      rw [hv]
      exact ⟨_, rfl⟩

theorem rehydrateFields_ok (hne : pgnInfo.fields ≠ []) (peerPgn : Option (PgnInfo F))
    (db : PgnDatabase F) :
    ∀ fields : List (WireField F), ∃ fields',
      rehydrateFields pgnInfo peerPgn db fields = .ok fields' ∧ fields'.length = fields.length
  | [] => ⟨[], by rw [rehydrateFields], rfl⟩
  | f :: fields => by
      obtain ⟨f', hf⟩ := rehydrateField_ok hne peerPgn db f
      obtain ⟨fields', hfields, hlength⟩ := rehydrateFields_ok hne peerPgn db fields
      refine ⟨f' :: fields', ?_, congrArg (· + 1) hlength⟩
      rw [rehydrateFields, hf]
      change (rehydrateFields _ _ _ _ >>= _) = _
      rw [hfields]
      rfl

end

end Total

theorem rehydrateNumber_same (x : F) (f : FieldInfo F) : rehydrateNumber x f none = x := by
  rw [rehydrateNumber]
  cases f.unit with
  | none => rfl
  | some u => rfl

/-- A labelled value comes back, where both sides read the same database. -/
theorem rehydrateValue_comesBack {db : PgnDatabase F} {pgnInfo : PgnInfo F}
    (hne : pgnInfo.fields ≠ [])
    (hsorted : ∀ t ∈ db.bitLookups, t.values.Pairwise fun a b => a.bit < b.bit) {f : FieldInfo F}
    {v : FieldValue F} (hlabelled : f.Labelled db v) :
    ∃ v', rehydrateValue pgnInfo f none db (WireValue.ofValue v) = .ok v' ∧
      f.ComesBack db v v' := by
  cases v with
  | lookup raw name =>
      refine ⟨_, by rw [WireValue.ofValue, rehydrateValue], _, rfl, ?_⟩
      rintro (⟨htype, htable⟩ | ⟨htype, htable⟩)
      · rw [rehydrateName_lookup htable, hlabelled.1 htype]
      · rw [rehydrateName_key htable, hlabelled.2 htype]
  | bitField raw bits =>
      refine ⟨_, by rw [WireValue.ofValue, rehydrateValue], _, rfl, ?_⟩
      intro htype
      rw [rehydrateBits_eq hsorted, hlabelled htype]
  | pgn value description =>
      refine ⟨_, by rw [WireValue.ofValue, rehydrateValue], _, rfl, ?_⟩
      have hdescription : description = pgnDescription db value := hlabelled
      have hfirst : db.firstPgn value = (db.pgnVariants value).head? := by
        rw [PgnDatabase.firstPgn, PgnDatabase.pgnVariants, List.head?_filter]
      rw [hdescription, hfirst, pgnDescription]
      rintro (hsome | hnil)
      · split at hsome
        next p hone =>
          rw [hone]
          split_ifs at hsome with hmatch
          · cases hsome
          · rw [if_neg hmatch]
            rfl
        next => cases hsome
      · rw [hnil]
        rfl
  | isoName value subfields =>
      obtain ⟨subfields', hfields, hlength⟩ :=
        rehydrateFields_ok hne none db (WireField.ofFields subfields)
      refine ⟨.isoName value subfields', ?_, subfields', rfl, ?_⟩
      · rw [WireValue.ofValue, rehydrateValue, hfields]
        rfl
      · rw [hlength, ofFields_length]
  | number x =>
      refine ⟨_, by rw [WireValue.ofValue, rehydrateValue], ?_⟩
      rw [rehydrateNumber_same]
      rfl
  | _ => exact ⟨_, by rw [WireValue.ofValue, rehydrateValue], rfl⟩

omit [Float64 F] in
theorem fieldByOrder_self {info : PgnInfo F} (hordered : info.Ordered) {f : FieldInfo F}
    (hf : f ∈ info.fields) : fieldByOrder info f.order = .ok f := by
  obtain ⟨i, hi⟩ := List.mem_iff_getElem?.mp hf
  obtain ⟨hlt, -⟩ := List.getElem?_eq_some_iff.mp hi
  have hnumber := hordered i f hi
  have hpos : f.order ≠ 0 := by
    intro hzero
    rw [hzero] at hnumber
    cases hnumber
  obtain ⟨g, hg, hby, horder⟩ := fieldByOrder_eq hordered hpos (by omega)
  obtain ⟨j, hj⟩ := List.mem_iff_getElem?.mp hg
  have hsame : j = i := by
    have hnumber' := hordered j g hj
    rw [horder] at hnumber'
    omega
  rw [hsame] at hj
  rw [hby, Option.some.inj (hj.symm.trans hi)]

theorem rehydrateFields_comesBack {db : PgnDatabase F} {pgnInfo : PgnInfo F}
    (hordered : pgnInfo.Ordered)
    (hsorted : ∀ t ∈ db.bitLookups, t.values.Pairwise fun a b => a.bit < b.bit)
    {fields : List (DecodedField F)}
    (hfields : ∀ e ∈ fields, e.info ∈ pgnInfo.fields ∧ e.info.Labelled db e.value) :
    ∃ fields', rehydrateFields pgnInfo none db (WireField.ofFields fields) = .ok fields' ∧
      List.Forall₂ (DecodedField.ComesBack db) fields fields' := by
  induction fields with
  | nil => exact ⟨[], by rw [WireField.ofFields, rehydrateFields], .nil⟩
  | cons e fields ih =>
      obtain ⟨⟨hinfo, hlabelled⟩, hrest⟩ := List.forall_mem_cons.mp hfields
      obtain ⟨fields', htail, hback⟩ := ih hrest
      obtain ⟨info, value, off, bits, repeatIndex, repeatSet, overrides⟩ := e
      have hne : pgnInfo.fields ≠ [] := List.ne_nil_of_mem hinfo
      obtain ⟨v', hvalue, hcomes⟩ := rehydrateValue_comesBack hne hsorted hlabelled
      refine ⟨⟨info, v', none, none, repeatIndex, repeatSet,
        (overrides.map WireOverrides.ofOverrides).map (·.rehydrate info)⟩ :: fields', ?_, ?_⟩
      · rw [WireField.ofFields, rehydrateFields, WireField.ofField, WireField.rehydrate,
          fieldByOrder_self hordered hinfo]
        change ((rehydrateValue pgnInfo info none db _ >>= _) >>= _) = _
        rw [hvalue]
        change (rehydrateFields _ _ _ _ >>= _) = _
        rw [htail]
        rfl
      · refine .cons ⟨rfl, rfl, rfl, hcomes, ?_⟩ hback
        cases overrides with
        | none => exact .none
        | some o => exact .some (staticOverride_comesBack info o)

/-! ## A record -/

omit [Float64 F] in
/-- The builders differ only in what stands at position 127. -/
theorem indexFrom_same {fields fields' : List (DecodedField F)} {pos : ℕ} {idx : List Int8}
    (hkeys : List.Forall₂ (fun e e' => e'.repeatSet = e.repeatSet ∧ e'.order = e.order) fields fields')
    (hend : ∀ i e, fields[i]? = some e → pos + i = 127 → e.repeatSet ≠ 0) :
    indexFrom 128 pos fields' idx = indexFrom 127 pos fields idx := by
  induction hkeys generalizing pos idx with
  | nil => rfl
  | @cons e e' fields fields' hkey hrest ih =>
      have hlater : ∀ i f, fields[i]? = some f → pos + 1 + i = 127 → f.repeatSet ≠ 0 := by
        intro i f hf hpos
        exact hend (i + 1) f (by rw [List.getElem?_cons_succ, hf]) (by omega)
      rw [indexFrom, indexFrom, hkey.1, hkey.2]
      by_cases hin : e.repeatSet = 0 ∧ e.order ≠ 0 ∧ e.order.toNat - 1 < indexSlots ∧ pos < 127
      · rw [if_pos hin, if_pos ⟨hin.1, hin.2.1, hin.2.2.1, by omega⟩]
        exact ih hlater
      · rw [if_neg hin, if_neg]
        · exact ih hlater
        · rintro ⟨htop, hzero, hslot, hpos⟩
          by_cases hlast : pos = 127
          · exact hend 0 e List.getElem?_cons_zero (by omega) htop
          · exact hin ⟨htop, hzero, hslot, by omega⟩

omit [Float64 F] in
/-- The definition under a hash, where no two share one. -/
theorem pgnIndex_get {db : PgnDatabase F}
    (hhash : ∀ p ∈ db.pgns, ∀ q ∈ db.pgns, pgnIdHash p.id = pgnIdHash q.id → p = q)
    {info : PgnInfo F} (hinfo : info ∈ db.pgns) : PgnIndex.get db (pgnIdHash info.id) = some info := by
  rw [PgnIndex.get]
  cases hfind : db.pgns.reverse.find? fun p => pgnIdHash p.id = pgnIdHash info.id with
  | none =>
      have hnot := List.find?_eq_none.mp hfind info (List.mem_reverse.mpr hinfo)
      exact absurd (decide_eq_true rfl) hnot
  | some p =>
      have hsame := List.find?_some hfind
      have hmem := List.mem_reverse.mp (List.mem_of_find?_eq_some hfind)
      rw [hhash p hmem info hinfo (of_decide_eq_true hsame)]

/-- **There and back.** What a receiver with the same database makes of a decoded record is the
record without its payload, with its fields as they come back. -/
theorem rehydrate_ofPgn (db : PgnDatabase F) (hordered : ∀ p ∈ db.pgns, p.Ordered)
    (hsorted : ∀ t ∈ db.bitLookups, t.values.Pairwise fun a b => a.bit < b.bit)
    (hhash : ∀ p ∈ db.pgns, ∀ q ∈ db.pgns, pgnIdHash p.id = pgnIdHash q.id → p = q)
    (embedded : Units → PgnDatabase F) (frame : RawFrame) (d : DecodedPgn F)
    (hdecode : db.decode frame = .ok d) :
    ∃ d', (WirePgn.ofPgn d).rehydrate embedded db db.units = .ok (some d') ∧
      d' = { d with data := [], fields := d'.fields, indexByOrder := d'.indexByOrder } ∧
      List.Forall₂ (DecodedField.ComesBack db) d.fields d'.fields ∧
      ((∀ e, d.fields[127]? = some e → e.repeatSet ≠ 0) → d'.indexByOrder = d.indexByOrder) := by
  have hlabelled := decode_labelled hdecode
  cases hpick : db.pickVariant frame with
  | none =>
      rw [PgnDatabase.decode, hpick] at hdecode
      cases hdecode
  | some info =>
      have hinfo : info ∈ db.pgns := by
        rw [PgnDatabase.pickVariant] at hpick
        obtain ⟨i, -, hi⟩ := Option.bind_eq_some_iff.mp hpick
        exact List.mem_of_getElem? hi
      obtain ⟨hfields, -, hindex, hid⟩ := decode_indexed hpick (hordered info hinfo) hdecode
      obtain ⟨fields', hback, hcomes⟩ := rehydrateFields_comesBack (hordered info hinfo) hsorted
        fun e he => ⟨hfields e he, hlabelled e he⟩
      have hheader : d.description = info.description ∧ d.idIsPinned = info.idIsPinned := by
        rw [PgnDatabase.decode, hpick] at hdecode
        cases hdecode
        exact ⟨rfl, rfl⟩
      refine ⟨{ d with data := [], fields := fields', indexByOrder := rehydrateIndex fields' },
        ?_, rfl, hcomes, ?_⟩
      · rw [WirePgn.rehydrate, show (WirePgn.ofPgn d).pgnIdHash = pgnIdHash d.id from rfl, hid,
          pgnIndex_get hhash hinfo]
        dsimp only
        rw [if_neg (not_not.mpr rfl)]
        change (rehydrateFields info none db (WireField.ofFields d.fields) >>= _) = _
        rw [hback, hheader.1, hheader.2]
        rfl
      · intro hend
        change rehydrateIndex fields' = d.indexByOrder
        rw [hindex, rehydrateIndex, rehydrateIndexFrom_eq]
        apply indexFrom_same
        · exact hcomes.imp fun e e' h => ⟨h.repeatSet, congrArg FieldInfo.order h.info⟩
        · intro i e he hi
          have hlast : i = 127 := by omega
          rw [hlast] at he
          exact hend e he

/-! ## A wind speed -/

def windKey : FieldInfo Binary64 :=
  { claimNumber 1 ⟨"key", Eq.refl true⟩ "Key" 0 16 with
    fieldType := some .dynamicFieldKey, lookupFieldTypeEnumeration := some "BANDG_KEY_VALUE" }

def windValue : FieldInfo Binary64 :=
  { claimNumber 2 ⟨"value", Eq.refl true⟩ "Value" 16 16 with
    fieldType := some .dynamicFieldValue, bitLength := none }

def windPgn : PgnInfo Binary64 where
  pgn := 130824
  id := ⟨"bGKeyValueData", Eq.refl true⟩
  description := "B&G: key-value data"
  packetType := .fast
  fallback := none
  priority := none
  length := none
  fields := [windKey, windValue]
  repeatingFieldSet1 := .none
  repeatingFieldSet2 := .none
  idIsPinned := false

def windSpeed : LookupFieldTypeValue Binary64 where
  value := 79
  name := "Wind Speed True"
  fieldType := some "NUMBER"
  bits := some 16
  resolution := some (Float64.ofRat (1 / 100))
  unit := some "m/s"
  lookupEnumeration := none
  signed := false
  precision := 0

def windDatabase : PgnDatabase Binary64 where
  units := .metric
  pgns := [windPgn]
  lookups := []
  bitLookups := []
  indirectLookups := []
  fieldTypeLookups := [⟨"BANDG_KEY_VALUE", [windSpeed], by decide⟩]
  claimFlat := by decide +kernel

/-- Key 79, ten metres per second. -/
def windFrame : RawFrame := ⟨none, 2, 130824, 7, 255, [79, 0, 0xe8, 0x03]⟩

/-- The unit of the value is that of its key's entry, which the field does not have. -/
theorem wind_unit_dropped :
    (windDatabase.decode windFrame).toOption.map (fun d =>
      (d.fields.map (·.unit),
        ((WirePgn.ofPgn d).rehydrate (fun _ => windDatabase) windDatabase .metric).toOption.join.map
          fun d' => d'.fields.map (·.unit))) =
      some ([none, some "m/s"], some [none, none]) := by
  decide +kernel

theorem rehydrate_ofPgn_wind :
    ∃ d d', windDatabase.decode windFrame = .ok d ∧
      (WirePgn.ofPgn d).rehydrate (fun _ => windDatabase) windDatabase .metric = .ok (some d') ∧
      List.Forall₂ (DecodedField.ComesBack windDatabase) d.fields d'.fields := by
  obtain ⟨d, hdecode⟩ : ∃ d, windDatabase.decode windFrame = .ok d := by
    have hsome : (windDatabase.decode windFrame).toOption.isSome = true := by decide +kernel
    cases hresult : windDatabase.decode windFrame with
    | ok d => exact ⟨d, rfl⟩
    | error e =>
        rw [hresult] at hsome
        cases hsome
  have hone : ∀ p ∈ windDatabase.pgns, p = windPgn := fun p hp => List.mem_singleton.mp hp
  have hordered : ∀ p ∈ windDatabase.pgns, p.Ordered := by
    intro p hp i f hf
    rw [hone p hp] at hf
    obtain ⟨hlt, rfl⟩ := List.getElem?_eq_some_iff.mp hf
    have hall : ∀ i (h : i < 2), (windPgn.fields[i]).order.toNat = i + 1 := by decide
    exact hall i hlt
  obtain ⟨d', hback, -, hfields, -⟩ := rehydrate_ofPgn windDatabase hordered nofun
    (fun p hp q hq _ => (hone p hp).trans (hone q hq).symm) (fun _ => windDatabase) windFrame d hdecode
  exact ⟨d, d', hdecode, hback, hfields⟩

end Canboat
