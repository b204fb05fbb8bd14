import Canboat.Decode.DeviceName
import Canboat.Input.Delimited
import Canboat.Output.JsonValid

/-!
# The two styles of a line

A line has the names of the schema for its keys, or the identifiers. Both are read back to one
record when each key that the reader looks for is found at the same field.
-/

namespace Canboat

open Json AnalyzerJson
open Binary64 (digits)

/-! ## Where a key is found -/

/-- `-nv`, in the style. -/
def styleOptions (includeEmpty : Bool) (camelCase : CamelCase) : JsonOptions where
  includeEmpty := includeEmpty
  nameValue := true
  debug := false
  camelCase := camelCase

/-- The keys in a field's member, its own first. -/
def memberKeys (opts : JsonOptions) (f : DecodedField Binary64) : List (List Char) :=
  fieldLabel opts f :: textKeys opts f

/-- The first field whose member has the key, its own or within its value. -/
def found (includeEmpty : Bool) (style : CamelCase) (d : DecodedPgn Binary64) (key : List Char) :
    Option (DecodedField Binary64) :=
  (shownFields (styleOptions includeEmpty style) d).find? fun f =>
    key ∈ memberKeys (styleOptions includeEmpty style) f

/-- The name and the identifier are found at the same field, as its own keys, or not at all. -/
structure FoundAlike (includeEmpty : Bool) (d : DecodedPgn Binary64) (name id : List Char) :
    Prop where
  nameKey : IsKey name
  idKey : IsKey id
  notRecord : name ∉ lineKeys (styleOptions includeEmpty .off) d
  notRecordCamel : id ∉ lineKeys (styleOptions includeEmpty .lower) d
  notWrapper : id ≠ d.id.val.toList
  same : found includeEmpty .off d name = found includeEmpty .lower d id
  own : ∀ f, found includeEmpty .off d name = some f →
    f.IsLeaf ∧ PlainNames f.value ∧ f.info.name.toList = name ∧ f.info.id.val.toList = id

/-- Whether a converter reads fields of the type. -/
def FieldInfo.isRead (fi : FieldInfo Binary64) : Bool :=
  match fi.fieldType with
  | some .binary | some .isoName | some .reserved | some .spare | some .dynamicFieldLength
  | some .dynamicFieldValue => false
  | _ => true

/-- Every key that the reader looks for is found in the same place in both styles. -/
structure ReadAlike (includeEmpty : Bool) (db : PgnDatabase Binary64) (info : PgnInfo Binary64)
    (d : DecodedPgn Binary64) : Prop where
  /-- No key has a quote or a backslash in it. -/
  keys : ∀ style ∈ [CamelCase.off, .lower],
    ∀ f ∈ shownFields (styleOptions includeEmpty style) d,
    ∀ k ∈ memberKeys (styleOptions includeEmpty style) f, ∀ c ∈ k, isPlain c = true
  wrapper : d.id.val ∉ headerKeys
  definition : ∀ p ∈ db.pgns, p.id = info.id → p = info
  timestamp : d.timestamp = none → FoundAlike includeEmpty d "timestamp".toList "timestamp".toList
  fields : ∀ fi ∈ info.fields, fi.isRead →
    FoundAlike includeEmpty d fi.name.toList fi.id.val.toList

/-! ## One style -/

theorem Identifier.plain (id : Identifier) : ∀ c ∈ id.val.toList, isPlain c = true := fun c hc =>
  (isPlain_identChar (List.all_eq_true.mp id.ident c hc)).1

theorem fieldText_style (includeEmpty : Bool) (style : CamelCase) (payload : List UInt8)
    (f : DecodedField Binary64) :
    fieldText (styleOptions includeEmpty style) payload f =
      writeFieldValue (styleOptions includeEmpty style) f := by
  rw [fieldText, if_neg (show ¬(styleOptions includeEmpty style).debug = true from
    Bool.false_ne_true)]

theorem writeLeaf_style (includeEmpty : Bool) (style style' : CamelCase)
    (f : DecodedField Binary64) (value : FieldValue Binary64) :
    writeLeaf (styleOptions includeEmpty style) f value =
      writeLeaf (styleOptions includeEmpty style') f value := by
  cases value <;> rfl

section

variable {includeEmpty : Bool} {style : CamelCase} {d : DecodedPgn Binary64} {key : List Char}
  (hkey : IsKey key)
  (hwrapper : style ≠ .off → (∀ c ∈ displayName style d.description d.id, isPlain c = true) ∧
    displayName style d.description d.id ≠ key)
  (hkeys : ∀ f ∈ shownFields (styleOptions includeEmpty style) d,
    ∀ k ∈ memberKeys (styleOptions includeEmpty style) f, ∀ c ∈ k, isPlain c = true)

include hkey hkeys

theorem passedField_of_not_mem {f : DecodedField Binary64} (hf : f ∈ shownFields (styleOptions includeEmpty style) d)
    (hnot : key ∉ memberKeys (styleOptions includeEmpty style) f) :
    PassedField (styleOptions includeEmpty style) d.data key f := by
  have hplain := hkeys f hf
  rw [memberKeys, List.mem_cons, not_or] at hnot
  refine ⟨hplain _ List.mem_cons_self, Ne.symm hnot.1, ?_⟩
  rw [fieldText_style]
  exact passes_writeFieldValue hkey _ f (fun k hk => hplain k (List.mem_cons_of_mem _ hk)) hnot.2

include hwrapper

/-- A key that is in no member is in no text of the line. -/
theorem value_of_not_found (hnot : key ∉ lineKeys (styleOptions includeEmpty style) d)
    (hfound : found includeEmpty style d key = none) :
    value (writeJson (styleOptions includeEmpty style) d) key = none := by
  have hpassed : ∀ f ∈ shownFields (styleOptions includeEmpty style) d,
      PassedField (styleOptions includeEmpty style) d.data key f := by
    intro f hf
    have hmem := List.find?_eq_none.mp hfound f hf
    exact passedField_of_not_mem hkey hkeys hf fun h => hmem (decide_eq_true h)
  have h := afterKey?_absent hkey
    (fun hs => (hwrapper hs).1) (fun hs => (hwrapper hs).2) hnot hpassed
  rw [value, h]
  rfl

/-- A key that is a field's own finds the field's text. -/
theorem value_of_found (hnot : key ∉ lineKeys (styleOptions includeEmpty style) d)
    {f : DecodedField Binary64} (hfound : found includeEmpty style d key = some f)
    (hleaf : f.IsLeaf) (hlabel : fieldLabel (styleOptions includeEmpty style) f = key) :
    ∃ t, EndsValue t ∧ value (writeJson (styleOptions includeEmpty style) d) key =
      valueText (writeLeaf (styleOptions includeEmpty style) f f.value ++ t) := by
  obtain ⟨-, ps, qs, hsplit, hps⟩ := List.find?_eq_some_iff_append.mp hfound
  have hmem : ∀ g ∈ ps ++ f :: qs, g ∈ shownFields (styleOptions includeEmpty style) d := fun g hg => hsplit ▸ hg
  have hpassed : ∀ g ∈ ps, PassedField (styleOptions includeEmpty style) d.data key g := by
    intro g hg
    have h := hps g hg
    rw [Bool.not_eq_true'] at h
    exact passedField_of_not_mem hkey hkeys (hmem g (List.mem_append_left _ hg))
      (of_decide_eq_false h)
  have hplain : ∀ g ∈ qs, ∀ c ∈ fieldLabel (styleOptions includeEmpty style) g,
      isPlain c = true := fun g hg =>
    hkeys g (hmem g (List.mem_append_right _ (List.mem_cons_of_mem _ hg))) _ List.mem_cons_self
  obtain ⟨t, ht, hsearch⟩ := afterKey?_field hkey
    (fun hs => (hwrapper hs).1) (fun hs => (hwrapper hs).2) hnot
    hsplit hpassed hlabel hplain
  refine ⟨t, ht, ?_⟩
  rw [value, hsearch, Option.bind_some, fieldText_style, writeFieldValue_of_leaf _ hleaf]

end

/-! ## Both styles -/

section

variable {includeEmpty : Bool} {d : DecodedPgn Binary64}

theorem wrapper_off {key : List Char} : CamelCase.off ≠ .off →
    (∀ c ∈ displayName .off d.description d.id, isPlain c = true) ∧
      displayName .off d.description d.id ≠ key :=
  fun h => absurd rfl h

theorem wrapper_lower {key : List Char} (hne : key ≠ d.id.val.toList) : CamelCase.lower ≠ .off →
    (∀ c ∈ displayName .lower d.description d.id, isPlain c = true) ∧
      displayName .lower d.description d.id ≠ key :=
  fun _ => ⟨d.id.plain, hne.symm⟩

/-- The reader finds one value in both lines. -/
theorem FoundAlike.value_eq {name id : List Char} (h : FoundAlike includeEmpty d name id)
    (hkeys : ∀ style ∈ [CamelCase.off, .lower],
    ∀ f ∈ shownFields (styleOptions includeEmpty style) d,
      ∀ k ∈ memberKeys (styleOptions includeEmpty style) f, ∀ c ∈ k, isPlain c = true) :
    value (writeJson (styleOptions includeEmpty .off) d) name =
      value (writeJson (styleOptions includeEmpty .lower) d) id := by
  have hoff := hkeys .off (by decide)
  have hlower := hkeys .lower (by decide)
  have hsame := h.same
  cases hfound : found includeEmpty .off d name with
  | none =>
      rw [hfound] at hsame
      rw [value_of_not_found h.nameKey wrapper_off hoff h.notRecord hfound,
        value_of_not_found h.idKey (wrapper_lower h.notWrapper) hlower h.notRecordCamel hsame.symm]
  | some f =>
      rw [hfound] at hsame
      obtain ⟨hleaf, hnames, hname, hid⟩ := h.own f hfound
      obtain ⟨t, ht, hvalue⟩ := value_of_found h.nameKey wrapper_off hoff h.notRecord hfound hleaf
        hname
      obtain ⟨t', ht', hvalue'⟩ := value_of_found h.idKey (wrapper_lower h.notWrapper) hlower
        h.notRecordCamel hsame.symm hleaf hid
      obtain ⟨v, hv⟩ := delimited_writeLeaf (styleOptions includeEmpty .off) f f.value hnames
      rw [hvalue, hvalue', writeLeaf_style includeEmpty .lower .off, hv t ht, hv t' ht']

theorem int_congr {line line' key key' : List Char} (h : value line key = value line' key') :
    int line key = int line' key' := by
  rw [int_eq, int_eq, h]

theorem number_congr {line line' key key' : List Char} (h : value line key = value line' key') :
    (number line key : Option Binary64) = number line' key' := by
  rw [number_eq, number_eq, h]

/-- What is read of a field depends on the value that its key finds, and on no other part of the
line. -/
theorem fieldValueFromJson_congr {line line' : List Char} (fi : FieldInfo Binary64)
    (db : PgnDatabase Binary64) {useCamel useCamel' : Bool}
    (h : value line (fieldKey useCamel fi) = value line' (fieldKey useCamel' fi)) :
    fieldValueFromJson line fi db useCamel = fieldValueFromJson line' fi db useCamel' := by
  have hint := int_congr h
  have hnumber := number_congr h
  have hmmsi : mmsiFromJson line (fieldKey useCamel fi) =
      mmsiFromJson line' (fieldKey useCamel' fi) := by
    rw [mmsiFromJson, mmsiFromJson, lookupInt_eq_int, lookupInt_eq_int, hint, h]
  unfold fieldValueFromJson nestedOrBareInt
  simp only [lookupInt_eq_int, hint, hnumber, hmmsi, h]

theorem fieldValueFromJson_of_not_read {fi : FieldInfo Binary64} (h : fi.isRead = false)
    (line : List Char) (db : PgnDatabase Binary64) (useCamel : Bool) :
    fieldValueFromJson line fi db useCamel = none := by
  unfold FieldInfo.isRead at h
  unfold fieldValueFromJson
  split at h <;> simp_all

end

/-! ## The record -/

section

variable {includeEmpty : Bool} {d : DecodedPgn Binary64}

theorem mem_headers {key v : List Char} {style : CamelCase}
    (hmem : (key, v) ∈ fixedHeaders (styleOptions includeEmpty style) d) :
    (key, v) ∈ headers (styleOptions includeEmpty style) d := by
  rw [headers]
  split
  · exact List.mem_cons_of_mem _ hmem
  · exact hmem

theorem endsBare_numberText {n : ℕ} {line key t : List Char} (ht : EndsValue t)
    (h : afterKey? key line = some (digits n ++ t)) : value line key = some (digits n) := by
  obtain ⟨c, r, rfl, hc⟩ := endsBare_of_ends ht
  rw [value, h, Option.bind_some, valueText_digits n hc]

/-- The numbers before the fields. -/
theorem value_header {style : CamelCase} {key : List Char} {n : ℕ}
    (hkey : IsKey key) (hwrapper : style ≠ .off →
      (∀ c ∈ displayName style d.description d.id, isPlain c = true) ∧
        displayName style d.description d.id ≠ key)
    (hmem : (key, digits n) ∈ fixedHeaders (styleOptions includeEmpty style) d) :
    value (writeJson (styleOptions includeEmpty style) d) key = some (digits n) := by
  obtain ⟨t, ht, hsearch⟩ := afterKey?_header hkey
    (fun hs => (hwrapper hs).1) (fun hs => (hwrapper hs).2) (mem_headers hmem)
  exact endsBare_numberText ht hsearch

theorem value_timestamp {style : CamelCase} {ts : String} (hts : d.timestamp = some ts)
    (hwrapper : style ≠ .off →
      (∀ c ∈ displayName style d.description d.id, isPlain c = true) ∧
        displayName style d.description d.id ≠ "timestamp".toList) :
    ∃ t, EndsValue t ∧ value (writeJson (styleOptions includeEmpty style) d) "timestamp".toList =
      valueText (writeJsonString (normalizeTimestamp ts.toList) ++ t) := by
  have hmem : ("timestamp".toList, writeJsonString (normalizeTimestamp ts.toList)) ∈
      headers (styleOptions includeEmpty style) d := by
    rw [headers, hts]
    exact List.mem_cons_self
  obtain ⟨t, ht, hsearch⟩ := afterKey?_header (by decide)
    (fun hs => (hwrapper hs).1) (fun hs => (hwrapper hs).2) hmem
  refine ⟨t, ht, ?_⟩
  rw [value, hsearch, Option.bind_some]

/-- No wrapper is one of the record's own keys. -/
theorem ne_of_not_header (hwrapper : d.id.val ∉ headerKeys) :
    ∀ s ∈ headerKeys, s.toList ≠ d.id.val.toList := by
  intro s hs heq
  exact hwrapper (String.toList_inj.mp heq ▸ hs)

/-- The members before the fields are read alike. -/
theorem ReadAlike.value_record {db : PgnDatabase Binary64} {info : PgnInfo Binary64}
    (h : ReadAlike includeEmpty db info d) {k : List Char}
    (hk : k ∈ ["timestamp".toList, "prio".toList, "src".toList, "dst".toList, "pgn".toList]) :
    value (writeJson (styleOptions includeEmpty .off) d) k =
      value (writeJson (styleOptions includeEmpty .lower) d) k := by
  have hne := ne_of_not_header h.wrapper
  have hnumber : ∀ {s : String} {n : ℕ}, s ∈ headerKeys → IsKey s.toList →
      (∀ style, (s.toList, digits n) ∈ fixedHeaders (styleOptions includeEmpty style) d) →
      value (writeJson (styleOptions includeEmpty .off) d) s.toList =
        value (writeJson (styleOptions includeEmpty .lower) d) s.toList := by
    intro s n hs hkey hmem
    rw [value_header hkey wrapper_off (hmem .off),
      value_header hkey (wrapper_lower (hne s hs)) (hmem .lower)]
  simp only [List.mem_cons, List.not_mem_nil, or_false] at hk
  rcases hk with rfl | rfl | rfl | rfl | rfl
  · cases hts : d.timestamp with
    | none => exact (h.timestamp hts).value_eq h.keys
    | some ts =>
        obtain ⟨t, ht, hvalue⟩ := value_timestamp hts wrapper_off
        obtain ⟨t', ht', hvalue'⟩ := value_timestamp hts
          (wrapper_lower (hne "timestamp" (by decide)))
        obtain ⟨v, hv⟩ := delimited_str (str_writeJsonString (normalizeTimestamp ts.toList))
        rw [hvalue, hvalue', hv t ht, hv t' ht']
  · exact hnumber (s := "prio") (n := d.prio.toNat) (by decide) (by decide)
      fun style => by simp [fixedHeaders]
  · exact hnumber (s := "src") (n := d.src.toNat) (by decide) (by decide)
      fun style => by simp [fixedHeaders]
  · exact hnumber (s := "dst") (n := d.dst.toNat) (by decide) (by decide)
      fun style => by simp [fixedHeaders]
  · exact hnumber (s := "pgn") (n := d.pgn.toNat) (by decide) (by decide)
      fun style => by simp [fixedHeaders]

theorem int_pgn_header {style : CamelCase} (hwrapper : style ≠ .off →
      (∀ c ∈ displayName style d.description d.id, isPlain c = true) ∧
        displayName style d.description d.id ≠ "pgn".toList) :
    int (writeJson (styleOptions includeEmpty style) d) "pgn".toList =
      some (Int64.ofNat d.pgn.toNat) := by
  have hmem : ("pgn".toList, digits d.pgn.toNat) ∈
      fixedHeaders (styleOptions includeEmpty style) d := by
    simp [fixedHeaders]
  obtain ⟨t, ht, hsearch⟩ := afterKey?_header (by decide)
    (fun hs => (hwrapper hs).1) (fun hs => (hwrapper hs).2) (mem_headers hmem)
  exact NumberText.int_eq .bare hsearch ht (Nat.lt_trans d.pgn.toNat_lt (by decide))

theorem int_pgn_style (includeEmpty : Bool) (d : DecodedPgn Binary64) :
    int (writeJson (styleOptions includeEmpty .off) d) "pgn".toList =
      some (Int64.ofNat d.pgn.toNat) :=
  int_pgn_header wrapper_off

/-- The wrapper of a line with identifiers for its keys. -/
theorem camelWrapperId_lower (hwrapper : d.id.val ∉ headerKeys) :
    camelWrapperId (String.ofList (writeJson (styleOptions includeEmpty .lower) d)) =
      some d.id.val := by
  have hval : String.ofList (displayName .lower d.description d.id) = d.id.val :=
    String.ofList_toList
  have hw := camelWrapperId_writeJson (styleOptions includeEmpty .lower) d fun _ => d.id.plain
  rw [hw, show (styleOptions includeEmpty .lower).camelCase = .lower from rfl,
    if_neg (by decide), hval, if_neg hwrapper]

theorem toUInt32_ofNat (n : UInt32) : (Int64.ofNat n.toNat).toUInt64.toUInt32 = n := by
  apply UInt32.toBitVec_inj.mp
  simp

end

/-- The lines of a record in the two styles are read back to one record. -/
theorem jsonToDecoded_styles (includeEmpty : Bool) (db : PgnDatabase Binary64)
    (info : PgnInfo Binary64) (d : DecodedPgn Binary64) (hfirst : db.firstPgn d.pgn = some info)
    (hid : d.id = info.id) (h : ReadAlike includeEmpty db info d) :
    ∃ r, jsonToDecoded (writeJson (styleOptions includeEmpty .off) d) db = some r ∧
      jsonToDecoded (writeJson (styleOptions includeEmpty .lower) d) db = some r := by
  have hmem : info ∈ db.pgns := List.mem_of_find?_eq_some hfirst
  have hoff : camelWrapperId (String.ofList (writeJson (styleOptions includeEmpty .off) d)) =
      none := camelWrapperId_writeJson _ d fun hs => absurd rfl hs
  have hlower : camelWrapperId (String.ofList (writeJson (styleOptions includeEmpty .lower) d)) =
      some info.id.val := by
    rw [camelWrapperId_lower h.wrapper, hid]
  have hint : ∀ k ∈ ["timestamp".toList, "prio".toList, "src".toList, "dst".toList, "pgn".toList],
      int (writeJson (styleOptions includeEmpty .off) d) k =
        int (writeJson (styleOptions includeEmpty .lower) d) k :=
    fun k hk => int_congr (h.value_record hk)
  have hpgn := int_pgn_style includeEmpty d
  have hpgn' := (hint "pgn".toList (by decide)).symm.trans hpgn
  have hinfo : jsonPgnInfo db none (Int64.ofNat d.pgn.toNat).toUInt64.toUInt32 = some info := by
    rw [jsonPgnInfo, toUInt32_ofNat, hfirst]
  have hfields : ∀ fi ∈ info.fields,
      fieldValueFromJson (writeJson (styleOptions includeEmpty .off) d) fi db false =
        fieldValueFromJson (writeJson (styleOptions includeEmpty .lower) d) fi db true := by
    intro fi hfi
    cases hread : fi.isRead with
    | false => rw [fieldValueFromJson_of_not_read hread, fieldValueFromJson_of_not_read hread]
    | true => exact fieldValueFromJson_congr fi db ((h.fields fi hfi hread).value_eq h.keys)
  refine ⟨_, jsonToDecoded_eq hoff hpgn hinfo, ?_⟩
  rw [jsonToDecoded_eq hlower hpgn' (jsonPgnInfo_of_id hmem h.definition _)]
  exact congrArg some (readRecord_congr (h.value_record (by decide)) (hint _ (by decide))
    (hint _ (by decide)) (hint _ (by decide)) hfields).symm

/-- The number asked for. -/
def requestField : FieldInfo Binary64 :=
  { claimNumber 1 ⟨"pgn", Eq.refl true⟩ "PGN" 0 24 with fieldType := some .pgn, signed := none }

/-- PGN 59904, of which there is one definition. -/
def isoRequest : PgnInfo Binary64 where
  pgn := 59904
  id := ⟨"isoRequest", Eq.refl true⟩
  description := "ISO Request"
  packetType := .single
  fallback := none
  priority := some 6
  length := some 3
  fields := [requestField]
  repeatingFieldSet1 := .none
  repeatingFieldSet2 := .none
  idIsPinned := false

def requestDatabase : PgnDatabase Binary64 where
  units := .metric
  pgns := [isoRequest]
  lookups := []
  bitLookups := []
  indirectLookups := []
  fieldTypeLookups := []
  claimFlat := by decide +kernel

/-- A request for PGN 60928. -/
def isoRequestFrame : RawFrame where
  timestamp := none
  prio := 6
  pgn := 59904
  src := 1
  dst := 255
  data := [0x00, 0xee, 0x00]

def requestedField : DecodedField Binary64 where
  info := requestField
  value := .pgn 60928 none
  bitOffset := some 0
  bitLength := some 24
  repeatIndex := none
  repeatSet := 0
  overrides := none

def isoRequestRecord : DecodedPgn Binary64 where
  timestamp := none
  prio := 6
  pgn := 59904
  src := 1
  dst := 255
  description := isoRequest.description
  id := isoRequest.id
  idIsPinned := false
  data := isoRequestFrame.data
  fields := [requestedField]
  hasRepeatingSet := (false, false)
  indexByOrder := buildIndexByOrder [requestedField]

theorem decode_request : requestDatabase.decode isoRequestFrame = .ok isoRequestRecord := by
  have hpick : requestDatabase.pickVariant isoRequestFrame = some isoRequest :=
    requestDatabase.pickVariant_of_single (by decide +kernel) rfl (by decide +kernel)
  rw [PgnDatabase.decode, hpick]
  rfl

/-- The reader of the identifiers finds the number of the request itself. -/
theorem int_request :
    int (writeJson (styleOptions false .off) isoRequestRecord) "PGN".toList = some 60928 ∧
      int (writeJson (styleOptions false .lower) isoRequestRecord) "pgn".toList = some 59904 := by
  have hoff : value (writeJson (styleOptions false .off) isoRequestRecord) "PGN".toList =
      some "\x7b\"value\":60928\x7d".toList := by decide +kernel
  have hvalue : value "\x7b\"value\":60928\x7d".toList "value".toList = some "60928".toList := by
    decide +kernel
  have hlower : value (writeJson (styleOptions false .lower) isoRequestRecord) "pgn".toList =
      some "59904".toList := by decide +kernel
  constructor
  · rw [int_eq, hoff, Option.bind_some, if_pos (by decide), int_eq, hvalue, Option.bind_some,
      if_neg (by decide)]
    decide
  · rw [int_eq, hlower, Option.bind_some, if_neg (by decide)]
    decide

theorem readRecord_request (line : List Char) (pgn : UInt32) (useCamel : Bool) :
    (readRecord line requestDatabase isoRequest pgn useCamel).fields.map (·.value) =
      ((int line (fieldKey useCamel requestField)).map fun v =>
        FieldValue.pgn v.toUInt64.toUInt32 none).toList := by
  have hvalue : fieldValueFromJson line requestField requestDatabase useCamel =
      (int line (fieldKey useCamel requestField)).map fun v =>
        .pgn v.toUInt64.toUInt32 none := by
    have hint : nestedOrBareInt line (fieldKey useCamel requestField) =
        int line (fieldKey useCamel requestField) := by
      rw [nestedOrBareInt, lookupInt_eq_int, Option.or_self]
    rw [← hint]
    rfl
  rw [readRecord, isoRequest, List.filterMap_cons, hvalue]
  cases int line (fieldKey useCamel requestField) <;> rfl

/-- A request for PGN 60928 reads back as one for PGN 59904, where the keys are identifiers. -/
theorem jsonToDecoded_isoRequest :
    requestDatabase.decode isoRequestFrame = .ok isoRequestRecord ∧
      requestDatabase.firstPgn isoRequestRecord.pgn = some isoRequest ∧
      isoRequestRecord.id = isoRequest.id ∧
      ¬∃ r, jsonToDecoded (writeJson (styleOptions false .off) isoRequestRecord) requestDatabase =
          some r ∧
        jsonToDecoded (writeJson (styleOptions false .lower) isoRequestRecord) requestDatabase =
          some r := by
  refine ⟨decode_request, rfl, rfl, ?_⟩
  rintro ⟨r, hoff, hlower⟩
  obtain ⟨hfield, hfield'⟩ := int_request
  have hwrapper : camelWrapperId (String.ofList (writeJson (styleOptions false .lower)
      isoRequestRecord)) = some "isoRequest" := by decide +kernel
  have hbare : camelWrapperId (String.ofList (writeJson (styleOptions false .off)
      isoRequestRecord)) = none := camelWrapperId_writeJson _ _ fun h => absurd rfl h
  rw [jsonToDecoded_eq hbare (int_pgn_style false isoRequestRecord) rfl] at hoff
  rw [jsonToDecoded_eq hwrapper hfield' rfl] at hlower
  have hvalues := congrArg (fun d => d.fields.map (·.value))
    (Option.some.inj (hoff.trans hlower.symm))
  simp only [readRecord_request] at hvalues
  rw [show fieldKey (none : Option String).isSome requestField = "PGN".toList from rfl,
    show fieldKey (some "isoRequest").isSome requestField = "pgn".toList from rfl, hfield,
    hfield'] at hvalues
  cases hvalues

def sidField : FieldInfo Binary64 :=
  { claimNumber 1 ⟨"sid", Eq.refl true⟩ "SID" 0 8 with
    unknownValue := some 255, outOfRangeValue := some 254, reservedValue := some 253 }

/-- PGN 60160. -/
def isoDataTransfer : PgnInfo Binary64 where
  pgn := 60160
  id := ⟨"isoTransportProtocolDataTransfer", Eq.refl true⟩
  description := "ISO Transport Protocol, Data Transfer"
  packetType := .single
  fallback := none
  priority := some 6
  length := some 8
  fields :=
    [sidField,
      { claimNumber 2 ⟨"data", by decide⟩ "Data" 8 56 with
        fieldType := some .binary, signed := none }]
  repeatingFieldSet1 := .none
  repeatingFieldSet2 := .none
  idIsPinned := false

def transferDatabase : PgnDatabase Binary64 := { requestDatabase with
  pgns := [isoDataTransfer]
  claimFlat := by decide +kernel }

/-- Packet 5 of a transfer. -/
def transferRecord : DecodedPgn Binary64 where
  timestamp := none
  prio := 7
  pgn := 60160
  src := 1
  dst := 255
  description := isoDataTransfer.description
  id := isoDataTransfer.id
  idIsPinned := false
  data := [5]
  fields := [{ requestedField with info := sidField, value := .integer 5, bitLength := some 8 }]
  hasRepeatingSet := (false, false)
  indexByOrder := []

theorem jsonToDecoded_isoDataTransfer :
    ∃ r, jsonToDecoded (writeJson (styleOptions false .off) transferRecord) transferDatabase =
        some r ∧
      jsonToDecoded (writeJson (styleOptions false .lower) transferRecord) transferDatabase =
        some r := by
  refine jsonToDecoded_styles false transferDatabase isoDataTransfer transferRecord rfl rfl ?_
  refine ⟨?_, by decide, fun p hp _ => List.mem_singleton.mp hp, fun _ => ?_, ?_⟩
  · decide +kernel
  · exact ⟨by decide, by decide, by decide +kernel, by decide +kernel, by decide +kernel, rfl,
      by rintro _ ⟨⟩⟩
  · intro fi hfi hread
    have hsid : fi = sidField := by
      simp only [isoDataTransfer, List.mem_cons, List.not_mem_nil, or_false] at hfi
      rcases hfi with rfl | rfl
      · rfl
      · cases hread
    subst hsid
    refine ⟨by decide +kernel, by decide +kernel, by decide +kernel, by decide +kernel,
      by decide +kernel, rfl, fun f hf => ?_⟩
    cases hf
    exact ⟨by rintro _ _ ⟨⟩, trivial, rfl, rfl⟩

end Canboat
