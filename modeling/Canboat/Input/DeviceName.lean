import Canboat.Decode.DeviceName
import Canboat.Input.ReadBack

/-!
# The NAME of a device, by way of JSON

The same NAME is packed from the record that a line of an address claim is read back to.
-/

namespace Canboat

open Json AnalyzerJson
open Binary64 (digits)

/-! ## The line of a claim -/

/-- The database has the one definition of the claim, and its names hold no braces. -/
structure HoldsClaim (db : PgnDatabase Binary64) : Prop where
  built : (Build.generate (db.pgns.map PgnInfo.raw)).isSome
  variants : db.pgnVariants 60928 = [isoAddressClaim]
  ids : ∀ p ∈ db.pgns, p.id = isoAddressClaim.id → p = isoAddressClaim
  names : ∀ t ∈ db.lookups, ∀ v ∈ t.values, NoBraces v.name.toList
  indirectNames : ∀ t ∈ db.indirectLookups, ∀ v ∈ t.values, NoBraces v.name.toList

theorem HoldsClaim.pickVariant {db : PgnDatabase Binary64} (hdb : HoldsClaim db)
    {frame : RawFrame} (hpgn : frame.pgn = 60928) : db.pickVariant frame = some isoAddressClaim := by
  refine db.pickVariant_of_single hdb.built ?_ (by decide +kernel)
  rw [hpgn]
  exact hdb.variants

theorem HoldsClaim.firstPgn {db : PgnDatabase Binary64} (hdb : HoldsClaim db) :
    db.firstPgn 60928 = some isoAddressClaim := by
  have h := congrArg List.head? hdb.variants
  rwa [PgnDatabase.pgnVariants, List.head?_filter] at h

theorem HoldsClaim.mem {db : PgnDatabase Binary64} (hdb : HoldsClaim db) :
    isoAddressClaim ∈ db.pgns := by
  have h : isoAddressClaim ∈ db.pgnVariants 60928 := by
    rw [hdb.variants]
    exact List.mem_singleton_self _
  exact List.mem_of_mem_filter h

theorem HoldsClaim.patternName {db : PgnDatabase Binary64} (hdb : HoldsClaim db)
    (data : List UInt8) (f : FieldInfo Binary64) :
    ∀ s, Canboat.patternName db data f = some s → NoBraces s.toList := by
  intro s hs
  unfold Canboat.patternName at hs
  split at hs
  · obtain ⟨v, hv, rfl⟩ := Option.map_eq_some_iff.mp hs
    obtain ⟨t, ht, hget⟩ := Option.bind_eq_some_iff.mp hv
    obtain ⟨name, -, hlookup⟩ := Option.bind_eq_some_iff.mp ht
    exact hdb.names t (List.mem_of_find?_eq_some hlookup) v (List.mem_of_find?_eq_some hget)
  · simp only [indirectName, Option.bind_eq_bind, Option.bind_eq_some_iff] at hs
    obtain ⟨table, -, order, -, field, -, off, -, len, -, ex, -, hs⟩ := hs
    obtain ⟨t, ht, hv⟩ := Option.bind_eq_some_iff.mp hs
    obtain ⟨v, hget, rfl⟩ := Option.map_eq_some_iff.mp hv
    exact hdb.indirectNames t (List.mem_of_find?_eq_some ht) v (List.mem_of_find?_eq_some hget)
  · cases hs

/-- The claim's fields, but for the spare bit. -/
def namedFields : List (FieldInfo Binary64) :=
  isoAddressClaim.fields.filter (·.fieldType ≠ some .spare)

def claimLabel (mode : CamelCase) (f : FieldInfo Binary64) : List Char :=
  displayName mode f.name f.id

/-- Each field has a key of its own, which nothing else in the line has. -/
theorem claimLabels {mode : CamelCase} (hmode : mode ≠ .upper) :
    (namedFields.map (claimLabel mode)).Nodup ∧
      ∀ f ∈ namedFields, IsKey (claimLabel mode f) ∧ claimLabel mode f ∉ recordKeys ∧
        claimLabel mode f ∉ "value".toList :: objectKeys ∧
        displayName mode isoAddressClaim.description isoAddressClaim.id ≠ claimLabel mode f := by
  cases mode with
  | off => decide +kernel
  | lower => decide +kernel
  | upper => exact absurd rfl hmode

theorem toInt64_eq_ofNat (x : UInt64) : x.toInt64 = Int64.ofNat x.toNat := by
  apply Int64.toBitVec.inj
  simp

theorem claimField_place {f : FieldInfo Binary64} (hf : f ∈ isoAddressClaim.fields) :
    ∃ off len, f.Placed off len ∧ 0 < len.toNat ∧ off.toNat + len.toNat ≤ 64 ∧ len.toNat ≤ 21 := by
  have hroom : ∀ f ∈ isoAddressClaim.fields, (f.bitOffset.all fun off => f.bitLength.all fun len =>
      decide (0 < len.toNat ∧ off.toNat + len.toNat ≤ 64 ∧ len.toNat ≤ 21)) = true := by
    decide +kernel
  obtain ⟨off, len, hplaced⟩ := isoAddressClaim_placed f hf
  have hf := hroom f hf
  rw [hplaced.offset, hplaced.length] at hf
  exact ⟨off, len, hplaced, of_decide_eq_true hf⟩

/-- No pattern is as wide as a 64-bit number. -/
theorem pattern_lt {f : FieldInfo Binary64} (hf : f ∈ isoAddressClaim.fields)
    (data : List UInt8) : (pattern data f).toNat < 9223372036854775808 := by
  obtain ⟨off, len, hplaced, -, -, hlen⟩ := claimField_place hf
  have hlt := bitsAt_lt data off.toNat len.toNat
  have hpow : 2 ^ len.toNat ≤ 2 ^ 21 := Nat.pow_le_pow_right (by decide) hlen
  rw [pattern, hplaced.offset, hplaced.length, Option.getD_some, Option.getD_some,
    UInt64.toNat_ofNat']
  omega

section

variable {db : PgnDatabase Binary64} {frame : RawFrame} {opts : JsonOptions}

/-- What is known of the frame and the options. -/
structure ClaimLine (db : PgnDatabase Binary64) (frame : RawFrame) (opts : JsonOptions) : Prop where
  holds : HoldsClaim db
  pgn : frame.pgn = 60928
  length : frame.data.length = 8
  spare : bitsAt frame.data 48 1 = 0
  shown : ∀ f ∈ isoAddressClaim.fields, ¬Withheld db frame.data f
  nameValue : opts.nameValue = true
  mode : opts.camelCase ≠ .upper

/-- The claim's field in the decoded record. -/
def claimField (db : PgnDatabase Binary64) (frame : RawFrame) (f : FieldInfo Binary64) :
    DecodedField Binary64 :=
  placedField isoAddressClaim frame.data db f

theorem claimField_value (h : ClaimLine db frame opts) {f : FieldInfo Binary64}
    (hf : f ∈ namedFields) :
    (claimField db frame f).value =
      if f.fieldType = some .number then .integer (pattern frame.data f).toInt64
      else .lookup (pattern frame.data f) (patternName db frame.data f) := by
  have hunscaled : ∀ f ∈ isoAddressClaim.fields, f.fieldType = some .number →
      unscaled f = true := by
    decide +kernel
  obtain ⟨hmem, htype⟩ := List.mem_filter.mp hf
  obtain ⟨off, len, hplaced, hpos, hroom, hwidth⟩ := claimField_place hmem
  have hlength := h.length
  exact placedValue_of_not_withheld db frame.data hplaced (of_decide_eq_true htype)
    (hunscaled f hmem) hpos (by omega) (by omega) (h.shown f hmem)

theorem numberText_claimField (h : ClaimLine db frame opts) {f : FieldInfo Binary64}
    (hf : f ∈ namedFields) :
    NumberText (pattern frame.data f).toNat
      (Canboat.fieldText opts frame.data (claimField db frame f)) := by
  have hvalue := claimField_value h hf
  split_ifs at hvalue
  · refine numberText_integer h.nameValue frame.data _ hvalue ?_
    rw [toInt64_eq_ofNat, Int64.toInt_ofNat_of_lt (pattern_lt (List.mem_of_mem_filter hf) _)]
  · exact numberText_lookup h.nameValue frame.data _ hvalue (h.holds.patternName frame.data f)

theorem spareField_value (h : ClaimLine db frame opts) {f : FieldInfo Binary64}
    (hf : f ∈ isoAddressClaim.fields) (htype : f.fieldType = some .spare) :
    (claimField db frame f).value = .spare 0 [0] 1 := by
  have hplace : ∀ f ∈ isoAddressClaim.fields, f.fieldType = some .spare →
      f.bitOffset = some 48 ∧ f.bitLength = some 1 ∧ f.signed = none ∧ f.offset = none := by
    decide +kernel
  obtain ⟨hoff, hlen, hsigned, hoffset⟩ := hplace f hf htype
  have hlength := h.length
  have hin : 48 + 1 ≤ 8 * frame.data.length := by omega
  obtain ⟨v, w, hextract, hv, -⟩ := extractBits_eq (by decide) (by decide) hin
  have hzero : v = 0 := by
    rw [h.spare] at hv
    exact UInt64.toNat_inj.mp hv
  subst hzero
  rw [claimField, placedField, DecodedField.single, placedValue, hoff, hlen, decodeFixed]
  simp only [htype, hsigned, hoffset, Option.getD_none, Option.getD_some, decodeReserved, extracted]
  rw [show UInt32.toNat 48 = 48 from rfl, show UInt32.toNat 1 = 1 from rfl, hextract]
  rfl

/-- The spare bit is not shown, and every other field is. -/
theorem shown_claimFields (h : ClaimLine db frame opts) :
    (decodedClaim db frame).fields.filter (shown opts (payloadBits (decodedClaim db frame).data)) =
      namedFields.map (claimField db frame) := by
  have hbits : payloadBits frame.data = 64 := by
    rw [payloadBits, h.length]
    rfl
  rw [decodedClaim, List.filter_map, namedFields]
  simp only [hbits]
  congr 1
  refine List.filter_congr fun f hf => ?_
  obtain ⟨off, len, hplaced, hpos, hroom, -⟩ := claimField_place hf
  have hin : ¬(64 : UInt32) ≤ off := by
    rw [UInt32.le_iff_toNat_le]
    change ¬64 ≤ off.toNat
    omega
  have hoffset : ((claimField db frame f).bitOffset.map fun bo => decide ((64 : UInt32) ≤ bo)) =
      some false := by
    rw [claimField, placedField, DecodedField.single, hplaced.offset]
    simp only [Option.map_some, Option.getD_some, decide_eq_false hin]
  by_cases htype : f.fieldType = some .spare
  · have hvalue := spareField_value h hf htype
    rw [Function.comp, shown, show placedField isoAddressClaim frame.data db f =
      claimField db frame f from rfl, hoffset, hvalue]
    rw [decide_eq_false (not_not.mpr htype)]
    rfl
  · have hvalue := claimField_value h (List.mem_filter.mpr ⟨hf, decide_eq_true htype⟩)
    rw [Function.comp, shown, show placedField isoAddressClaim frame.data db f =
      claimField db frame f from rfl, hoffset, hvalue]
    rw [decide_eq_true htype]
    split_ifs <;> rfl

theorem claimLabel_plain (h : ClaimLine db frame opts) :
    ∀ c ∈ displayName opts.camelCase isoAddressClaim.description isoAddressClaim.id,
      isPlain c = true := by
  have hmode : ∀ mode ∈ [CamelCase.off, .lower], ∀ c ∈
      displayName mode isoAddressClaim.description isoAddressClaim.id, isPlain c = true := by
    decide +kernel
  refine hmode opts.camelCase ?_
  have := h.mode
  cases hcase : opts.camelCase <;> simp_all

/-- The number of each field is read back from the line. -/
theorem int_claimLine (h : ClaimLine db frame opts) {f : FieldInfo Binary64}
    (hf : f ∈ namedFields) :
    int (writeJson opts (decodedClaim db frame)) (claimLabel opts.camelCase f) =
      some (pattern frame.data f).toInt64 := by
  obtain ⟨hnodup, hlabels⟩ := claimLabels h.mode
  obtain ⟨hkey, hrecord, hobject, hwrapper⟩ := hlabels f hf
  obtain ⟨before, after, hsplit⟩ := List.append_of_mem hf
  have hshown := shown_claimFields h
  rw [hsplit, List.map_append, List.map_cons] at hshown
  have hbefore : ∀ g ∈ before.map (claimField db frame),
      PassedField opts frame.data (claimLabel opts.camelCase f) g := by
    intro g hg
    obtain ⟨f', hf', rfl⟩ := List.mem_map.mp hg
    have hmem : f' ∈ namedFields := by
      rw [hsplit]
      exact List.mem_append_left _ hf'
    refine ⟨(hlabels f' hmem).1.plain, ?_, (numberText_claimField h hmem).passes hkey hobject⟩
    intro heq
    rw [hsplit, List.map_append, List.map_cons] at hnodup
    exact (List.nodup_append.mp hnodup).2.2 _ (List.mem_map_of_mem hf') _ List.mem_cons_self heq
  have hafter : ∀ g ∈ after.map (claimField db frame), ∀ c ∈ fieldLabel opts g,
      isPlain c = true := by
    intro g hg
    obtain ⟨f', hf', rfl⟩ := List.mem_map.mp hg
    have hmem : f' ∈ namedFields := by
      rw [hsplit]
      exact List.mem_append_right _ (List.mem_cons_of_mem _ hf')
    exact (hlabels f' hmem).1.plain
  obtain ⟨t, ht, hsearch⟩ := afterKey?_field (d := decodedClaim db frame) hkey
    (fun _ => claimLabel_plain h) (fun _ => hwrapper) (fun hmem => hrecord (lineKeys_subset _ _ hmem)) hshown
    hbefore rfl hafter
  rw [toInt64_eq_ofNat]
  exact (numberText_claimField h hf).int_eq hsearch ht (pattern_lt (List.mem_of_mem_filter hf) _)

theorem int_pgn (h : ClaimLine db frame opts) :
    int (writeJson opts (decodedClaim db frame)) "pgn".toList = some 60928 := by
  have hmem : ("pgn".toList, digits frame.pgn.toNat) ∈ headers opts (decodedClaim db frame) := by
    have hfixed : ("pgn".toList, digits frame.pgn.toNat) ∈ fixedHeaders opts (decodedClaim db frame) := by
      simp [fixedHeaders, decodedClaim]
    rw [headers]
    split
    · exact List.mem_cons_of_mem _ hfixed
    · exact hfixed
  have hwrapper : opts.camelCase ≠ .off →
      displayName opts.camelCase isoAddressClaim.description isoAddressClaim.id ≠ "pgn".toList := by
    have := h.mode
    cases hcase : opts.camelCase with
    | off => exact fun hoff => absurd rfl hoff
    | lower => exact fun _ => by decide
    | upper => exact absurd hcase this
  obtain ⟨t, ht, hsearch⟩ := afterKey?_header (d := decodedClaim db frame) (by decide)
    (fun _ => claimLabel_plain h) hwrapper hmem
  rw [NumberText.int_eq .bare hsearch ht (by rw [h.pgn]; decide), h.pgn]
  rfl

/-- The line of the claim is wrapped where its keys are identifiers. -/
theorem camelWrapperId_claimLine (h : ClaimLine db frame opts) :
    camelWrapperId (String.ofList (writeJson opts (decodedClaim db frame))) =
      if opts.camelCase = .off then none else some isoAddressClaim.id.val := by
  rw [camelWrapperId_writeJson opts _ fun _ => claimLabel_plain h]
  cases hcase : opts.camelCase with
  | off => rfl
  | lower =>
      have hid : String.ofList (displayName .lower (decodedClaim db frame).description
          (decodedClaim db frame).id) = isoAddressClaim.id.val :=
        String.ofList_toList
      rw [hid, if_neg (by decide), if_neg (by decide), if_neg (by decide)]
  | upper => exact absurd hcase h.mode

theorem jsonPgnInfo_claim (h : ClaimLine db frame opts) :
    jsonPgnInfo db (if opts.camelCase = .off then none else some isoAddressClaim.id.val) 60928 =
      some isoAddressClaim := by
  by_cases hcamel : opts.camelCase = .off
  · rw [if_pos hcamel]
    exact h.holds.firstPgn
  · rw [if_neg hcamel]
    exact jsonPgnInfo_of_id h.holds.mem h.holds.ids 60928

/-- A field that the line gives a value for is found by its name. -/
theorem find?_fromJson (value : FieldInfo Binary64 → Option (FieldValue Binary64)) (name : String)
    (fields : List (FieldInfo Binary64)) {f : FieldInfo Binary64} {v : FieldValue Binary64}
    (hfind : fields.find? (·.name = name) = some f) (hv : value f = some v) :
    (fields.filterMap fun fi => (value fi).map (DecodedField.fromJson fi)).find?
      (fun x => x.repeatSet = 0 ∧ x.info.name = name) = some (.fromJson f v) := by
  induction fields with
  | nil => cases hfind
  | cons g fields ih =>
      rw [List.find?_cons] at hfind
      rw [List.filterMap_cons]
      by_cases hname : g.name = name
      · rw [decide_eq_true hname] at hfind
        cases hfind
        rw [hv, Option.map_some]
        simp only
        rw [List.find?_cons_of_pos (by simp [DecodedField.fromJson, hname])]
      · rw [decide_eq_false hname] at hfind
        cases value g with
        | none => exact ih hfind
        | some w =>
            rw [Option.map_some]
            simp only
            rw [List.find?_cons_of_neg (by simp [DecodedField.fromJson, hname])]
            exact ih hfind

theorem fieldValueFromJson_claim (h : ClaimLine db frame opts) {f : FieldInfo Binary64}
    (hf : f ∈ namedFields) :
    ∃ v, fieldValueFromJson (writeJson opts (decodedClaim db frame)) f db
        (if opts.camelCase = .off then none else some isoAddressClaim.id.val : Option String).isSome =
          some v ∧ v.asI64 = some (pattern frame.data f).toInt64 := by
  have hinteger : ∀ f ∈ namedFields, f.fieldType = some .number → isIntegerField f = true := by
    decide +kernel
  have hint := int_claimLine h hf
  have hkey : fieldKey (if opts.camelCase = .off then none else
      some isoAddressClaim.id.val : Option String).isSome f = claimLabel opts.camelCase f := by
    rw [claimLabel]
    cases hcase : opts.camelCase with
    | off => rfl
    | lower => rfl
    | upper => exact absurd hcase h.mode
  obtain ⟨hmem, htype⟩ := List.mem_filter.mp hf
  obtain ⟨off, len, hplaced, -⟩ := claimField_place hmem
  have htypes := hplaced.type
  simp only [List.mem_cons, List.not_mem_nil, or_false] at htypes
  rw [fieldValueFromJson, hkey]
  rcases htypes with hnumber | hlookup | hlookup | hspare
  · refine ⟨.integer (pattern frame.data f).toInt64, ?_, rfl⟩
    simp only [hnumber]
    rw [if_pos (hinteger f hf hnumber), hint, Option.map_some]
  · refine ⟨.lookup (pattern frame.data f) none, ?_, rfl⟩
    simp only [hlookup]
    rw [lookupInt_eq_int, hint]
    rfl
  · refine ⟨.lookup (pattern frame.data f) none, ?_, rfl⟩
    simp only [hlookup]
    rw [lookupInt_eq_int, hint]
    rfl
  · exact absurd hspare (of_decide_eq_true htype)

/-- The record read back has the payload's number for its NAME. -/
theorem isoName_jsonToDecoded (h : ClaimLine db frame opts) :
    ∃ r, jsonToDecoded (writeJson opts (decodedClaim db frame)) db = some r ∧
      r.isoName = some (payloadName frame.data) := by
  have hr := jsonToDecoded_eq (camelWrapperId_claimLine h) (int_pgn h) (jsonPgnInfo_claim h)
  refine ⟨_, hr, (isoName_eq_iff _ rfl h.length h.spare).mpr fun p hp => ?_⟩
  obtain ⟨f, hf, hfind, hoff, hlen, htype⟩ := nameParts_field hp
  have hnamed : f ∈ namedFields := List.mem_filter.mpr ⟨hf, decide_eq_true htype⟩
  obtain ⟨v, hv, hnumber⟩ := fieldValueFromJson_claim h hnamed
  refine namePart_of_pattern hp hoff hlen ?_
  rw [DecodedPgn.fieldByName, readRecord, find?_fromJson (fun fi =>
    fieldValueFromJson (writeJson opts (decodedClaim db frame)) fi db
      (if opts.camelCase = .off then none else
        some isoAddressClaim.id.val : Option String).isSome) p.name _ hfind hv]
  exact hnumber

end

/-- The payload's number is the NAME of the decoded claim, and of the one read back from its
line in either style, unless the payload has a mark for no value in a field that has no name for
it. -/
theorem isoName_eq_payload_iff (db : PgnDatabase Binary64) (hdb : HoldsClaim db) (frame : RawFrame)
    (hpgn : frame.pgn = 60928) (hlen : frame.data.length = 8)
    (hspare : bitsAt frame.data 48 1 = 0) (opts : JsonOptions) (hnv : opts.nameValue = true)
    (hmode : opts.camelCase ≠ .upper) :
    (∃ d, db.decode frame = .ok d ∧ d.isoName = some (payloadName frame.data) ∧
        ∃ r, jsonToDecoded (writeJson opts d) db = some r ∧
          r.isoName = some (payloadName frame.data)) ↔
      ∀ f ∈ isoAddressClaim.fields, ¬Withheld db frame.data f := by
  have hdecode := decode_claim (hdb.pickVariant hpgn)
  constructor
  · rintro ⟨d, hd, hname, -⟩
    rw [hdecode] at hd
    cases hd
    exact (isoName_decodedClaim db hpgn hlen hspare).mp hname
  · intro hshown
    exact ⟨_, hdecode, (isoName_decodedClaim db hpgn hlen hspare).mpr hshown,
      isoName_jsonToDecoded ⟨hdb, hpgn, hlen, hspare, hshown, hnv, hmode⟩⟩

theorem claimDatabase_holdsClaim : HoldsClaim claimDatabase where
  built := by decide +kernel
  variants := rfl
  ids := fun _ hp _ => List.mem_singleton.mp hp
  names := nofun
  indirectNames := nofun

/-- Unique number 1088507 of manufacturer 275, with this byte for the system instance and the
industry group. -/
def claimFrame (last : UInt8) : RawFrame where
  timestamp := none
  prio := 6
  pgn := 60928
  src := 5
  dst := 255
  data := [0xfb, 0x9b, 0x70, 0x22, 0x00, 0x9b, 0x50, last]

/-- `-nv`. -/
def nameValueOff : JsonOptions :=
  { includeEmpty := false, nameValue := true, debug := false, camelCase := .off }

theorem isoName_eq_payload_claimFrame :
    ∃ d, claimDatabase.decode (claimFrame 0xc0) = .ok d ∧
      d.isoName = some (payloadName (claimFrame 0xc0).data) ∧
      ∃ r, jsonToDecoded (writeJson nameValueOff d) claimDatabase = some r ∧
        r.isoName = some (payloadName (claimFrame 0xc0).data) :=
  (isoName_eq_payload_iff claimDatabase claimDatabase_holdsClaim (claimFrame 0xc0) rfl rfl
    (by decide) nameValueOff rfl (by decide)).mpr (by decide +kernel)

/-- System instance 15 gives the NAME of system instance 0. -/
theorem isoName_systemInstance_fifteen :
    HoldsClaim claimDatabase ∧ bitsAt (claimFrame 0xcf).data 48 1 = 0 ∧
      ¬∃ d, claimDatabase.decode (claimFrame 0xcf) = .ok d ∧
        d.isoName = some (payloadName (claimFrame 0xcf).data) := by
  refine ⟨claimDatabase_holdsClaim, by decide, ?_⟩
  rintro ⟨d, hd, hname⟩
  rw [decode_claim (claimDatabase_holdsClaim.pickVariant rfl)] at hd
  cases hd
  rw [isoName_decodedClaim claimDatabase rfl rfl (by decide)] at hname
  revert hname
  decide +kernel

end Canboat
