import Canboat.Core.BitFields
import Canboat.Decode.Checked

/-!
# The widths of fields

How many bits a field takes, and what the context holds after it.
-/

namespace Canboat

variable {F : Type} [Float64 F]

/-! ## Lengths -/

/-- A field that says how long a later one is. -/
def FieldInfo.CarriesLength (f : FieldInfo F) : Prop :=
  f.fieldType = some .dynamicFieldLength ∨ f.isDynamicLengthMarker = true

/-- A number is decoded as the integer that it is. -/
def FieldInfo.Unscaled (f : FieldInfo F) : Prop :=
  Float64.beq (f.resolution.getD (Float64.ofInt 1)) (Float64.ofInt 1 : F) = true ∧
    f.unit = none ∧ f.physicalQuantity = none ∧
    Float64.beq f.unitOffset (Float64.ofInt 0) = true ∧
    Float64.beq (Float64.ofInt (f.offset.getD 0).toInt) (Float64.ofInt 0 : F) = true

/-! ## Extractions -/

theorem raw_lt_of_extractBits {data : List UInt8} {off len : ℕ} {signed : Bool} {x : Extracted}
    (h : extractBits data off len signed 0 = some x) :
    x.raw.toNat < 2 ^ len ∧ x.value.toInt ≤ x.raw.toNat := by
  by_cases hlen : len = 0 ∨ len > 64
  · rw [extractBits, if_pos hlen] at h
    cases h
  have hlen' : 1 ≤ len ∧ len ≤ 64 := by omega
  by_cases hin : off / 8 < data.length
  · obtain ⟨y, hy, hreads⟩ := extractBits_reads signed hlen'.1 hlen'.2 hin
    rw [hy] at h
    cases h
    have hle : widthLeft data off len ≤ len := Nat.min_le_left _ _
    have hlt : x.raw.toNat < 2 ^ len := by
      rw [hreads.raw]
      exact lt_of_lt_of_le (bitsAt_lt _ _ _) (Nat.pow_le_pow_right (by decide) hle)
    refine ⟨hlt, ?_⟩
    cases signed with
    | false =>
        rw [(hreads.unsigned rfl).1, toInt_toInt64]
        split_ifs <;> omega
    | true =>
        rw [(hreads.signed rfl).1, twosComplement]
        split_ifs
        · exact le_rfl
        · exact Int.sub_le_self _ (Int.natCast_nonneg _)
  · have hbyte : off >>> 3 = off / 8 := Nat.shiftRight_eq_div_pow off 3
    have hout : off / 8 ≥ data.length := Nat.le_of_not_lt hin
    rw [extractBits, if_neg hlen] at h
    dsimp only at h
    rw [hbyte, if_pos hout] at h
    cases h

/-- A value that carries no length, or one of at most sixteen bits. -/
def FieldValue.Short : FieldValue F → Prop
  | .integer n => n.toInt ≤ 65535
  | .number _ => False
  | _ => True

omit [Float64 F] in
theorem extracted_short {data : List UInt8} {bitOffset bitLength : UInt32} {signed : Bool}
    {offset : Int64} {value : Extracted → FieldValue F}
    (h : ∀ x, extractBits data bitOffset.toNat bitLength.toNat signed offset = some x →
      (value x).Short) : (extracted data bitOffset bitLength signed offset value).Short := by
  rw [extracted]
  split
  · trivial
  · exact h _ ‹_›

omit [Float64 F] in
theorem sentinel_short {f : FieldInfo F} {x : Extracted} {value : FieldValue F}
    (h : value.Short) : ((sentinelFieldValue f x).getD value).Short := by
  rw [sentinelFieldValue]
  split
  · trivial
  · trivial
  · trivial
  · exact h

omit [Float64 F] in
theorem labelled_short (f : FieldInfo F) (x : Extracted) (name : Option String) :
    (labelled f x name).Short := by
  rw [labelled]
  split_ifs
  · trivial
  · exact sentinel_short trivial

omit [Float64 F] in
theorem paddedText_short (s : List Char) : (paddedText s : FieldValue F).Short := by
  rw [paddedText]
  split_ifs <;> trivial

theorem int_short {data : List UInt8} {off : ℕ} {len : UInt32} {signed : Bool} {x : Extracted}
    (hlen : len.toNat ≤ 16) (h : extractBits data off len.toNat signed 0 = some x) :
    x.value.toInt ≤ 65535 := by
  obtain ⟨hlt, hle⟩ := raw_lt_of_extractBits h
  have hpow : 2 ^ len.toNat ≤ 2 ^ 16 := Nat.pow_le_pow_right (by decide) hlen
  omega

theorem decodeNumber_short {f : FieldInfo F} {bl : UInt32} (hlen : bl.toNat ≤ 16)
    (h : f.Unscaled) (data : List UInt8) (bitOffset : UInt32) (signed : Bool) :
    (decodeNumber f data bitOffset bl signed).Short := by
  obtain ⟨hres, hunit, hquantity, hshift, hoffset⟩ := h
  refine extracted_short fun x hx => sentinel_short ?_
  rw [if_pos ⟨hres, by rw [hunit]; rfl, by rw [hquantity]; rfl, hshift, hoffset⟩]
  exact int_short hlen hx

/-- A value that a length may be taken from is an integer of at most sixteen bits. -/
theorem decodeFixed_short (claim : List UInt8 → List (DecodedField F)) {f : FieldInfo F}
    {bl : UInt32} (hlen : bl.toNat ≤ 16) (h : f.Unscaled) (info : PgnInfo F) (data : List UInt8)
    (db : PgnDatabase F) (bitOffset : UInt32) (ctx : DecodeContext F) :
    (decodeFixed claim f info data db bitOffset bl ctx).1.Short := by
  unfold decodeFixed
  dsimp only
  rcases f.fieldType with - | t
  · trivial
  cases t with
  | number | decimal | fieldIndex =>
      dsimp only
      exact decodeNumber_short hlen h data bitOffset (f.signed.getD false)
  | float =>
      dsimp only [decodeFloat]
      split_ifs
      · trivial
      · exact extracted_short fun _ _ => trivial
  | lookup => exact extracted_short fun _ _ => labelled_short _ _ _
  | indirectLookup => exact extracted_short fun _ _ => labelled_short _ _ _
  | bitLookup => exact extracted_short fun _ _ => trivial
  | reserved | spare =>
      refine extracted_short fun x _ => ?_
      dsimp only
      split_ifs <;> trivial
  | binary =>
      dsimp only [decodeBinary]
      split_ifs
      · trivial
      · trivial
      · split <;> trivial
  | mmsi =>
      dsimp only [decodeMmsi]
      split_ifs
      · trivial
      · exact extracted_short fun _ _ => trivial
  | pgn =>
      dsimp only [decodePgnField]
      split_ifs
      · trivial
      · exact extracted_short fun _ _ => trivial
  | date =>
      dsimp only [decodeDate]
      split_ifs
      · trivial
      · exact extracted_short fun _ _ => sentinel_short trivial
  | time | duration => exact extracted_short fun _ _ => sentinel_short trivial
  | stringFix =>
      dsimp only [decodeStringFix]
      split_ifs <;> trivial
  | stringLz =>
      dsimp only [decodeStringLz]
      by_cases haligned : bitOffset.toNat % 8 ≠ 0
      · rw [if_pos haligned]
        trivial
      · rw [if_neg haligned]
        split
        · trivial
        · exact paddedText_short _
  | isoName =>
      dsimp only [decodeIsoName]
      split_ifs <;> trivial
  | dynamicFieldKey =>
      dsimp only [decodeDynamicFieldKey]
      split
      · trivial
      · exact labelled_short _ _ _
  | dynamicFieldLength =>
      dsimp only [decodeDynamicFieldLength]
      split
      · trivial
      · next x hx =>
        have hsentinel := @sentinel_short F f x (.integer x.value) (int_short hlen hx)
        split
        · next sent hsent =>
          rw [hsent] at hsentinel
          exact hsentinel
        · exact int_short hlen hx
  | stringLau | «variable» | dynamicFieldValue => trivial

/-! ## What is known of the context -/

/-- The lengths and the widths that a dynamic value may take from the context. -/
structure DecodeContext.Tame (ctx : DecodeContext F) (width : ℕ) : Prop where
  length : ∀ n ∈ ctx.dynamicLengthBytes, n.toNat ≤ 65535
  entry : ∀ e ∈ ctx.dynamicFieldType, ∀ bits ∈ e.bits, bits.toNat ≤ width

omit [Float64 F] in
theorem tame_empty (width : ℕ) : (DecodeContext.empty : DecodeContext F).Tame width := ⟨nofun, nofun⟩

/-- The widths in the tables of keys. -/
def PgnDatabase.EntriesWithin (db : PgnDatabase F) (width : ℕ) : Prop :=
  ∀ t ∈ db.fieldTypeLookups, ∀ e ∈ t.values, ∀ bits ∈ e.bits, bits.toNat ≤ width

/-- Lengths come from at most sixteen bits, as they are. -/
def FieldInfo.CarriesShort (f : FieldInfo F) : Prop :=
  f.CarriesLength → (∀ bl ∈ f.bitLength, bl.toNat ≤ 16) ∧ f.Unscaled

section Context

variable {f : FieldInfo F} {bl : UInt32} {ctx : DecodeContext F} {width : ℕ}

theorem toNat_of_nonneg {n : Int64} (hnonneg : 0 ≤ n) (h : n.toInt ≤ 65535) :
    n.toUInt64.toUInt32.toNat ≤ 65535 := by
  have hword := toInt_toInt64 n.toUInt64
  rw [Int64.toInt64_toUInt64] at hword
  have hnonneg' : 0 ≤ n.toInt := Int64.le_iff_toInt_le.mp hnonneg
  have hlt := n.toUInt64.toNat_lt
  rw [UInt64.toNat_toUInt32]
  split_ifs at hword <;> omega

theorem note_tame {value : FieldValue F} (h : ctx.Tame width)
    (hvalue : f.isDynamicLengthMarker = true → value.Short) : (ctx.note f value).Tame width := by
  unfold DecodeContext.note
  dsimp only
  by_cases hmarker : f.isDynamicLengthMarker = true
  · have hshort := hvalue hmarker
    rw [if_pos hmarker]
    cases value with
    | integer n =>
        dsimp only
        have hlength : 0 ≤ n → ∀ m ∈ some n.toUInt64.toUInt32, m.toNat ≤ 65535 := by
          rintro hnonneg _ ⟨⟩
          exact toNat_of_nonneg hnonneg hshort
        by_cases hindex : f.fieldType = some .fieldIndex
        · rw [if_pos hindex]
          split_ifs with hnonneg
          · exact ⟨hlength hnonneg, h.entry⟩
          · exact ⟨h.length, h.entry⟩
        · rw [if_neg hindex]
          split_ifs with hnonneg
          · exact ⟨hlength hnonneg, h.entry⟩
          · exact h
    | number v => exact hshort.elim
    | pgn p description => exact ⟨h.length, h.entry⟩
    | _ => exact h
  · rw [if_neg hmarker]
    cases value with
    | integer n =>
        dsimp only
        split_ifs
        · exact ⟨h.length, h.entry⟩
        · exact h
    | pgn p description => exact ⟨h.length, h.entry⟩
    | _ => exact h

omit [Float64 F] in
theorem fieldTypeLookup_within {db : PgnDatabase F} (hdb : db.EntriesWithin width)
    {name : Option String} {key : UInt64} :
    ∀ e ∈ name.bind fun n => db.fieldTypeLookup n key, ∀ bits ∈ e.bits, bits.toNat ≤ width := by
  intro e he
  obtain ⟨n, -, hn⟩ := Option.bind_eq_some_iff.mp he
  obtain ⟨t, ht, hget⟩ := Option.bind_eq_some_iff.mp hn
  exact hdb t (List.mem_of_find?_eq_some ht) e (List.mem_of_find?_eq_some hget)

/-- The context after a field of a width of its own. -/
theorem decodeFixed_tame (claim : List UInt8 → List (DecodedField F)) (info : PgnInfo F)
    (data : List UInt8) {db : PgnDatabase F} (hdb : db.EntriesWithin width) (bitOffset : UInt32)
    (hbl : f.bitLength = some bl) (hcarries : f.CarriesShort) (h : ctx.Tame width) :
    (decodeFixed claim f info data db bitOffset bl ctx).2.Tame width := by
  unfold decodeFixed
  dsimp only
  rcases htype : f.fieldType with - | t
  · exact h
  cases t with
  | dynamicFieldKey =>
      dsimp only [decodeDynamicFieldKey]
      split
      · exact h
      · exact ⟨h.length, fieldTypeLookup_within hdb⟩
  | dynamicFieldLength =>
      have hlen : bl.toNat ≤ 16 := (hcarries (.inl htype)).1 bl hbl
      dsimp only [decodeDynamicFieldLength]
      split
      · exact h
      · next x hx =>
        split
        · exact h
        · refine ⟨?_, h.entry⟩
          rintro _ ⟨⟩
          have hlt := (raw_lt_of_extractBits hx).1
          have hpow : 2 ^ bl.toNat ≤ 2 ^ 16 := Nat.pow_le_pow_right (by decide) hlen
          rw [UInt64.toNat_toUInt32]
          omega
  | _ => exact h

end Context

/-! ## One field -/

/-- No width is above the bound, and nothing is added in an extraction. -/
structure FieldInfo.Within (f : FieldInfo F) (width : ℕ) : Prop where
  width : ∀ bl ∈ f.bitLength, bl.toNat ≤ width
  unshifted : f.fieldType = some .time ∨ f.fieldType = some .duration ∨
    f.fieldType = some .reserved ∨ f.fieldType = some .spare → f.offset.getD 0 = 0

section OneField

variable {claim : List UInt8 → List (DecodedField F)} {claimChecks : List UInt8 → Except Fault Unit}
  {f : FieldInfo F} {info : PgnInfo F} {data : List UInt8} {db : PgnDatabase F}
  {bitOffset : UInt32} {ctx : DecodeContext F} {width : ℕ}

omit [Float64 F] in
theorem dynamicBits_le (hwidth : 524280 ≤ width) (h : ctx.Tame width) :
    (dynamicBits ctx).toNat ≤ width := by
  unfold dynamicBits
  cases hlength : ctx.dynamicLengthBytes with
  | some n =>
      have hn : n.toNat ≤ 65535 := h.length n hlength
      show (n * 8).toNat ≤ width
      rw [UInt32.toNat_mul]
      show n.toNat * 8 % 2 ^ 32 ≤ width
      omega
  | none =>
      cases hentry : ctx.dynamicFieldType with
      | none => exact Nat.zero_le _
      | some e =>
          cases hbits : e.bits with
          | none =>
              show ((e.bits).getD 0).toNat ≤ width
              rw [hbits]
              exact Nat.zero_le _
          | some bits =>
              show ((e.bits).getD 0).toNat ≤ width
              rw [hbits]
              exact h.entry e hentry bits hbits

omit [Float64 F] in
theorem decodeStringLau_bits (data : List UInt8) (bitOffset : UInt32) :
    8 ≤ (decodeStringLau data bitOffset : FieldValue F × UInt32).2.toNat ∧
      (decodeStringLau data bitOffset : FieldValue F × UInt32).2.toNat ≤ 2040 := by
  have height : 8 ≤ (8 : UInt32).toNat ∧ (8 : UInt32).toNat ≤ 2040 := by decide
  have hsixteen : 8 ≤ (16 : UInt32).toNat ∧ (16 : UInt32).toNat ≤ 2040 := by decide
  unfold decodeStringLau
  dsimp only
  by_cases haligned : bitOffset.toNat % 8 ≠ 0
  · rw [if_pos haligned]
    exact height
  · rw [if_neg haligned]
    split
    · next totalLen encoding rest _ =>
      by_cases hshort : totalLen < 2
      · rw [if_pos hshort]
        exact hsixteen
      · rw [if_neg hshort]
        have hlt := totalLen.toNat_lt
        have hge : 2 ≤ totalLen.toNat := Nat.le_of_not_lt hshort
        show 8 ≤ (totalLen.toUInt32 * 8).toNat ∧ (totalLen.toUInt32 * 8).toNat ≤ 2040
        rw [UInt32.toNat_mul, UInt8.toNat_toUInt32]
        show 8 ≤ totalLen.toNat * 8 % 2 ^ 32 ∧ totalLen.toNat * 8 % 2 ^ 32 ≤ 2040
        omega
    · exact hsixteen

theorem decodeDynamicFieldValue_bits (claim : List UInt8 → List (DecodedField F)) (data : List UInt8)
    (bitOffset : UInt32) (db : PgnDatabase F) (ctx : DecodeContext F) :
    (decodeDynamicFieldValue claim data bitOffset db ctx).2 = dynamicBits ctx := by
  unfold decodeDynamicFieldValue
  dsimp only
  split
  · rfl
  · rfl

/-- The width of a field that is decoded, and what it leaves in the context. -/
theorem decodeSelfContained_bits (hwidth : 524280 ≤ width) (hdata : data.length ≤ 1785)
    (hf : f.Within width) (h : ctx.Tame width) {d : DecodedField F} {bits : UInt32}
    {ctx' : DecodeContext F}
    (hd : decodeSelfContained claim f info data db bitOffset ctx = some (d, bits, ctx')) :
    bits.toNat ≤ width := by
  have hrest : (UInt32.ofNat
      ((min (data.length * 8) 4294967295 - bitOffset.toNat) / 8 * 8)).toNat ≤ width := by
    rw [UInt32.toNat_ofNat']
    omega
  unfold decodeSelfContained at hd
  dsimp only at hd
  split at hd
  · cases hd
    have := (@decodeStringLau_bits F data bitOffset).2
    omega
  · cases hd
    rw [decodeDynamicFieldValue_bits]
    exact dynamicBits_le hwidth h
  · cases hd
    exact hrest
  · cases hd
    exact hrest
  · nomatch hd
  · cases hd
    exact hf.width _ ‹f.bitLength = some _›

/-- The context after the field. -/
theorem decodeSelfContained_tame (hdb : db.EntriesWithin width) (hcarries : f.CarriesShort)
    (h : ctx.Tame width) {d : DecodedField F} {bits : UInt32} {ctx' : DecodeContext F}
    (hd : decodeSelfContained claim f info data db bitOffset ctx = some (d, bits, ctx')) :
    ctx'.Tame width := by
  unfold decodeSelfContained at hd
  dsimp only at hd
  split at hd
  · cases hd
    exact h
  · cases hd
    exact ⟨nofun, nofun⟩
  · cases hd
    exact h
  · cases hd
    exact h
  · nomatch hd
  · have hbl := ‹f.bitLength = some _›
    cases hd
    refine note_tame (decodeFixed_tame claim info data hdb bitOffset hbl hcarries h) ?_
    intro hmarker
    obtain ⟨hlen, hunscaled⟩ := hcarries (.inr hmarker)
    exact decodeFixed_short claim (hlen _ hbl) hunscaled info data db bitOffset ctx

omit [Float64 F] in
theorem isoNameChecks_ok (hclaim : ∀ sub : List UInt8, sub.length ≤ 1785 → claimChecks sub = .ok ())
    (data : List UInt8) (bitOffset bitLength : UInt32) :
    isoNameChecks claimChecks data bitOffset bitLength = .ok () := by
  rw [isoNameChecks]
  split_ifs
  · rfl
  · rfl
  · exact hclaim _ (le_trans (List.length_take_le _ _) (by decide))

omit [Float64 F] in
/-- A field on its own does not fault. -/
theorem selfContainedChecks_ok
    (hclaim : ∀ sub : List UInt8, sub.length ≤ 1785 → claimChecks sub = .ok ())
    (hf : f.Within width) (h : ctx.Tame width) :
    selfContainedChecks claimChecks f data bitOffset ctx = .ok () := by
  have hunshifted := hf.unshifted
  unfold selfContainedChecks
  split
  · have hlength : lengthChecks ctx = .ok () := by
      rw [lengthChecks]
      cases hn : ctx.dynamicLengthBytes with
      | none => rfl
      | some n =>
          have := h.length n hn
          exact if_pos (by omega)
    rw [dynamicChecks, hlength]
    show (if _ then _ else _) = _
    split_ifs
    · exact isoNameChecks_ok hclaim _ _ _
    · rfl
  · next htype _ => exact if_pos (hunshifted (.inl htype))
  · next htype _ => exact if_pos (hunshifted (.inr (.inl htype)))
  · next htype _ => exact if_pos (hunshifted (.inr (.inr (.inl htype))))
  · next htype _ => exact if_pos (hunshifted (.inr (.inr (.inr htype))))
  · exact isoNameChecks_ok hclaim _ _ _
  · rfl

/-- What a walk reads from keeps the widths within the bound. -/
structure CheckedSource.Bounded (s : CheckedSource F) (width : ℕ) : Prop where
  wide : 524280 ≤ width
  room : width + 7 ≤ 4294967295
  data : s.data.length ≤ 1785
  claims : ∀ sub : List UInt8, sub.length ≤ 1785 → s.claimChecks sub = .ok ()
  entries : s.db.EntriesWithin width
  targets : ∀ p ∈ s.db.pgns, ∀ f ∈ p.fields, f.Within width

variable {s : CheckedSource F}

omit [Float64 F] in
theorem variableTarget_within (hs : s.Bounded width) {targetInfo : PgnInfo F}
    {targetField : FieldInfo F} (h : variableTarget s.db ctx = some (targetInfo, targetField)) :
    targetField.Within width := by
  obtain ⟨pgn, -, h⟩ := Option.bind_eq_some_iff.mp h
  obtain ⟨idx, -, h⟩ := Option.bind_eq_some_iff.mp h
  obtain ⟨p, hp, h⟩ := Option.bind_eq_some_iff.mp h
  obtain ⟨g, hg, h⟩ := Option.bind_eq_some_iff.mp h
  cases h
  exact hs.targets _ (List.mem_of_find?_eq_some hp) _ (List.mem_of_find?_eq_some hg)

theorem decodeVariable_eq (claim : List UInt8 → List (DecodedField F)) (f : FieldInfo F)
    (data : List UInt8) (db : PgnDatabase F) (bitOffset : UInt32) (ctx : DecodeContext F) :
    decodeVariable claim f data db bitOffset ctx =
      (variableTarget db ctx).bind fun target =>
        if target.2.fieldType = some .variable then none
        else
          (decodeSelfContained claim target.2 target.1 data db bitOffset .empty).map fun sub =>
            let aligned : UInt32 := UInt32.ofNat ((sub.2.1.toNat + 7) / 8) * 8
            (.single f sub.1.value bitOffset (target.2.bitLength.getD aligned)
              (some ⟨target.2.unit, target.2.resolution, target.2.precision⟩), aligned, ctx) := by
  unfold decodeVariable variableTarget
  cases ctx.targetPgn with
  | none => rfl
  | some pgn =>
      cases ctx.currentParamIdx with
      | none => rfl
      | some idx =>
          show (db.firstPgn pgn).bind _ = ((db.firstPgn pgn).bind _).bind _
          cases db.firstPgn pgn with
          | none => rfl
          | some p =>
              show Option.bind (p.fields.find? _) _ = (Option.bind (p.fields.find? _) _).bind _
              cases p.fields.find? fun g => g.order.toUInt32 = idx with
              | none => rfl
              | some g =>
                  show (if _ then _ else _) = if _ then _ else _
                  split_ifs
                  · rfl
                  · cases decodeSelfContained claim g p data db bitOffset .empty with
                    | none => rfl
                    | some sub => rfl

/-- **One field.** It does not fault, its width is within the bound, and the context stays tame. -/
theorem field_step (hs : s.Bounded width) (hf : f.Within width) (hcarries : f.CarriesShort)
    (h : ctx.Tame width) (off : UInt32) :
    s.fieldChecks f off ctx = .ok () ∧
      ∀ d bits ctx', decodeOneFieldAt s.claim f s.info s.data s.db off ctx = some (d, bits, ctx') →
        bits.toNat ≤ width + 7 ∧ ctx'.Tame width := by
  unfold CheckedSource.fieldChecks decodeOneFieldAt
  by_cases hvariable : f.fieldType = some .variable
  · rw [if_pos hvariable, if_pos hvariable, variableChecks, decodeVariable_eq]
    cases htarget : variableTarget s.db ctx with
    | none => exact ⟨rfl, fun d bits ctx' hd => (Option.some_ne_none _ hd.symm).elim⟩
    | some target =>
        have hwithin := @variableTarget_within F ctx width s hs target.1 target.2 htarget
        rw [Option.bind_some]
        dsimp only
        by_cases hnested : target.2.fieldType = some .variable
        · rw [if_pos hnested, if_pos hnested]
          exact ⟨rfl, fun d bits ctx' hd => (Option.some_ne_none _ hd.symm).elim⟩
        · rw [if_neg hnested, if_neg hnested, selfContainedChecks_ok hs.claims hwithin (tame_empty width)]
          cases hsub : decodeSelfContained s.claim target.2 target.1 s.data s.db off .empty with
          | none => exact ⟨rfl, fun d bits ctx' hd => (Option.some_ne_none _ hd.symm).elim⟩
          | some sub =>
              have hroom := hs.room
              have hbits : sub.2.1.toNat ≤ width :=
                decodeSelfContained_bits hs.wide hs.data hwithin (tame_empty width) hsub
              have hfits : (sub.2.1.toNat + 7) / 8 * 8 ≤ 4294967295 := by omega
              refine ⟨if_pos hfits, ?_⟩
              rintro d bits ctx' ⟨⟩
              refine ⟨?_, h⟩
              rw [UInt32.toNat_mul, UInt32.toNat_ofNat']
              show (sub.2.1.toNat + 7) / 8 % 2 ^ 32 * 8 % 2 ^ 32 ≤ width + 7
              omega
  · rw [if_neg hvariable, if_neg hvariable]
    refine ⟨selfContainedChecks_ok hs.claims hf h, ?_⟩
    intro d bits ctx' hd
    have hbits := decodeSelfContained_bits hs.wide hs.data hf h hd
    exact ⟨by omega, decodeSelfContained_tame hs.entries hcarries h hd⟩

end OneField

end Canboat
