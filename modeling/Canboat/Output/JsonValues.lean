import Canboat.Output.JsonEntries
import Canboat.Output.JsonNested
import Canboat.Output.JsonValid

/-!
# Field values as JSON values

What a parser makes of the value of a field, in every form but the diagnostic one, and of the
line of a record.
-/

namespace Canboat

open Json Json.Reader
open Binary64 (digits paddedDigits)

section

variable {N : Type} (ofText : List Char → N)

/-! ## Trees -/

def digitsTree (n : ℕ) : Json.Tree N := .number (ofText (digits n))

def intTree (n : ℤ) : Json.Tree N := .number (ofText (writeInt n))

/-- The number without the blanks before it. -/
def numberTree (f : DecodedField Binary64) (v : Binary64) : Json.Tree N :=
  .number (ofText (writeFixedFloat v (effectivePrecision f.precision f.resolution) 0))

def textTree (s : List Char) : Json.Tree N := .string (String.ofList s)

def hexTree (bytes : List UInt8) : Json.Tree N :=
  textTree ([' '].intercalate (bytes.map hexByte))

def nameTree (name : Option String) : Json.Tree N :=
  match name with
  | some n => textTree n.toList
  | none => .null

def keyMembers (f : DecodedField Binary64) : List (String × Json.Tree N) :=
  if f.partOfPrimaryKey then [("key", .bool true)] else []

/-- A value, in an object where it is part of the primary key. -/
def keyedTree (opts : JsonOptions) (f : DecodedField Binary64) (t : Json.Tree N) : Json.Tree N :=
  if opts.nameValue && f.partOfPrimaryKey then .object [("value", t), ("key", .bool true)] else t

/-- A text, with the value it is for on demand. -/
def namedTree (opts : JsonOptions) (t : Json.Tree N) (name : List Char) : Json.Tree N :=
  if opts.nameValue then .object [("value", t), ("name", textTree name)] else textTree name

def bitsTree (opts : JsonOptions) (bits : List (UInt64 × String)) : Json.Tree N :=
  if bits.isEmpty then .null
  else .array (bits.map fun b => namedTree opts (digitsTree ofText b.1.toNat) b.2.toList)

/-- A value other than an ISO NAME. -/
def leafTree (opts : JsonOptions) (f : DecodedField Binary64) :
    FieldValue Binary64 → Json.Tree N
  | .number v => numberTree ofText f v
  | .integer v => keyedTree opts f (intTree ofText v.toInt)
  | .float v => .number (ofText (Float64.display v))
  | .binary bytes => hexTree bytes
  | .lookup value name =>
      if opts.nameValue then
        .object (("value", digitsTree ofText value.toNat) ::
          ((if name.isNone ∧ ¬opts.includeEmpty then [] else [("name", nameTree name)]) ++
            keyMembers f))
      else
        match name with
        | some n => textTree n.toList
        | none => digitsTree ofText value.toNat
  | .bitField _ bits => bitsTree ofText opts bits
  | .string s => textTree s
  | .date d => namedTree opts (digitsTree ofText d.toNat) (formatDate d)
  | .time raw seconds =>
      namedTree opts (intTree ofText (printValue f raw seconds)) (timeText f seconds)
  | .mmsi v => keyedTree opts f (textTree (paddedDigits 9 v.toNat))
  | .pgn value description =>
      if opts.nameValue then
        .object (("value", digitsTree ofText value.toNat) ::
          match description with
          | some n => [("name", textTree n.toList)]
          | none => [])
      else digitsTree ofText value.toNat
  | .isoName value _ => digitsTree ofText value.toNat
  | .reserved _ bytes _ => hexTree bytes
  | .spare _ bytes _ => hexTree bytes
  | .notAvailable => .null
  | .outOfRange _ => textTree "Out Of Range".toList
  | .reservedValue _ => textTree "Reserved".toList
  | .unsupported fieldType => textTree ("<unsupported:".toList ++ fieldType.toList ++ ['>'])

mutual

def fieldTree (opts : JsonOptions) : DecodedField Binary64 → Json.Tree N
  | ⟨info, value, bitOffset, bitLength, repeatIndex, repeatSet, overrides⟩ =>
      match value with
      | .isoName value subfields =>
          if opts.nameValue then
            .object [("value", digitsTree ofText value.toNat),
              ("name", .object (subfieldMembers opts [] subfields))]
          else digitsTree ofText value.toNat
      | value =>
          leafTree ofText opts
            ⟨info, value, bitOffset, bitLength, repeatIndex, repeatSet, overrides⟩ value

def subfieldMembers (opts : JsonOptions) (done : List (String × Json.Tree N)) :
    List (DecodedField Binary64) → List (String × Json.Tree N)
  | [] => done
  | sf :: subfields =>
      if subfieldShown opts sf then
        subfieldMembers opts (insertMember (readLabel opts sf) (fieldTree opts sf) done) subfields
      else subfieldMembers opts done subfields

end

end

/-! ## Reading the values -/

section

variable {N : Type} {numeral : List Char → Option N} {ofText : List Char → N}

theorem reads_text (slash : Bool) (s : List Char) :
    Reads numeral (writeJsonStringWithTable slash s) (textTree s) :=
  reads_writeJsonStringWithTable numeral slash s

theorem reads_plain {s : List Char} (hs : ∀ c ∈ s, isPlain c = true) :
    Reads numeral ('"' :: (s ++ ['"'])) (textTree s) :=
  (spells_of_plain numeral hs).reads

theorem hexText_plain (bytes : List UInt8) :
    ∀ c ∈ [' '].intercalate (bytes.map hexByte), isPlain c = true := by
  induction bytes with
  | nil => rintro c ⟨⟩
  | cons b bytes ih =>
      intro c hc
      cases bytes with
      | nil =>
          rw [List.map_singleton, List.intercalate_singleton] at hc
          exact hexByte_plain b c hc
      | cons b' bytes =>
          rw [List.map_cons, List.intercalate_cons_of_ne_nil (by simp), List.mem_append,
            List.mem_append] at hc
          rcases hc with (hc | hc) | hc
          · exact hexByte_plain b c hc
          · rw [List.mem_singleton.mp hc]
            rfl
          · exact ih c hc

theorem reads_hexString (bytes : List UInt8) :
    Reads numeral (hexString bytes) (hexTree bytes) :=
  reads_plain (hexText_plain bytes)

theorem plain_key : ∀ c ∈ "key".toList, isPlain c = true := by decide

variable {v : List Char} {t : Json.Tree N}

/-- The first member of the object around a value. -/
theorem inside_value (hv : Reads numeral v t) :
    ReadsInside numeral ("\"value\":".toList ++ v) [("value", t)] :=
  .first plain_value hv

theorem value_ne_nil (v : List Char) : "\"value\":".toList ++ v ≠ [] := List.cons_ne_nil _ _

/-- The object around a value and what is behind it. -/
theorem reads_valueObject {rest : List Char} {ms : List (String × Json.Tree N)}
    (h : ReadsInside numeral ("\"value\":".toList ++ v ++ rest) ms) :
    Reads numeral ("\x7b\"value\":".toList ++ v ++ rest ++ ['\x7d']) (.object ms) :=
  h.reads

theorem inside_name (hv : Reads numeral v t) {w : List Char} {u : Json.Tree N}
    (hw : Reads numeral w u) :
    ReadsInside numeral ("\"value\":".toList ++ v ++ (",\"name\":".toList ++ w))
      [("value", t), ("name", u)] :=
  (inside_value hv).next (value_ne_nil v) plain_name (by simp) hw

theorem inside_key {s : List Char} {ms : List (String × Json.Tree N)}
    (h : ReadsInside numeral s ms) (hne : s ≠ []) (hnew : "key" ∉ ms.map Prod.fst)
    (f : DecodedField Binary64) :
    ReadsInside numeral (s ++ keySuffix f) (ms ++ keyMembers f) := by
  rw [keySuffix, keyMembers]
  split_ifs
  · exact h.next hne plain_key hnew reads_true
  · rw [List.append_nil, List.append_nil]
    exact h

/-- A value marked as part of the primary key. -/
theorem reads_keyed (opts : JsonOptions) (f : DecodedField Binary64) (hv : Reads numeral v t) :
    Reads numeral
      (if opts.nameValue && f.partOfPrimaryKey then
        "\x7b\"value\":".toList ++ v ++ ",\"key\":true\x7d".toList else v)
      (keyedTree opts f t) := by
  rw [keyedTree]
  split_ifs
  · have hkey := (inside_value hv).next (value_ne_nil v) plain_key (by simp) reads_true
    have h := hkey.reads
    rw [List.append_assoc]
    rw [List.append_assoc] at h
    exact h
  · exact hv

/-- A text, with the value it is for on demand. -/
theorem reads_named (opts : JsonOptions) (hv : Reads numeral v t) (name : List Char) :
    Reads numeral
      (if opts.nameValue then
        "\x7b\"value\":".toList ++ v ++ ",\"name\":".toList ++ writeJsonString name ++ ['\x7d']
      else writeJsonString name)
      (namedTree opts t name) := by
  rw [namedTree]
  split_ifs
  · rw [List.append_assoc ("\x7b\"value\":".toList ++ v)]
    exact reads_valueObject (inside_name hv (reads_text false name))
  · exact reads_text false name

theorem reads_name (name : Option String) :
    Reads numeral (match name with
      | some n => writeJsonString n.toList
      | none => "null".toList) (nameTree name) := by
  cases name with
  | none => exact reads_null
  | some n => exact reads_text false n.toList

theorem reads_writeFixedFloat (hnum : ReadsNumbers numeral ofText) {x : Binary64}
    (hx : x.isFinite = true) (precision minWidth : ℕ) :
    Reads numeral (writeFixedFloat x precision minWidth)
      (.number (ofText (writeFixedFloat x precision 0))) := by
  have hnumber : Number (writeFixedFloat x precision 0) ∧ ∃ n,
      writeFixedFloat x precision minWidth =
        List.replicate n ' ' ++ writeFixedFloat x precision 0 := by
    have hpad : ∀ s : List Char, padLeft 0 s = s := by
      intro s
      rw [padLeft, Nat.zero_sub]
      rfl
    rw [writeFixedFloat, writeFixedFloat]
    split_ifs
    · rw [hpad]
      cases x with
      | fin x => exact ⟨number_decimal _ _ _, _, rfl⟩
      | nan => cases hx
      | inf neg => cases hx
    · have h := number_signed (decide (x.isSignNegative = true ∧
        Float64.toI64 (Float64.round x) ≠ 0)) (unsigned_digits
          (Float64.toI64 (Float64.round x)).toInt.natAbs)
      simp only [decide_eq_true_eq] at h
      dsimp only
      rw [hpad]
      exact ⟨h, _, rfl⟩
    · dsimp only
      rw [hpad, List.append_assoc]
      exact ⟨number_signed x.isSignNegative (unsigned_places _ _ _), _, rfl⟩
  obtain ⟨hnumber, n, htext⟩ := hnumber
  rw [htext]
  exact (hnum.reads hnumber).spaces n

theorem reads_display (hnum : ReadsNumbers numeral ofText) {x : Binary64}
    (hx : x.isFinite = true) : Reads numeral x.display (.number (ofText x.display)) := by
  cases x with
  | fin x => exact hnum.reads (number_decimal _ _ _)
  | nan => cases hx
  | inf neg => cases hx

theorem reads_digitsTree (hnum : ReadsNumbers numeral ofText) (n : ℕ) :
    Reads numeral (digits n) (digitsTree ofText n) :=
  hnum.reads (number_digits n)

theorem reads_intTree (hnum : ReadsNumbers numeral ofText) (n : ℤ) :
    Reads numeral (writeInt n) (intTree ofText n) := by
  have h := number_signed (decide (n < 0)) (unsigned_digits n.natAbs)
  simp only [decide_eq_true_eq] at h
  exact hnum.reads h

theorem reads_writeBits (hnum : ReadsNumbers numeral ofText) (opts : JsonOptions)
    (bits : List (UInt64 × String)) :
    Reads numeral (writeBits opts bits) (bitsTree ofText opts bits) := by
  rw [writeBits, bitsTree]
  by_cases hempty : bits.isEmpty = true
  · rw [if_pos hempty, if_pos hempty]
    exact reads_null
  · rw [if_neg hempty, if_neg hempty]
    apply reads_array
    · rw [List.forall₂_map_left_iff, List.forall₂_map_right_iff, List.forall₂_same]
      exact fun b _ => reads_named opts (reads_digitsTree hnum b.1.toNat) b.2.toList
    · rw [List.isEmpty_iff] at hempty
      simpa using hempty

theorem reads_writeLeaf (hnum : ReadsNumbers numeral ofText) (opts : JsonOptions)
    (f : DecodedField Binary64) (value : FieldValue Binary64) (hfinite : leafFinite value = true) :
    Reads numeral (writeLeaf opts f value) (leafTree ofText opts f value) := by
  cases value with
  | number v => exact reads_writeFixedFloat hnum hfinite _ _
  | integer v => exact reads_keyed opts f (reads_intTree hnum v.toInt)
  | float v => exact reads_display hnum hfinite
  | binary bytes => exact reads_hexString bytes
  | lookup value name =>
      simp only [writeLeaf, leafTree]
      by_cases hnamed : opts.nameValue = true
      · rw [if_pos hnamed, if_pos hnamed]
        have hvalue := inside_value (reads_digitsTree hnum value.toNat)
        by_cases hbare : name.isNone = true ∧ ¬opts.includeEmpty = true
        · rw [if_pos hbare, if_pos hbare, List.append_nil, List.nil_append]
          exact reads_valueObject (inside_key hvalue (value_ne_nil _) (by simp) f)
        · rw [if_neg hbare, if_neg hbare,
            List.append_assoc ("\x7b\"value\":".toList ++ digits value.toNat)]
          have h := inside_key (inside_name (reads_digitsTree hnum value.toNat) (reads_name name))
            (List.append_ne_nil_of_left_ne_nil (value_ne_nil _) _) (by simp) f
          rw [List.append_assoc] at h
          exact reads_valueObject h
      · rw [if_neg hnamed, if_neg hnamed]
        cases name with
        | none => exact reads_digitsTree hnum value.toNat
        | some n => exact reads_text false n.toList
  | bitField value bits => exact reads_writeBits hnum opts bits
  | string s => exact reads_text true s
  | date d => exact reads_named opts (reads_digitsTree hnum d.toNat) (formatDate d)
  | time raw seconds =>
      exact reads_named opts (reads_intTree hnum (printValue f raw seconds)) (timeText f seconds)
  | mmsi v =>
      exact reads_keyed opts f
        (reads_plain fun c hc => isPlain_digit (paddedDigits_digits _ _ c hc))
  | pgn value description =>
      simp only [writeLeaf, leafTree]
      by_cases hnamed : opts.nameValue = true
      · rw [if_pos hnamed, if_pos hnamed]
        cases description with
        | none =>
            have h := inside_value (reads_digitsTree hnum value.toNat)
            rw [← List.append_nil ("\"value\":".toList ++ digits value.toNat)] at h
            exact reads_valueObject h
        | some n =>
            exact reads_valueObject
              (inside_name (reads_digitsTree hnum value.toNat) (reads_text false n.toList))
      · rw [if_neg hnamed, if_neg hnamed]
        exact reads_digitsTree hnum value.toNat
  | isoName value subfields => exact reads_digitsTree hnum value.toNat
  | reserved value bytes bitLength => exact reads_hexString bytes
  | spare value bytes bitLength => exact reads_hexString bytes
  | notAvailable => exact reads_null
  | outOfRange value => exact reads_text false _
  | reservedValue value => exact reads_text false _
  | unsupported fieldType => exact reads_text false _

theorem reads_of_leaf (hnum : ReadsNumbers numeral ofText) (opts : JsonOptions)
    {f : DecodedField Binary64} (hf : f.IsLeaf) (hfinite : numbersFinite opts f = true) :
    Reads numeral (writeFieldValue opts f) (fieldTree ofText opts f) := by
  rw [numbersFinite_of_leaf opts hf] at hfinite
  have htree : fieldTree ofText opts f = leafTree ofText opts f f.value := by
    obtain ⟨info, value, bitOffset, bitLength, repeatIndex, repeatSet, overrides⟩ := f
    cases value with
    | isoName v subfields => exact absurd rfl (hf v subfields)
    | _ => rfl
  rw [htree, writeFieldValue_of_leaf opts hf]
  exact reads_writeLeaf hnum opts f f.value hfinite

/-- An ISO NAME with its subfields. -/
theorem reads_isoNameTree (hnum : ReadsNumbers numeral ofText) (value : UInt64) {s : List Char}
    {ms : List (String × Json.Tree N)} (h : ReadsInside numeral s ms) :
    Reads numeral
      ("\x7b\"value\":".toList ++ digits value.toNat ++ ",\"name\":\x7b".toList ++ s ++
        "\x7d\x7d".toList)
      (.object [("value", digitsTree ofText value.toNat), ("name", .object ms)]) := by
  have hobject := reads_valueObject (inside_name (reads_digitsTree hnum value.toNat) h.reads)
  have hname : ",\"name\":\x7b".toList = ",\"name\":".toList ++ ['\x7b'] := rfl
  have hclose : "\x7d\x7d".toList = ['\x7d'] ++ ['\x7d'] := rfl
  rw [hname, hclose]
  simpa only [List.append_assoc, List.cons_append, List.nil_append] using hobject

/-- A subfield behind what is inside the object. -/
theorem inside_subfield {opts : JsonOptions} {sf : DecodedField Binary64}
    (hsf : Reads numeral (writeFieldValue opts sf) t) {s : List Char}
    {ms : List (String × Json.Tree N)} (h : ReadsInside numeral s ms) :
    ReadsInside numeral
      (s ++ ((if s = [] then [] else [',']) ++ writeJsonString (fieldLabel opts sf) ++
        ':' :: writeFieldValue opts sf))
      (insertMember (readLabel opts sf) t ms) := by
  have hmember := h.member (spells_name numeral (fieldLabel opts sf)) hsf
  rw [writeJsonString, writeJsonStringWithTable, readLabel]
  simpa only [List.append_assoc, List.cons_append, List.nil_append] using hmember

theorem subfield_ne_nil (opts : JsonOptions) (sf : DecodedField Binary64)
    (s sep : List Char) :
    s ++ (sep ++ writeJsonString (fieldLabel opts sf) ++ ':' :: writeFieldValue opts sf) ≠ [] := by
  simp

mutual

/-- Every value whose numbers are finite is read as its tree. -/
theorem reads_fieldTree (hnum : ReadsNumbers numeral ofText) (opts : JsonOptions) :
    ∀ f : DecodedField Binary64, numbersFinite opts f = true →
      Reads numeral (writeFieldValue opts f) (fieldTree ofText opts f)
  | ⟨info, value, bitOffset, bitLength, repeatIndex, repeatSet, overrides⟩, hfinite => by
      cases value with
      | isoName value subfields =>
          rw [writeFieldValue, fieldTree]
          by_cases hnamed : opts.nameValue = true
          · rw [if_pos hnamed, if_pos hnamed]
            have hsubfields : subfieldsFinite opts subfields = true := by
              rw [numbersFinite] at hfinite
              simpa [hnamed] using hfinite
            exact reads_isoNameTree hnum value
              (inside_subfields hnum opts subfields hsubfields [] [] .nil)
          · rw [if_neg hnamed, if_neg hnamed]
            exact reads_digitsTree hnum value.toNat
      | _ => exact reads_of_leaf hnum opts nofun hfinite

/-- The subfields behind what is inside the object. -/
theorem inside_subfields (hnum : ReadsNumbers numeral ofText) (opts : JsonOptions) :
    ∀ subfields : List (DecodedField Binary64), subfieldsFinite opts subfields = true →
      ∀ (s : List Char) (ms : List (String × Json.Tree N)), ReadsInside numeral s ms →
        ReadsInside numeral
          (s ++ writeSubfields opts (if s = [] then [] else [',']) subfields)
          (subfieldMembers ofText opts ms subfields)
  | [], _, s, ms, h => by
      rw [writeSubfields, List.append_nil]
      exact h
  | sf :: subfields, hfinite, s, ms, h => by
      rw [subfieldsFinite, Bool.and_eq_true] at hfinite
      obtain ⟨hfirst, hrest⟩ := hfinite
      rw [writeSubfields, subfieldMembers]
      by_cases hshown : subfieldShown opts sf = true
      · rw [if_pos hshown, if_pos hshown]
        have hsf : numbersFinite opts sf = true := by
          rw [hshown] at hfirst
          exact hfirst
        have hmember := inside_subfield (reads_fieldTree hnum opts sf hsf) h
        have hbehind := inside_subfields hnum opts subfields hrest _ _ hmember
        rw [if_neg (subfield_ne_nil opts sf s _), List.append_assoc] at hbehind
        exact hbehind
      · rw [if_neg hshown, if_neg hshown]
        exact inside_subfields hnum opts subfields hrest s ms h

end

/-! ## The line of a record -/

end

/-- The text of a number. -/
def numeralText (s : List Char) : Option (List Char) := some s

theorem decode_of_map {frame : RawFrame} {b : Bool × Bool}
    (h : (listDatabase.decode frame).toOption.map (fun d =>
      ((d.shownFields defaultOptions).all (numbersFinite defaultOptions),
        decide (d.MissesComma defaultOptions))) = some b) :
    ∃ d, listDatabase.decode frame = .ok d ∧
      ((d.shownFields defaultOptions).all (numbersFinite defaultOptions),
        decide (d.MissesComma defaultOptions)) = b := by
  cases hdecode : listDatabase.decode frame with
  | error e =>
      rw [hdecode] at h
      cases h
  | ok d =>
      rw [hdecode] at h
      exact ⟨d, rfl, Option.some.inj h⟩

end Canboat
