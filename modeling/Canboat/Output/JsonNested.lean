import Canboat.Output.JsonKeys

/-!
# Keys within a value

A value with its code, its name or its subfields is an object, whose keys a search for a field's
key meets as well.
-/

namespace Canboat

open Json
open Binary64 (digits)

section

variable {F : Type}

/-- The keys in the text of a value other than an ISO NAME. -/
def leafKeys (opts : JsonOptions) (f : DecodedField F) : FieldValue F → List (List Char)
  | .integer _ | .mmsi _ =>
      if opts.nameValue && f.partOfPrimaryKey then ["value".toList, "key".toList] else []
  | .lookup _ name =>
      if opts.nameValue then
        "value".toList :: ((if name.isNone ∧ ¬opts.includeEmpty then [] else ["name".toList]) ++
          if f.partOfPrimaryKey then ["key".toList] else [])
      else []
  | .bitField _ bits =>
      if opts.nameValue && !bits.isEmpty then ["value".toList, "name".toList] else []
  | .date _ | .time _ _ => if opts.nameValue then ["value".toList, "name".toList] else []
  | .pgn _ description =>
      if opts.nameValue then
        "value".toList :: if description.isSome then ["name".toList] else []
      else []
  | _ => []

mutual

def textKeys (opts : JsonOptions) : DecodedField F → List (List Char)
  | ⟨info, value, bitOffset, bitLength, repeatIndex, repeatSet, overrides⟩ =>
      match value with
      | .isoName _ subfields =>
          if opts.nameValue then "value".toList :: "name".toList :: subfieldKeys opts subfields
          else []
      | value => leafKeys opts ⟨info, value, bitOffset, bitLength, repeatIndex, repeatSet, overrides⟩
          value

def subfieldKeys (opts : JsonOptions) : List (DecodedField F) → List (List Char)
  | [] => []
  | sf :: subfields =>
      if subfieldShown opts sf then
        displayName opts.camelCase sf.info.name sf.info.id ::
          (textKeys opts sf ++ subfieldKeys opts subfields)
      else subfieldKeys opts subfields

end

end

/-! ## Members of an object -/

/-- The search for a key goes past these members of an object. -/
def PassesMembers (key s : List Char) : Prop :=
  ∃ ps : List Piece, (∀ p ∈ ps, p.Passed key) ∧ s = ps.flatMap Piece.text

theorem PassesMembers.nil (key : List Char) : PassesMembers key [] := ⟨[], nofun, rfl⟩

theorem PassesMembers.append {key s t : List Char} (hs : PassesMembers key s)
    (ht : PassesMembers key t) : PassesMembers key (s ++ t) := by
  obtain ⟨ps, hps, rfl⟩ := hs
  obtain ⟨qs, hqs, rfl⟩ := ht
  refine ⟨ps ++ qs, fun p hp => ?_, List.flatMap_append.symm⟩
  rcases List.mem_append.mp hp with hp | hp
  · exact hps p hp
  · exact hqs p hp

theorem PassesMembers.one {key k v : List Char} (hk : ∀ c ∈ k, isPlain c = true) (hne : k ≠ key)
    (hv : PassesValue key v) : PassesMembers key (',' :: '"' :: (k ++ '"' :: ':' :: v)) := by
  refine ⟨[⟨[','], k, v⟩], ?_, ?_⟩
  · intro p hp
    rw [List.mem_singleton.mp hp]
    exact ⟨⟨',', [], rfl, by decide, .nil⟩, hk, hne, hv⟩
  · rw [List.flatMap_singleton, Piece.text, List.singleton_append]

theorem plain_value : ∀ c ∈ "value".toList, isPlain c = true := by decide

theorem plain_name : ∀ c ∈ "name".toList, isPlain c = true := by decide

/-- A value with members behind it. -/
theorem passesValue_members {key v s : List Char} (hkey : IsKey key) (hne : "value".toList ≠ key)
    (hv : PassesValue key v) (hs : PassesMembers key s) :
    PassesValue key ("\x7b\"value\":".toList ++ v ++ s ++ ['\x7d']) := by
  obtain ⟨ps, hps, rfl⟩ := hs
  have h := passesValue_object hkey plain_value hne hv ps hps
  rw [show "\x7b\"value\":".toList = '\x7b' :: '"' :: ("value".toList ++ ['"', ':']) from rfl]
  simpa only [List.cons_append, List.append_assoc, List.nil_append] using h

theorem passesMembers_name {key v : List Char} (hne : "name".toList ≠ key)
    (hv : PassesValue key v) : PassesMembers key (",\"name\":".toList ++ v) := by
  have h := PassesMembers.one plain_name hne hv
  rw [show ",\"name\":".toList = ',' :: '"' :: ("name".toList ++ ['"', ':']) from rfl]
  simpa only [List.cons_append, List.append_assoc, List.nil_append] using h

theorem passesMembers_key {key : List Char} (hne : "key".toList ≠ key) :
    PassesMembers key ",\"key\":true".toList := by
  have h := PassesMembers.one (k := "key".toList) (v := "true".toList) (by decide) hne
    (passesValue_of_noQuote (by decide))
  exact h

/-! ## Texts without a quote -/

/-- A character of a number, or of what stands for one. -/
def isBare (c : Char) : Bool := c.isAlphanum || c == '.' || c == '-'

/-- A number, after spaces. -/
def BareText (s : List Char) : Prop :=
  ∃ n w, s = List.replicate n ' ' ++ w ∧ w ≠ [] ∧ ∀ c ∈ w, isBare c = true

theorem bareText_of_all {s : List Char} (hne : s ≠ []) (hs : ∀ c ∈ s, isBare c = true) :
    BareText s :=
  ⟨0, s, rfl, hne, hs⟩

theorem isBare_digit {c : Char} (hc : isDigit c = true) : isBare c = true := by
  have hdigit : c.isDigit = true := by
    simpa only [isDigit, Char.isDigit, Bool.and_eq_true, decide_eq_true_eq, Char.le_def] using hc
  simp only [isBare, Char.isAlphanum, hdigit, Bool.or_true, Bool.true_or]

theorem all_digits (n : ℕ) : ∀ c ∈ digits n, isBare c = true := fun c hc =>
  isBare_digit (digits_digits n c hc)

theorem all_sign (neg : Prop) [Decidable neg] :
    ∀ c ∈ (if neg then ['-'] else []), isBare c = true := by
  split
  · decide
  · exact nofun

theorem all_append {s t : List Char} (hs : ∀ c ∈ s, isBare c = true)
    (ht : ∀ c ∈ t, isBare c = true) : ∀ c ∈ s ++ t, isBare c = true := by
  intro c hc
  rcases List.mem_append.mp hc with hc | hc
  · exact hs c hc
  · exact ht c hc

theorem all_places (n width m : ℕ) :
    ∀ c ∈ digits n ++ '.' :: Binary64.paddedDigits width m, isBare c = true := by
  refine all_append (all_digits n) ?_
  rw [List.forall_mem_cons]
  exact ⟨rfl, fun c hc => isBare_digit (paddedDigits_digits width m c hc)⟩

theorem bareText_digits (n : ℕ) : BareText (digits n) :=
  bareText_of_all (digits_ne_nil n) (all_digits n)

theorem bareText_writeInt (n : ℤ) : BareText (writeInt n) :=
  bareText_of_all (List.append_ne_nil_of_right_ne_nil _ (digits_ne_nil _))
    (all_append (all_sign _) (all_digits _))

theorem bare_decimal (neg : Bool) (places n : ℕ) :
    Binary64.decimal neg places n ≠ [] ∧ ∀ c ∈ Binary64.decimal neg places n, isBare c = true := by
  have hsign := all_sign (neg = true)
  unfold Binary64.decimal
  by_cases hplaces : places = 0
  · rw [if_pos hplaces]
    exact ⟨List.append_ne_nil_of_right_ne_nil _ (digits_ne_nil _), all_append hsign (all_digits _)⟩
  · rw [if_neg hplaces]
    exact ⟨List.append_ne_nil_of_right_ne_nil _ (by simp), all_append hsign (all_places _ _ _)⟩

theorem bareText_decimal (neg : Bool) (places n : ℕ) : BareText (Binary64.decimal neg places n) :=
  bareText_of_all (bare_decimal neg places n).1 (bare_decimal neg places n).2

theorem bare_special (x : Binary64) : x.special ≠ [] ∧ ∀ c ∈ x.special, isBare c = true := by
  unfold Binary64.special
  split
  · exact ⟨by decide, by decide⟩
  · exact ⟨by decide, by decide⟩
  · exact ⟨by decide, by decide⟩

theorem bareText_special (x : Binary64) : BareText x.special :=
  bareText_of_all (bare_special x).1 (bare_special x).2

theorem bare_display (x : Binary64) : x.display ≠ [] ∧ ∀ c ∈ x.display, isBare c = true := by
  cases x with
  | fin x => exact bare_decimal _ _ _
  | nan => exact bare_special .nan
  | inf neg => exact bare_special (.inf neg)

theorem bareText_display (x : Binary64) : BareText x.display :=
  bareText_of_all (bare_display x).1 (bare_display x).2

theorem bareText_displayFixed (places : ℕ) (x : Binary64) : BareText (x.displayFixed places) := by
  cases x with
  | fin x => exact bareText_decimal _ _ _
  | nan => exact bareText_special .nan
  | inf neg => exact bareText_special (.inf neg)

theorem BareText.padLeft {s : List Char} (hs : BareText s) (width : ℕ) :
    BareText (padLeft width s) := by
  obtain ⟨n, w, rfl, hne, hw⟩ := hs
  rw [Canboat.padLeft, ← List.append_assoc, List.replicate_append_replicate]
  exact ⟨_, w, rfl, hne, hw⟩

theorem bareText_writeFixedFloat (v : Binary64) (precision minWidth : ℕ) :
    BareText (writeFixedFloat v precision minWidth) := by
  unfold writeFixedFloat
  split
  · exact (bareText_displayFixed precision v).padLeft _
  · simp only
    split
    · refine BareText.padLeft (bareText_of_all ?_ (all_append (all_sign _) (all_digits _))) _
      exact List.append_ne_nil_of_right_ne_nil _ (digits_ne_nil _)
    · refine BareText.padLeft (bareText_of_all ?_ ?_) _
      · simp
      · rw [List.append_assoc]
        exact all_append (all_sign _) (all_places _ _ _)

theorem BareText.noQuote {s : List Char} (hs : BareText s) : '"' ∉ s := by
  obtain ⟨n, w, rfl, -, hw⟩ := hs
  rw [List.mem_append, not_or]
  refine ⟨fun h => ?_, fun h => ?_⟩
  · cases List.eq_of_mem_replicate h
  · cases hw _ h

theorem BareText.passes {s : List Char} (hs : BareText s) (key : List Char) : PassesValue key s :=
  passesValue_of_noQuote hs.noQuote

theorem bareText_null : BareText "null".toList := bareText_of_all (by decide) (by decide)

/-! ## Searches past a value -/

section

variable {key : List Char} (hkey : IsKey key)

include hkey

theorem passesMembers_string {s : List Char} (hne : "name".toList ≠ key) :
    PassesMembers key (",\"name\":".toList ++ writeJsonString s) :=
  passesMembers_name hne (passesValue_str hkey (str_writeJsonString s))

/-- A value with its text behind it. -/
theorem passesValue_named {v s : List Char} (hvalue : "value".toList ≠ key)
    (hname : "name".toList ≠ key) (hv : BareText v) :
    PassesValue key ("\x7b\"value\":".toList ++ v ++ ",\"name\":".toList ++ writeJsonString s ++
      ['\x7d']) := by
  have h := passesValue_members hkey hvalue (hv.passes key) (passesMembers_string (s := s) hkey hname)
  simpa only [List.append_assoc] using h

/-- A value of the primary key. -/
theorem passesValue_keyed {v : List Char} (hvalue : "value".toList ≠ key)
    (hk : "key".toList ≠ key) (hv : PassesValue key v) :
    PassesValue key ("\x7b\"value\":".toList ++ v ++ ",\"key\":true\x7d".toList) := by
  have h := passesValue_members hkey hvalue hv (passesMembers_key hk)
  rw [show ",\"key\":true\x7d".toList = ",\"key\":true".toList ++ ['\x7d'] from rfl]
  simpa only [List.append_assoc] using h

theorem passesValue_writeBits (opts : JsonOptions) (bits : List (UInt64 × String))
    (hnot : key ∉ if opts.nameValue && !bits.isEmpty then ["value".toList, "name".toList] else []) :
    PassesValue key (writeBits opts bits) := by
  unfold writeBits
  split
  · exact bareText_null.passes key
  · rename_i hbits
    have hitem : ∀ b : UInt64 × String, PassesValue key (if opts.nameValue = true then
        "\x7b\"value\":".toList ++ digits b.1.toNat ++ ",\"name\":".toList ++
          writeJsonString b.2.toList ++ ['\x7d']
        else writeJsonString b.2.toList) := by
      intro b
      split
      · rename_i hnv
        rw [hnv, Bool.eq_false_iff.mpr hbits] at hnot
        simp only [Bool.not_false, Bool.and_self, if_true, List.mem_cons, List.not_mem_nil, or_false,
          not_or] at hnot
        exact passesValue_named hkey (Ne.symm hnot.1) (Ne.symm hnot.2) (bareText_digits _)
      · exact passesValue_str hkey (str_writeJsonString _)
    intro c hc
    have hquote : '"' ∉ [c] := by
      rw [List.mem_singleton]
      rintro rfl
      exact absurd hc (by decide)
    rw [List.isEmpty_iff] at hbits
    have hitems : ∀ v ∈ bits.map fun b => if opts.nameValue = true then
        "\x7b\"value\":".toList ++ digits b.1.toNat ++ ",\"name\":".toList ++
          writeJsonString b.2.toList ++ ['\x7d']
        else writeJsonString b.2.toList, PassesValue key v := by
      intro v hv
      obtain ⟨b, -, rfl⟩ := List.mem_map.mp hv
      exact hitem b
    have hopen : Passes key ['['] := passes_of_noQuote (by decide)
    have h := (hopen.append
      (passes_items _ hitems (by simpa using hbits))).append (passes_of_noQuote hquote)
    simpa only [List.cons_append, List.append_assoc, List.nil_append] using h

theorem passesValue_writeLeaf (opts : JsonOptions) (f : DecodedField Binary64)
    (value : FieldValue Binary64) (hnot : key ∉ leafKeys opts f value) :
    PassesValue key (writeLeaf opts f value) := by
  have hstr : ∀ {s : List Char}, Str s → PassesValue key s := fun hs => passesValue_str hkey hs
  have hkeyed : ∀ {v : List Char}, key ∉ (if opts.nameValue && f.partOfPrimaryKey then
      ["value".toList, "key".toList] else []) → PassesValue key v →
      PassesValue key (if opts.nameValue && f.partOfPrimaryKey then
        "\x7b\"value\":".toList ++ v ++ ",\"key\":true\x7d".toList else v) := by
    intro v hnot hv
    split
    · rename_i h
      rw [if_pos h, List.mem_cons, List.mem_singleton, not_or] at hnot
      exact passesValue_keyed hkey (Ne.symm hnot.1) (Ne.symm hnot.2) hv
    · exact hv
  have hnamed : ∀ {v s : List Char}, key ∉ (if opts.nameValue then
      ["value".toList, "name".toList] else []) → BareText v →
      PassesValue key (if opts.nameValue then
        "\x7b\"value\":".toList ++ v ++ ",\"name\":".toList ++ writeJsonString s ++ ['\x7d']
        else writeJsonString s) := by
    intro v s hnot hv
    split
    · rename_i h
      rw [if_pos h, List.mem_cons, List.mem_singleton, not_or] at hnot
      exact passesValue_named hkey (Ne.symm hnot.1) (Ne.symm hnot.2) hv
    · exact hstr (str_writeJsonString s)
  cases value with
  | number v => exact (bareText_writeFixedFloat _ _ _).passes key
  | integer v => exact hkeyed hnot ((bareText_writeInt _).passes key)
  | float v => exact (bareText_display v).passes key
  | binary bytes => exact hstr (str_hexString bytes)
  | lookup value name =>
      rw [leafKeys] at hnot
      simp only [writeLeaf]
      split
      · rename_i hnv
        rw [if_pos hnv, List.mem_cons, List.mem_append, not_or, not_or] at hnot
        obtain ⟨hvalue, hname, hk⟩ := hnot
        rw [List.append_assoc ("\x7b\"value\":".toList ++ digits value.toNat)]
        refine passesValue_members hkey (Ne.symm hvalue) ((bareText_digits _).passes key)
          (PassesMembers.append ?_ ?_)
        · split
          · exact .nil key
          · rename_i h
            rw [if_neg h, List.mem_singleton] at hname
            cases name with
            | none => exact passesMembers_name (Ne.symm hname) (bareText_null.passes key)
            | some s => exact passesMembers_string hkey (Ne.symm hname)
        · rw [keySuffix]
          split
          · rename_i h
            rw [if_pos h, List.mem_singleton] at hk
            exact passesMembers_key (Ne.symm hk)
          · exact .nil key
      · cases name with
        | none => exact (bareText_digits _).passes key
        | some s => exact hstr (str_writeJsonString _)
  | bitField value bits => exact passesValue_writeBits hkey opts bits hnot
  | string s => exact hstr (str_writeJsonStringWithTable true s)
  | date d => exact hnamed hnot (bareText_digits _)
  | time raw seconds => exact hnamed hnot (bareText_writeInt _)
  | mmsi v => exact hkeyed hnot (hstr (str_writeMmsi v))
  | pgn value description =>
      rw [leafKeys] at hnot
      simp only [writeLeaf]
      split
      · rename_i hnv
        rw [if_pos hnv, List.mem_cons, not_or] at hnot
        refine passesValue_members hkey (Ne.symm hnot.1) ((bareText_digits _).passes key) ?_
        cases description with
        | none => exact .nil key
        | some s =>
            rw [Option.isSome_some, if_pos rfl, List.mem_singleton] at hnot
            exact passesMembers_string hkey (Ne.symm hnot.2)
      · exact (bareText_digits _).passes key
  | isoName value subfields => exact (bareText_digits _).passes key
  | reserved value bytes bitLength => exact hstr (str_hexString bytes)
  | spare value bytes bitLength => exact hstr (str_hexString bytes)
  | notAvailable => exact bareText_null.passes key
  | outOfRange value => exact hstr (str_writeJsonString _)
  | reservedValue value => exact hstr (str_writeJsonString _)
  | unsupported fieldType => exact hstr (str_writeJsonString _)

/-- The name of an ISO NAME is an object of its subfields. -/
theorem passesValue_isoName {value : UInt64} {subs : List Char}
    (hvalue : "value".toList ≠ key) (hname : "name".toList ≠ key)
    (hsubs : Passes key (subs ++ ['\x7d'])) :
    PassesValue key ("\x7b\"value\":".toList ++ digits value.toNat ++ ",\"name\":\x7b".toList ++
      subs ++ "\x7d\x7d".toList) := by
  have hobject : PassesValue key ('\x7b' :: (subs ++ ['\x7d'])) := by
    intro c hc
    have hquote : '"' ∉ [c] := by
      rw [List.mem_singleton]
      rintro rfl
      exact absurd hc (by decide)
    have hopen : Passes key ['\x7b'] := passes_of_noQuote (by decide)
    exact (hopen.append hsubs).append
      (passes_of_noQuote hquote)
  have h := passesValue_members hkey hvalue ((bareText_digits value.toNat).passes key)
    (passesMembers_name hname hobject)
  rw [show ",\"name\":\x7b".toList = ",\"name\":".toList ++ ['\x7b'] from rfl,
    show "\x7d\x7d".toList = ['\x7d'] ++ ['\x7d'] from rfl]
  simpa only [List.append_assoc, List.cons_append, List.nil_append] using h

end

/-- The subfields' text is nothing, or has the separator before it. -/
theorem writeSubfields_comma {F : Type} [Float64 F] (opts : JsonOptions)
    (subfields : List (DecodedField F)) :
    writeSubfields opts [','] subfields = writeSubfields opts [] subfields ∧
        writeSubfields opts [] subfields = [] ∨
      writeSubfields opts [','] subfields = ',' :: writeSubfields opts [] subfields := by
  induction subfields with
  | nil => exact Or.inl ⟨rfl, rfl⟩
  | cons sf subfields ih =>
      rw [writeSubfields, writeSubfields]
      cases subfieldShown opts sf with
      | false => exact ih
      | true => exact Or.inr rfl

theorem follows_writeSubfields {F : Type} [Float64 F] {key : List Char} (opts : JsonOptions)
    (subfields : List (DecodedField F))
    (h : Passes key (writeSubfields opts [] subfields ++ ['\x7d'])) :
    Follows key (writeSubfields opts [','] subfields ++ ['\x7d']) := by
  rcases writeSubfields_comma opts subfields with ⟨heq, hnil⟩ | heq
  · rw [heq, hnil]
    exact ⟨'\x7d', [], rfl, by decide, .nil⟩
  · rw [heq]
    exact ⟨',', _, rfl, by decide, h⟩

mutual

/-- A search goes past a field's text, unless it is for a key in it. -/
theorem passes_writeFieldValue {key : List Char} (hkey : IsKey key) (opts : JsonOptions) :
    ∀ f : DecodedField Binary64, (∀ k ∈ textKeys opts f, ∀ c ∈ k, isPlain c = true) →
      key ∉ textKeys opts f → PassesValue key (writeFieldValue opts f)
  | ⟨info, value, bitOffset, bitLength, repeatIndex, repeatSet, overrides⟩, hplain, hnot => by
      cases value with
      | isoName value subfields =>
          rw [textKeys] at hplain hnot
          rw [writeFieldValue]
          cases hnv : opts.nameValue with
          | false => exact (bareText_digits _).passes key
          | true =>
              simp only [hnv, if_true, List.mem_cons, not_or] at hplain hnot
              exact passesValue_isoName hkey (Ne.symm hnot.1) (Ne.symm hnot.2.1)
                (passes_writeSubfields hkey opts subfields
                  (fun k hk => hplain k (Or.inr (Or.inr hk))) hnot.2.2)
      | _ =>
          rw [writeFieldValue_of_leaf opts (by nofun)]
          exact passesValue_writeLeaf hkey opts _ _ hnot

theorem passes_writeSubfields {key : List Char} (hkey : IsKey key) (opts : JsonOptions) :
    ∀ subfields : List (DecodedField Binary64),
      (∀ k ∈ subfieldKeys opts subfields, ∀ c ∈ k, isPlain c = true) →
      key ∉ subfieldKeys opts subfields →
      Passes key (writeSubfields opts [] subfields ++ ['\x7d'])
  | [], _, _ => passes_of_noQuote (s := ['\x7d']) (by decide)
  | sf :: subfields, hplain, hnot => by
      rw [subfieldKeys] at hplain hnot
      rw [writeSubfields]
      cases hshown : subfieldShown opts sf with
      | false =>
          simp only [hshown, Bool.false_eq_true, if_false] at hplain hnot ⊢
          exact passes_writeSubfields hkey opts subfields hplain hnot
      | true =>
          simp only [hshown, if_true, List.mem_cons, List.mem_append, not_or, forall_eq_or_imp]
            at hplain hnot
          obtain ⟨hlabel, hplain⟩ := hplain
          obtain ⟨hne, htext, hrest⟩ := hnot
          have hvalue := passes_writeFieldValue hkey opts sf
            (fun k hk => hplain k (Or.inl hk)) htext
          have hfollows := follows_writeSubfields opts subfields
            (passes_writeSubfields hkey opts subfields (fun k hk => hplain k (Or.inr hk)) hrest)
          have h := passes_member hkey hlabel (Ne.symm hne) (hvalue.append hfollows)
          rw [if_pos rfl, writeJsonString_of_plain hlabel]
          simpa only [List.append_assoc, List.cons_append, List.nil_append] using h

end

end Canboat
