import Canboat.Lib.Json.Search
import Canboat.Output.JsonText

/-!
# Where a key is in a line

A line is a sequence of members, those of the nested objects among them, with what separates
them. A search for a key ends at the first member that has it.
-/

namespace Canboat

open Json
open Binary64 (digits paddedDigits)

variable {F : Type} [Float64 F]

/-! ## Strings -/

theorem escape_of_plain {c : Char} (hc : isPlain c = true) : escape false c = [c] := by
  rw [isPlain, Bool.and_eq_true, Bool.and_eq_true, bne_iff_ne, bne_iff_ne,
    decide_eq_true_eq] at hc
  obtain ⟨⟨hcontrol, hquote⟩, hslash⟩ := hc
  have hne : ∀ d : Char, d.toNat < 0x20 → c ≠ d := by
    rintro d hd rfl
    omega
  unfold escape
  rw [if_neg hquote, if_neg hslash, if_neg (hne _ (by decide)), if_neg (hne _ (by decide)),
    if_neg (hne _ (by decide)), if_neg (hne _ (by decide)), if_neg (hne _ (by decide)),
    if_neg (by omega), if_neg (by simp)]

theorem writeJsonString_of_plain {s : List Char} (hs : ∀ c ∈ s, isPlain c = true) :
    writeJsonString s = '"' :: (s ++ ['"']) := by
  have hflat : s.flatMap (escape false) = s := by
    induction s with
    | nil => rfl
    | cons c s ih =>
        obtain ⟨hc, hs⟩ := List.forall_mem_cons.mp hs
        rw [List.flatMap_cons, escape_of_plain hc, ih hs]
        rfl
  rw [writeJsonString, writeJsonStringWithTable, hflat]

/-! ## The pieces of the fields -/

def fieldLabel (opts : JsonOptions) (f : DecodedField F) : List Char :=
  displayName opts.camelCase f.info.name f.info.id

def fieldText (opts : JsonOptions) (payload : List UInt8) (f : DecodedField F) : List Char :=
  if opts.debug then writeFieldValueDebug opts payload f else writeFieldValue opts f

/-- The end of a list that is open. -/
def FieldsBuf.close (b : FieldsBuf) : List Char :=
  if b.currentSet ≠ 0 then "\x7d]".toList else []

/-- What is written before the field's member. -/
def FieldsBuf.sepFor (b : FieldsBuf) (f : DecodedField F) : List Char :=
  if f.repeatSet = 0 then b.close ++ b.topSep
  else if b.currentSet ≠ f.repeatSet then
    b.close ++ b.topSep ++
      if f.repeatSet = 1 then "\"list\":[\x7b".toList else "\"list2\":[\x7b".toList
  else if some (f.repeatIndex.getD 0) ≠ b.currentIter then "\x7d,\x7b".toList
  else [',']

theorem push_buf (opts : JsonOptions) (payload : List UInt8) (b : FieldsBuf)
    (f : DecodedField F) :
    (b.push opts payload f).buf = b.buf ++ (b.sepFor f ++ writeMember opts payload f) := by
  rw [FieldsBuf.push, FieldsBuf.sepFor, FieldsBuf.close]
  by_cases htop : f.repeatSet = 0
  · rw [if_pos htop, if_pos htop]
  rw [if_neg htop, if_neg htop]
  by_cases hset : b.currentSet ≠ f.repeatSet
  · rw [if_pos hset, if_pos hset]
  rw [if_neg hset, if_neg hset]
  by_cases hiter : some (f.repeatIndex.getD 0) ≠ b.currentIter
  · rw [if_pos hiter, if_pos hiter]
  · rw [if_neg hiter, if_neg hiter]
    rfl

def bodyPieces (opts : JsonOptions) (payload : List UInt8) :
    FieldsBuf → List (DecodedField F) → List Piece
  | _, [] => []
  | b, f :: fields =>
      ⟨b.sepFor f, fieldLabel opts f, fieldText opts payload f⟩ ::
        bodyPieces opts payload (b.push opts payload f) fields

theorem writeMember_of_plain (opts : JsonOptions) (payload : List UInt8) {f : DecodedField F}
    (hf : ∀ c ∈ fieldLabel opts f, isPlain c = true) :
    writeMember opts payload f =
      '"' :: (fieldLabel opts f ++ '"' :: ':' :: fieldText opts payload f) := by
  have h := writeJsonString_of_plain hf
  rw [fieldLabel] at h
  rw [writeMember, h, fieldLabel, fieldText, List.cons_append, List.append_assoc]
  rfl

theorem foldl_push_buf (opts : JsonOptions) (payload : List UInt8)
    (fields : List (DecodedField F)) (b : FieldsBuf)
    (hfields : ∀ f ∈ fields, ∀ c ∈ fieldLabel opts f, isPlain c = true) :
    (fields.foldl (FieldsBuf.push opts payload) b).buf =
      b.buf ++ (bodyPieces opts payload b fields).flatMap Piece.text := by
  induction fields generalizing b with
  | nil => rw [List.foldl_nil, bodyPieces, List.flatMap_nil, List.append_nil]
  | cons f fields ih =>
      obtain ⟨hf, hfields⟩ := List.forall_mem_cons.mp hfields
      rw [List.foldl_cons, ih _ hfields, push_buf, bodyPieces, List.flatMap_cons, Piece.text,
        writeMember_of_plain opts payload hf, List.append_assoc]

/-- A list is open only after a member, and then a comma goes before the next one. -/
def FieldsBuf.Begun (b : FieldsBuf) : Prop := b.topSep = [',']

theorem push_begun (opts : JsonOptions) (payload : List UInt8) (b : FieldsBuf)
    (f : DecodedField F) (hb : b.Begun ∨ b.currentSet = 0) : (b.push opts payload f).Begun := by
  rw [FieldsBuf.push, FieldsBuf.Begun]
  by_cases htop : f.repeatSet = 0
  · rw [if_pos htop]
  rw [if_neg htop]
  by_cases hset : b.currentSet ≠ f.repeatSet
  · rw [if_pos hset]
  have hbegun : b.topSep = [','] := by
    rcases hb with h | h
    · exact h
    · exact absurd ((not_not.mp hset).symm.trans h) htop
  rw [if_neg hset]
  by_cases hiter : some (f.repeatIndex.getD 0) ≠ b.currentIter
  · rw [if_pos hiter]
    exact hbegun
  · rw [if_neg hiter]
    exact hbegun

theorem foldl_push_begun (opts : JsonOptions) (payload : List UInt8)
    (fields : List (DecodedField F)) {b : FieldsBuf} (hb : b.Begun) :
    (fields.foldl (FieldsBuf.push opts payload) b).Begun := by
  induction fields generalizing b with
  | nil => exact hb
  | cons f fields ih => exact ih (push_begun opts payload b f (Or.inl hb))

/-! ## Searches past the separators -/

/-- The keys of the lists, and those of the record around the fields. -/
def recordKeys : List (List Char) :=
  ["timestamp".toList, "prio".toList, "src".toList, "dst".toList, "pgn".toList,
    "description".toList, "fields".toList, "list".toList, "list2".toList]

/-- Those of the objects that the fields are in. -/
def listKeys : List (List Char) := ["fields".toList, "list".toList, "list2".toList]

theorem recordKeys_plain : ∀ k ∈ recordKeys, ∀ c ∈ k, isPlain c = true := by decide

theorem listKeys_subset : listKeys ⊆ recordKeys := by decide

/-- A member with another key. -/
theorem passes_member {key k s : List Char} (hkey : IsKey key) (hk : ∀ c ∈ k, isPlain c = true)
    (hne : k ≠ key) (hs : Passes key s) : Passes key ('"' :: (k ++ '"' :: ':' :: s)) := by
  have h := (passes_key hkey hk hne).append hs
  simpa only [List.cons_append, List.append_assoc, List.nil_append] using h

theorem passes_listKey {key k s : List Char} (hkey : IsKey key) (hnot : key ∉ listKeys)
    (hk : k ∈ listKeys) (hs : Passes key s) : Passes key ('"' :: (k ++ '"' :: ':' :: s)) :=
  passes_member hkey (recordKeys_plain k (listKeys_subset hk)) (fun h => hnot (h ▸ hk)) hs

theorem passes_listOpening {key : List Char} (hkey : IsKey key) (hnot : key ∉ listKeys)
    (set : UInt8) :
    Passes key (if set = 1 then "\"list\":[\x7b".toList else "\"list2\":[\x7b".toList) := by
  have hlast : Passes key ['[', '\x7b'] := passes_of_noQuote (by decide)
  split
  · exact passes_listKey (k := "list".toList) hkey hnot (by decide) hlast
  · exact passes_listKey (k := "list2".toList) hkey hnot (by decide) hlast

omit [Float64 F] in
/-- The separator of the first member. -/
theorem passes_sepFor_first {key : List Char} (hkey : IsKey key) (hnot : key ∉ listKeys)
    (f : DecodedField F) : Passes key (FieldsBuf.sepFor ⟨[], [], 0, none⟩ f) := by
  rw [FieldsBuf.sepFor]
  by_cases htop : f.repeatSet = 0
  · rw [if_pos htop]
    exact .nil
  · rw [if_neg htop, if_pos (fun h => htop h.symm)]
    exact passes_listOpening hkey hnot _

omit [Float64 F] in
/-- The separator of a later one. -/
theorem follows_sepFor {key : List Char} (hkey : IsKey key) (hnot : key ∉ listKeys)
    {b : FieldsBuf} (hb : b.Begun) (f : DecodedField F) : Follows key (b.sepFor f) := by
  have hcomma : ∀ {s : List Char}, Passes key s → Follows key (b.close ++ b.topSep ++ s) := by
    intro s hs
    rw [FieldsBuf.close, hb]
    split
    · exact ⟨'\x7d', _, rfl, by decide, (passes_of_noQuote (s := [']', ',']) (by decide)).append hs⟩
    · exact ⟨',', _, rfl, by decide, hs⟩
  rw [FieldsBuf.sepFor]
  by_cases htop : f.repeatSet = 0
  · rw [if_pos htop]
    have h := hcomma .nil
    rwa [List.append_nil] at h
  rw [if_neg htop]
  by_cases hset : b.currentSet ≠ f.repeatSet
  · rw [if_pos hset]
    exact hcomma (passes_listOpening hkey hnot _)
  rw [if_neg hset]
  by_cases hiter : some (f.repeatIndex.getD 0) ≠ b.currentIter
  · rw [if_pos hiter]
    exact ⟨'\x7d', _, rfl, by decide, passes_of_noQuote (by decide)⟩
  · rw [if_neg hiter]
    exact ⟨',', _, rfl, by decide, .nil⟩

/-- The search for a key goes past the field's member. -/
structure PassedField (opts : JsonOptions) (payload : List UInt8) (key : List Char)
    (f : DecodedField F) : Prop where
  plain : ∀ c ∈ fieldLabel opts f, isPlain c = true
  ne : fieldLabel opts f ≠ key
  value : PassesValue key (fieldText opts payload f)

theorem bodyPieces_passed {opts : JsonOptions} {payload : List UInt8} {key : List Char}
    (hkey : IsKey key) (hnot : key ∉ listKeys) (fields : List (DecodedField F))
    (hfields : ∀ f ∈ fields, PassedField opts payload key f) {b : FieldsBuf} (hb : b.Begun) :
    ∀ p ∈ bodyPieces opts payload b fields, p.Passed key := by
  induction fields generalizing b with
  | nil => exact nofun
  | cons f fields ih =>
      obtain ⟨hf, hfields⟩ := List.forall_mem_cons.mp hfields
      rw [bodyPieces, List.forall_mem_cons]
      exact ⟨⟨follows_sepFor hkey hnot hb f, hf.plain, hf.ne, hf.value⟩,
        ih hfields (push_begun opts payload b f (Or.inl hb))⟩

theorem bodyPieces_append (opts : JsonOptions) (payload : List UInt8)
    (fields fields' : List (DecodedField F)) (b : FieldsBuf) :
    bodyPieces opts payload b (fields ++ fields') =
      bodyPieces opts payload b fields ++
        bodyPieces opts payload (fields.foldl (FieldsBuf.push opts payload) b) fields' := by
  induction fields generalizing b with
  | nil => rfl
  | cons f fields ih => rw [List.cons_append, bodyPieces, bodyPieces, ih, List.foldl_cons,
      List.cons_append]

/-! ## The record around the fields -/

/-- Where a value may end. -/
def EndsValue (s : List Char) : Prop := ∃ c r, s = c :: r ∧ c ∈ [',', '\x7d']

/-- An empty object for a list that shows no field. -/
def FieldsBuf.emptyList (opts : JsonOptions) (d : DecodedPgn F) (b : FieldsBuf) : List Char :=
  if d.hasRepeatingSet.1 ∧ ¬sawSet opts d.fields 1 then
    (if b.currentSet = 0 then b.topSep else []) ++ "\"list\":[\x7b\x7d]".toList
  else []

def emptyList2 (opts : JsonOptions) (d : DecodedPgn F) : List Char :=
  if d.hasRepeatingSet.2 ∧ ¬sawSet opts d.fields 2 then ",\"list2\":[\x7b\x7d]".toList else []

omit [Float64 F] in
theorem finish_eq (opts : JsonOptions) (d : DecodedPgn F) {b : FieldsBuf} (hbuf : b.buf ≠ []) :
    FieldsBuf.finish opts d b =
      b.buf ++ (b.close ++ (b.emptyList opts d ++ emptyList2 opts d)) := by
  have hclose : b.buf ++ b.close ≠ [] := fun h => hbuf (List.append_eq_nil_iff.mp h).1
  have hlist : ∀ s : List Char, b.buf ++ (b.close ++ s) ≠ [] := fun s h =>
    hbuf (List.append_eq_nil_iff.mp h).1
  unfold FieldsBuf.finish
  rw [show (if b.currentSet ≠ 0 then "\x7d]".toList else []) = b.close from rfl,
    FieldsBuf.emptyList, emptyList2]
  by_cases h1 : d.hasRepeatingSet.1 = true ∧ ¬sawSet opts d.fields 1 = true
  · by_cases h2 : d.hasRepeatingSet.2 = true ∧ ¬sawSet opts d.fields 2 = true
    · simp only [if_pos h1, if_pos h2, ne_eq, hclose, hlist, not_false_eq_true, true_and, if_true,
        List.append_assoc]
      rfl
    · simp only [if_pos h1, if_neg h2, ne_eq, hclose, not_false_eq_true, true_and,
        List.append_assoc, List.append_nil]
  · by_cases h2 : d.hasRepeatingSet.2 = true ∧ ¬sawSet opts d.fields 2 = true
    · simp only [if_neg h1, if_pos h2, ne_eq, hclose, not_false_eq_true, if_true,
        List.append_assoc, List.nil_append]
      rfl
    · simp only [if_neg h1, if_neg h2, List.append_nil]

/-- What may follow, or nothing. -/
theorem follows_append {key s t : List Char} (hs : s = [] ∨ Follows key s) (ht : Follows key t) :
    Follows key (s ++ t) := by
  rcases hs with rfl | ⟨c, r, rfl, hc, hr⟩
  · exact ht
  · exact ⟨c, r ++ t, rfl, hc, hr.append ht.passes⟩

theorem passes_emptyList {key : List Char} (hkey : IsKey key) (hnot : key ∉ listKeys) :
    Passes key "\"list\":[\x7b\x7d]".toList ∧ Passes key "\"list2\":[\x7b\x7d]".toList := by
  have hobject : Passes key "[\x7b\x7d]".toList := passes_of_noQuote (by decide)
  rw [show "\"list\":[\x7b\x7d]".toList = '"' :: ("list".toList ++ '"' :: ':' :: "[\x7b\x7d]".toList)
    from rfl, show "\"list2\":[\x7b\x7d]".toList =
      '"' :: ("list2".toList ++ '"' :: ':' :: "[\x7b\x7d]".toList) from rfl]
  exact ⟨passes_listKey hkey hnot (by decide) hobject, passes_listKey hkey hnot (by decide) hobject⟩

omit [Float64 F] in
theorem follows_emptyList2 {key : List Char} (hkey : IsKey key) (hnot : key ∉ listKeys)
    (opts : JsonOptions) (d : DecodedPgn F) :
    emptyList2 opts d = [] ∨ Follows key (emptyList2 opts d) := by
  rw [emptyList2, show ",\"list2\":[\x7b\x7d]".toList = ',' :: "\"list2\":[\x7b\x7d]".toList from rfl]
  split
  · exact Or.inr ⟨',', _, rfl, by decide, (passes_emptyList hkey hnot).2⟩
  · exact Or.inl rfl

omit [Float64 F] in
theorem follows_finish {key : List Char} (hkey : IsKey key) (hnot : key ∉ listKeys)
    (opts : JsonOptions) (d : DecodedPgn F) {b : FieldsBuf} (hb : b.Begun) {t : List Char}
    (ht : Follows key t) :
    Follows key (b.close ++ (b.emptyList opts d ++ emptyList2 opts d) ++ t) := by
  have hlist := (passes_emptyList hkey hnot).1
  have hrest := follows_append (follows_emptyList2 hkey hnot opts d) ht
  rw [List.append_assoc, List.append_assoc, FieldsBuf.close, FieldsBuf.emptyList, hb]
  by_cases hset : b.currentSet = 0
  · rw [if_neg (not_not.mpr hset), List.nil_append]
    simp only [if_pos hset]
    refine follows_append ?_ hrest
    split
    · exact Or.inr ⟨',', _, rfl, by decide, hlist⟩
    · exact Or.inl rfl
  · rw [if_pos hset]
    simp only [if_neg hset]
    refine ⟨'\x7d', _, rfl, by decide,
      (passes_of_noQuote (s := [']']) (by decide)).append ?_⟩
    split
    · exact Passes.append hlist hrest.passes
    · exact hrest.passes

/-- The members before the fields, but for the timestamp. -/
def fixedHeaders (opts : JsonOptions) (d : DecodedPgn F) : List (List Char × List Char) :=
  [("prio".toList, digits d.prio.toNat), ("src".toList, digits d.src.toNat),
    ("dst".toList, digits d.dst.toNat), ("pgn".toList, digits d.pgn.toNat),
    ("description".toList, writeJsonString (displayName opts.camelCase d.description d.id))]

def headers (opts : JsonOptions) (d : DecodedPgn F) : List (List Char × List Char) :=
  match d.timestamp with
  | some ts =>
      ("timestamp".toList, writeJsonString (normalizeTimestamp ts.toList)) :: fixedHeaders opts d
  | none => fixedHeaders opts d

def headerPiece (m : List Char × List Char) : Piece := ⟨[','], m.1, m.2⟩

/-- The text before the record. -/
def lineOpening (opts : JsonOptions) (d : DecodedPgn F) : List Char :=
  if opts.camelCase = .off then ['\x7b']
  else "\x7b\"".toList ++ displayName opts.camelCase d.description d.id ++ "\":\x7b".toList

/-- The text after the record. -/
def lineClosing (opts : JsonOptions) : List Char :=
  if opts.camelCase = .off then ['\x7d'] else "\x7d\x7d".toList

omit [Float64 F] in
theorem passes_lineOpening {opts : JsonOptions} {d : DecodedPgn F} {key : List Char}
    (hkey : IsKey key)
    (hplain : opts.camelCase ≠ .off →
      ∀ c ∈ displayName opts.camelCase d.description d.id, isPlain c = true)
    (hne : opts.camelCase ≠ .off → displayName opts.camelCase d.description d.id ≠ key) :
    Passes key (lineOpening opts d) := by
  rw [lineOpening]
  split
  · exact passes_of_noQuote (by decide)
  · rename_i hcamel
    have hbrace : Passes key ['\x7b'] := passes_of_noQuote (by decide)
    have h := ((hbrace.append (passes_key hkey (hplain hcamel) (hne hcamel))).append hbrace)
    rw [show "\x7b\"".toList = ['\x7b', '"'] from rfl, show "\":\x7b".toList = ['"', ':', '\x7b'] from rfl]
    simpa only [List.cons_append, List.append_assoc, List.nil_append] using h

/-- The fields, if the record shows any, in an object. -/
def fieldsObject (opts : JsonOptions) (d : DecodedPgn F) : List Char :=
  if fieldsText opts d = [] then []
  else ",\"fields\":\x7b".toList ++ fieldsText opts d ++ ['\x7d']

theorem recordText_eq (opts : JsonOptions) (d : DecodedPgn F) :
    ∃ m ms, headers opts d = m :: ms ∧
      recordText opts d = '"' :: (m.1 ++ '"' :: ':' :: m.2) ++
        ((ms.map headerPiece).flatMap Piece.text ++ fieldsObject opts d) := by
  have hsrc : ",\"src\":".toList = ',' :: '"' :: ("src".toList ++ ['"', ':']) := rfl
  have hdst : ",\"dst\":".toList = ',' :: '"' :: ("dst".toList ++ ['"', ':']) := rfl
  have hpgn : ",\"pgn\":".toList = ',' :: '"' :: ("pgn".toList ++ ['"', ':']) := rfl
  have hdesc : ",\"description\":".toList = ',' :: '"' :: ("description".toList ++ ['"', ':']) :=
    rfl
  have hprio : "\"prio\":".toList = '"' :: ("prio".toList ++ ['"', ':']) := rfl
  have htimestamp : "\"timestamp\":".toList = '"' :: ("timestamp".toList ++ ['"', ':']) := rfl
  cases hts : d.timestamp with
  | none =>
      refine ⟨_, _, by rw [headers, hts]; rfl, ?_⟩
      rw [recordText, hts, hsrc, hdst, hpgn, hdesc, hprio]
      simp only [headerPiece, Piece.text, fieldsObject, List.map_cons, List.map_nil,
        List.flatMap_cons, List.flatMap_nil, List.append_assoc, List.cons_append, List.nil_append]
  | some ts =>
      refine ⟨_, _, by rw [headers, hts], ?_⟩
      rw [recordText, hts, hsrc, hdst, hpgn, hdesc, hprio, htimestamp]
      simp only [fixedHeaders, headerPiece, Piece.text, fieldsObject, List.map_cons, List.map_nil,
        List.flatMap_cons, List.flatMap_nil, List.append_assoc, List.cons_append, List.nil_append]

theorem writeJson_eq (opts : JsonOptions) (d : DecodedPgn F) :
    writeJson opts d = lineOpening opts d ++ (recordText opts d ++ lineClosing opts) := by
  rw [writeJson, lineOpening, lineClosing]
  split
  · rfl
  · simp only [List.append_assoc, List.cons_append]
    rfl

/-! ## The search for a key -/

omit [Float64 F] in
theorem headers_plain (opts : JsonOptions) (d : DecodedPgn F) :
    ∀ m ∈ headers opts d, m.1 ∈ recordKeys ∧ ∀ key, IsKey key → PassesValue key m.2 := by
  have hdigits : ∀ (n : ℕ) (key : List Char), PassesValue key (digits n) := by
    intro n key
    refine passesValue_of_noQuote fun h => ?_
    exact digit_ne (digits_digits n _ h) rfl rfl
  have hfixed : ∀ m ∈ fixedHeaders opts d,
      m.1 ∈ recordKeys ∧ ∀ key, IsKey key → PassesValue key m.2 := by
    simp only [fixedHeaders, List.forall_mem_cons, List.not_mem_nil, false_implies, implies_true,
      and_true]
    exact ⟨⟨by decide, fun key _ => hdigits _ key⟩, ⟨by decide, fun key _ => hdigits _ key⟩,
      ⟨by decide, fun key _ => hdigits _ key⟩, ⟨by decide, fun key _ => hdigits _ key⟩,
      ⟨by decide, fun key hkey => passesValue_str hkey (str_writeJsonString _)⟩⟩
  rw [headers]
  cases d.timestamp with
  | none => exact hfixed
  | some ts =>
      rw [List.forall_mem_cons]
      exact ⟨⟨List.mem_cons_self, fun key hkey => passesValue_str hkey (str_writeJsonString _)⟩,
        hfixed⟩

omit [Float64 F] in
theorem headerPiece_passed {opts : JsonOptions} {d : DecodedPgn F} {key : List Char}
    (hkey : IsKey key) {m : List Char × List Char} (hm : m ∈ headers opts d) (hne : m.1 ≠ key) :
    (headerPiece m).Passed key := by
  obtain ⟨hmem, hvalue⟩ := headers_plain opts d m hm
  exact ⟨⟨',', [], rfl, by decide, .nil⟩, recordKeys_plain _ hmem, hne, hvalue key hkey⟩

theorem endsValue_of_follows {key s : List Char} (hs : Follows key s) (t : List Char) :
    EndsValue (s ++ t) := by
  obtain ⟨c, r, rfl, hc, -⟩ := hs
  exact ⟨c, r ++ t, rfl, hc⟩

theorem endsValue_bodyPieces (opts : JsonOptions) (payload : List UInt8) {b : FieldsBuf}
    (hb : b.Begun) (fields : List (DecodedField F)) {t : List Char} (ht : EndsValue t) :
    EndsValue ((bodyPieces opts payload b fields).flatMap Piece.text ++ t) := by
  cases fields with
  | nil => exact ht
  | cons f fields =>
      have hsep : Follows ['?'] (b.sepFor f) := follows_sepFor (by decide) (by decide) hb f
      rw [bodyPieces, List.flatMap_cons, Piece.text, List.append_assoc, List.append_assoc]
      exact endsValue_of_follows hsep _

/-- The pieces of the shown fields, with the opening of the object before the first. -/
def fieldPieces (opts : JsonOptions) (d : DecodedPgn F) : List Piece :=
  match d.fields.filter (shown opts (payloadBits d.data)) with
  | [] => []
  | g :: fields =>
      ⟨",\"fields\":\x7b".toList ++ FieldsBuf.sepFor ⟨[], [], 0, none⟩ g, fieldLabel opts g,
          fieldText opts d.data g⟩ ::
        bodyPieces opts d.data (FieldsBuf.push opts d.data ⟨[], [], 0, none⟩ g) fields

/-- What is after the pieces. -/
def lineTail (opts : JsonOptions) (d : DecodedPgn F) : List Char :=
  match d.fields.filter (shown opts (payloadBits d.data)) with
  | [] => fieldsObject opts d ++ lineClosing opts
  | g :: fields =>
      let b := (g :: fields).foldl (FieldsBuf.push opts d.data) ⟨[], [], 0, none⟩
      b.close ++ (b.emptyList opts d ++ emptyList2 opts d) ++ '\x7d' :: lineClosing opts

theorem fieldsObject_eq {opts : JsonOptions} {d : DecodedPgn F}
    (hplain : ∀ f ∈ d.fields.filter (shown opts (payloadBits d.data)),
      ∀ c ∈ fieldLabel opts f, isPlain c = true) :
    fieldsObject opts d ++ lineClosing opts =
      (fieldPieces opts d).flatMap Piece.text ++ lineTail opts d := by
  rw [fieldPieces, lineTail]
  cases hfields : d.fields.filter (shown opts (payloadBits d.data)) with
  | nil => rfl
  | cons g fields =>
      rw [hfields] at hplain
      have hbuf := foldl_push_buf opts d.data (g :: fields) ⟨[], [], 0, none⟩ hplain
      rw [bodyPieces, List.flatMap_cons, List.nil_append] at hbuf
      simp only
      generalize hb : (g :: fields).foldl (FieldsBuf.push opts d.data) ⟨[], [], 0, none⟩ = b at hbuf
      have hne : b.buf ≠ [] := by
        rw [hbuf, Piece.text]
        simp
      have htext : fieldsText opts d =
          b.buf ++ (b.close ++ (b.emptyList opts d ++ emptyList2 opts d)) := by
        rw [fieldsText, hfields, hb, finish_eq opts d hne]
      rw [fieldsObject, if_neg (by rw [htext]; simp [hne]), htext, hbuf, List.flatMap_cons,
        Piece.text, Piece.text]
      simp only [List.append_assoc, List.cons_append, List.nil_append]

omit [Float64 F] in
theorem follows_lineClosing (key : List Char) (opts : JsonOptions) :
    Follows key (lineClosing opts) := by
  rw [lineClosing]
  split
  · exact ⟨'\x7d', _, rfl, by decide, .nil⟩
  · exact ⟨'\x7d', _, rfl, by decide, passes_of_noQuote (by decide)⟩

theorem fieldsOpening_eq :
    ",\"fields\":\x7b".toList = ',' :: '"' :: ("fields".toList ++ ['"', ':', '\x7b']) := rfl

omit [Float64 F] in
/-- The lists of a record that shows no field. -/
theorem passes_finish_nil {key : List Char} (hkey : IsKey key) (hnot : key ∉ listKeys)
    (opts : JsonOptions) (d : DecodedPgn F) :
    Passes key (FieldsBuf.finish opts d ⟨[], [], 0, none⟩) := by
  obtain ⟨hlist, hlist2⟩ := passes_emptyList hkey hnot
  have hfirst : Passes key (if d.hasRepeatingSet.1 ∧ ¬sawSet opts d.fields 1 then
      "\"list\":[\x7b\x7d]".toList else []) := by
    split
    · exact hlist
    · exact .nil
  have hcomma : ∀ s : List Char, Passes key (if s ≠ [] then [','] else []) := by
    intro s
    split
    · exact passes_of_noQuote (by decide)
    · exact .nil
  rw [FieldsBuf.finish]
  simp only [List.nil_append, List.append_nil, ne_eq, not_true_eq_false, if_false]
  by_cases h2 : d.hasRepeatingSet.2 = true ∧ ¬sawSet opts d.fields 2 = true
  · rw [if_pos h2]
    exact (hfirst.append (hcomma _)).append hlist2
  · rw [if_neg h2]
    exact hfirst

theorem follows_lineTail {key : List Char} (hkey : IsKey key) (hnot : key ∉ listKeys)
    (opts : JsonOptions) (d : DecodedPgn F) : Follows key (lineTail opts d) := by
  have hclosing := follows_lineClosing key opts
  rw [lineTail]
  cases hfields : d.fields.filter (shown opts (payloadBits d.data)) with
  | nil =>
      refine follows_append ?_ hclosing
      rw [fieldsObject, fieldsText, hfields, List.foldl_nil, fieldsOpening_eq]
      split
      · exact Or.inl rfl
      · have hbody := ((passes_of_noQuote (s := ['\x7b']) (by decide)).append
          (passes_finish_nil hkey hnot opts d)).append (passes_of_noQuote (s := ['\x7d']) (by decide))
        have h := passes_listKey (k := "fields".toList) hkey hnot (by decide) hbody
        simp only [List.cons_append]
        refine Or.inr ⟨',', _, rfl, by decide, ?_⟩
        simpa only [List.append_assoc, List.cons_append, List.nil_append] using h
  | cons g fields =>
      have hbegun := foldl_push_begun opts d.data fields
        (push_begun opts d.data ⟨[], [], 0, none⟩ g (Or.inr rfl))
      refine follows_finish hkey hnot opts d hbegun ?_
      exact ⟨'\x7d', _, rfl, by decide, hclosing.passes⟩

omit [Float64 F] in
/-- The opening of the fields goes to the separator of the first. -/
theorem follows_fieldsOpening {key : List Char} (hkey : IsKey key) (hnot : key ∉ listKeys)
    (g : DecodedField F) :
    Follows key (",\"fields\":\x7b".toList ++ FieldsBuf.sepFor ⟨[], [], 0, none⟩ g) := by
  have h := passes_listKey (k := "fields".toList) hkey hnot (by decide)
    ((passes_of_noQuote (s := ['\x7b']) (by decide)).append (passes_sepFor_first hkey hnot g))
  rw [fieldsOpening_eq]
  simp only [List.cons_append]
  refine ⟨',', _, rfl, by decide, ?_⟩
  simpa only [List.append_assoc, List.cons_append, List.nil_append] using h

theorem fieldPieces_passed {opts : JsonOptions} {d : DecodedPgn F} {key : List Char}
    (hkey : IsKey key) (hnot : key ∉ listKeys)
    (hfields : ∀ f ∈ d.fields.filter (shown opts (payloadBits d.data)),
      PassedField opts d.data key f) :
    ∀ p ∈ fieldPieces opts d, p.Passed key := by
  rw [fieldPieces]
  cases hshown : d.fields.filter (shown opts (payloadBits d.data)) with
  | nil => exact nofun
  | cons g fields =>
      rw [hshown] at hfields
      obtain ⟨hg, hfields⟩ := List.forall_mem_cons.mp hfields
      rw [List.forall_mem_cons]
      exact ⟨⟨follows_fieldsOpening hkey hnot g, hg.plain, hg.ne, hg.value⟩,
        bodyPieces_passed hkey hnot fields hfields
          (push_begun opts d.data ⟨[], [], 0, none⟩ g (Or.inr rfl))⟩

/-- The pieces before a field's and those after it. -/
theorem fieldPieces_split {opts : JsonOptions} {d : DecodedPgn F} {ps qs : List (DecodedField F)}
    {f : DecodedField F}
    (hfields : d.fields.filter (shown opts (payloadBits d.data)) = ps ++ f :: qs) :
    ∃ before sep after,
      fieldPieces opts d = before ++ ⟨sep, fieldLabel opts f, fieldText opts d.data f⟩ :: after ∧
      (∀ key, IsKey key → key ∉ listKeys → (∀ g ∈ ps, PassedField opts d.data key g) →
        (∀ p ∈ before, p.Passed key) ∧ Follows key sep) ∧
      ∀ t, EndsValue t → EndsValue (after.flatMap Piece.text ++ t) := by
  rw [fieldPieces, hfields]
  cases ps with
  | nil =>
      refine ⟨[], _, _, rfl, fun key hkey hnot _ => ⟨nofun, follows_fieldsOpening hkey hnot f⟩, ?_⟩
      intro t ht
      exact endsValue_bodyPieces opts d.data
        (push_begun opts d.data ⟨[], [], 0, none⟩ f (Or.inr rfl)) qs ht
  | cons g ps =>
      have hbegun := push_begun opts d.data ⟨[], [], 0, none⟩ g (Or.inr rfl)
      have hbegun' := foldl_push_begun opts d.data ps hbegun
      refine ⟨⟨",\"fields\":\x7b".toList ++ FieldsBuf.sepFor ⟨[], [], 0, none⟩ g,
          fieldLabel opts g, fieldText opts d.data g⟩ ::
          bodyPieces opts d.data (FieldsBuf.push opts d.data ⟨[], [], 0, none⟩ g) ps,
        FieldsBuf.sepFor (ps.foldl (FieldsBuf.push opts d.data)
          (FieldsBuf.push opts d.data ⟨[], [], 0, none⟩ g)) f,
        bodyPieces opts d.data (FieldsBuf.push opts d.data (ps.foldl (FieldsBuf.push opts d.data)
          (FieldsBuf.push opts d.data ⟨[], [], 0, none⟩ g)) f) qs,
        ?_, fun key hkey hnot hps => ?_, fun t ht => ?_⟩
      · simp only [List.cons_append]
        rw [bodyPieces_append, bodyPieces]
      · obtain ⟨hg, hps⟩ := List.forall_mem_cons.mp hps
        rw [List.forall_mem_cons]
        exact ⟨⟨⟨follows_fieldsOpening hkey hnot g, hg.plain, hg.ne, hg.value⟩,
          bodyPieces_passed hkey hnot ps hps hbegun⟩, follows_sepFor hkey hnot hbegun' f⟩
      · exact endsValue_bodyPieces opts d.data
          (push_begun opts d.data _ f (Or.inl hbegun')) qs ht

/-- The line, by its members. -/
theorem writeJson_pieces {opts : JsonOptions} {d : DecodedPgn F}
    (hplain : ∀ f ∈ d.fields.filter (shown opts (payloadBits d.data)),
      ∀ c ∈ fieldLabel opts f, isPlain c = true) :
    ∃ m ms, headers opts d = m :: ms ∧
      writeJson opts d = lineOpening opts d ++ ('"' :: (m.1 ++ '"' :: ':' :: m.2) ++
        ((ms.map headerPiece ++ fieldPieces opts d).flatMap Piece.text ++ lineTail opts d)) := by
  obtain ⟨m, ms, hheaders, hrecord⟩ := recordText_eq opts d
  refine ⟨m, ms, hheaders, ?_⟩
  have hobject := fieldsObject_eq hplain
  rw [writeJson_eq, hrecord, List.flatMap_append]
  simp only [List.append_assoc, List.cons_append]
  rw [hobject]

/-- The keys of the record in the line. -/
def lineKeys (opts : JsonOptions) (d : DecodedPgn F) : List (List Char) :=
  (headers opts d).map (·.1) ++ listKeys

omit [Float64 F] in
theorem lineKeys_subset (opts : JsonOptions) (d : DecodedPgn F) :
    lineKeys opts d ⊆ recordKeys := by
  intro k hk
  rcases List.mem_append.mp hk with hk | hk
  · obtain ⟨m, hm, rfl⟩ := List.mem_map.mp hk
    exact (headers_plain opts d m hm).1
  · exact listKeys_subset hk

section

variable {opts : JsonOptions} {d : DecodedPgn F} {key : List Char} (hkey : IsKey key)
  (hplain : opts.camelCase ≠ .off →
      ∀ c ∈ displayName opts.camelCase d.description d.id, isPlain c = true)
  (hne : opts.camelCase ≠ .off → displayName opts.camelCase d.description d.id ≠ key)

include hkey

omit [Float64 F] in
theorem headerPieces_passed (hnot : key ∉ lineKeys opts d) {m : List Char × List Char}
    {ms : List (List Char × List Char)} (hheaders : headers opts d = m :: ms) :
    m.1 ≠ key ∧ ∀ p ∈ ms.map headerPiece, p.Passed key := by
  have hheader : ∀ m' ∈ m :: ms, m'.1 ≠ key := fun m' hm' h =>
    hnot (List.mem_append_left _ (List.mem_map.mpr ⟨m', hheaders ▸ hm', h⟩))
  refine ⟨hheader m List.mem_cons_self, fun p hp => ?_⟩
  obtain ⟨m', hm', rfl⟩ := List.mem_map.mp hp
  exact headerPiece_passed hkey (hheaders ▸ List.mem_cons_of_mem _ hm')
    (hheader m' (List.mem_cons_of_mem _ hm'))

include hplain hne

/-- Where the record has no list or header with the key, the search finds the first shown field
with it, and what follows the field's text ends a value. -/
theorem afterKey?_field (hnot : key ∉ lineKeys opts d) {ps qs : List (DecodedField F)}
    {f : DecodedField F}
    (hfields : d.fields.filter (shown opts (payloadBits d.data)) = ps ++ f :: qs)
    (hps : ∀ g ∈ ps, PassedField opts d.data key g) (hf : fieldLabel opts f = key)
    (hqs : ∀ g ∈ qs, ∀ c ∈ fieldLabel opts g, isPlain c = true) :
    ∃ t, EndsValue t ∧
      afterKey? key (writeJson opts d) = some (fieldText opts d.data f ++ t) := by
  have hlist : key ∉ listKeys := fun h => hnot (List.mem_append_right _ h)
  have hlabels : ∀ g ∈ d.fields.filter (shown opts (payloadBits d.data)),
      ∀ c ∈ fieldLabel opts g, isPlain c = true := by
    intro g hg
    rw [hfields, List.mem_append, List.mem_cons] at hg
    rcases hg with hg | rfl | hg
    · exact (hps g hg).plain
    · rw [hf]
      exact hkey.plain
    · exact hqs g hg
  obtain ⟨m, ms, hheaders, hline⟩ := writeJson_pieces hlabels
  obtain ⟨hm, hheader⟩ := headerPieces_passed hkey hnot hheaders
  obtain ⟨hmem, hvalue⟩ := headers_plain opts d m (hheaders ▸ List.mem_cons_self)
  obtain ⟨before, sep, after, hpieces, hpassed, hafter⟩ := fieldPieces_split hfields
  obtain ⟨hbefore, hsep⟩ := hpassed key hkey hlist hps
  have hall : ∀ p ∈ ms.map headerPiece ++ before, p.Passed key := by
    intro p hp
    rcases List.mem_append.mp hp with hp | hp
    · exact hheader p hp
    · exact hbefore p hp
  have hends : EndsValue (lineTail opts d) := by
    have h := endsValue_of_follows (follows_lineTail hkey hlist opts d) []
    rwa [List.append_nil] at h
  have hsearch := afterKey?_pieces (v := fieldText opts d.data f) hkey
    (passes_lineOpening hkey hplain hne) _ hall hsep m.1 m.2
    (after.flatMap Piece.text ++ lineTail opts d) (recordKeys_plain _ hmem) hm (hvalue key hkey)
  refine ⟨_, hafter _ hends, ?_⟩
  rw [hline, hpieces]
  simpa only [List.flatMap_append, List.flatMap_cons, Piece.text, hf, List.cons_append,
    List.append_assoc] using hsearch

/-- A key that no member of the line has. -/
theorem afterKey?_absent (hnot : key ∉ lineKeys opts d)
    (hfields : ∀ f ∈ d.fields.filter (shown opts (payloadBits d.data)),
      PassedField opts d.data key f) :
    afterKey? key (writeJson opts d) = none := by
  have hlist : key ∉ listKeys := fun h => hnot (List.mem_append_right _ h)
  obtain ⟨m, ms, hheaders, hline⟩ := writeJson_pieces fun f hf => (hfields f hf).plain
  obtain ⟨hm, hheader⟩ := headerPieces_passed hkey hnot hheaders
  obtain ⟨hmem, hvalue⟩ := headers_plain opts d m (hheaders ▸ List.mem_cons_self)
  have hall : ∀ p ∈ ms.map headerPiece ++ fieldPieces opts d, p.Passed key := by
    intro p hp
    rcases List.mem_append.mp hp with hp | hp
    · exact hheader p hp
    · exact fieldPieces_passed hkey hlist hfields p hp
  have hpasses := (passes_lineOpening hkey hplain hne).append
    (passes_cons_pieces hkey (recordKeys_plain _ hmem) hm (hvalue key hkey) _ hall
      (follows_lineTail hkey hlist opts d))
  have h := hpasses []
  rw [List.append_nil, show afterKey? key [] = none from rfl] at h
  rw [hline]
  simpa only [List.cons_append, List.append_assoc] using h

end

omit [Float64 F] in
theorem endsValue_headerPieces (ms : List (List Char × List Char)) {t : List Char}
    (ht : EndsValue t) : EndsValue ((ms.map headerPiece).flatMap Piece.text ++ t) := by
  cases ms with
  | nil => exact ht
  | cons m ms => exact ⟨',', _, rfl, by decide⟩

theorem endsValue_fieldsObject (opts : JsonOptions) (d : DecodedPgn F) :
    EndsValue (fieldsObject opts d ++ lineClosing opts) := by
  rw [fieldsObject]
  split
  · rw [lineClosing]
    split
    · exact ⟨'\x7d', _, rfl, by decide⟩
    · exact ⟨'\x7d', _, rfl, by decide⟩
  · exact ⟨',', _, rfl, by decide⟩

omit [Float64 F] in
theorem headers_keys_nodup (opts : JsonOptions) (d : DecodedPgn F) :
    ((headers opts d).map (·.1)).Nodup := by
  have hfixed : (fixedHeaders opts d).map (·.1) =
      ["prio".toList, "src".toList, "dst".toList, "pgn".toList, "description".toList] := rfl
  rw [headers]
  cases d.timestamp with
  | none =>
      simp only [hfixed]
      decide
  | some ts =>
      simp only [List.map_cons, hfixed]
      decide

/-- The search for a header's key. -/
theorem afterKey?_header {opts : JsonOptions} {d : DecodedPgn F} {key v : List Char}
    (hkey : IsKey key)
    (hplain : opts.camelCase ≠ .off →
      ∀ c ∈ displayName opts.camelCase d.description d.id, isPlain c = true)
    (hne : opts.camelCase ≠ .off → displayName opts.camelCase d.description d.id ≠ key)
    (hmem : (key, v) ∈ headers opts d) :
    ∃ t, EndsValue t ∧ afterKey? key (writeJson opts d) = some (v ++ t) := by
  obtain ⟨m, ms, hheaders, hrecord⟩ := recordText_eq opts d
  have hopening := passes_lineOpening hkey hplain hne
  have hnodup := headers_keys_nodup opts d
  have hall := headers_plain opts d
  rw [hheaders] at hmem hnodup hall
  have hend := endsValue_fieldsObject opts d
  rw [writeJson_eq, hrecord]
  rw [List.mem_cons] at hmem
  rcases hmem with rfl | hmem
  · refine ⟨_, endsValue_headerPieces ms hend, ?_⟩
    have h := hopening ('"' :: (key ++ '"' :: ':' :: (v ++
      ((ms.map headerPiece).flatMap Piece.text ++ (fieldsObject opts d ++ lineClosing opts)))))
    rw [afterKey?_key] at h
    simpa only [List.cons_append, List.append_assoc] using h
  · obtain ⟨before, after, rfl⟩ := List.append_of_mem hmem
    rw [List.map_cons, List.map_append, List.map_cons, List.nodup_cons, List.mem_append,
      List.mem_cons] at hnodup
    obtain ⟨hm, hnodup⟩ := hnodup
    obtain ⟨hmkey, hmvalue⟩ := hall m List.mem_cons_self
    have hpassed : ∀ p ∈ before.map headerPiece, p.Passed key := by
      intro p hp
      obtain ⟨m', hm', rfl⟩ := List.mem_map.mp hp
      have hmem : m' ∈ headers opts d := by
        rw [hheaders]
        exact List.mem_cons_of_mem _ (List.mem_append_left _ hm')
      apply headerPiece_passed hkey hmem
      intro h
      exact (List.nodup_append.mp hnodup).2.2 _ (List.mem_map_of_mem hm') key
        List.mem_cons_self h
    refine ⟨_, endsValue_headerPieces after hend, ?_⟩
    have hsearch := afterKey?_pieces (v := v) hkey hopening _ hpassed
      (show Follows key [','] from ⟨',', [], rfl, by decide, .nil⟩) m.1 m.2
      ((after.map headerPiece).flatMap Piece.text ++ (fieldsObject opts d ++ lineClosing opts))
      (recordKeys_plain _ hmkey) (fun h => hm (Or.inr (Or.inl h))) (hmvalue key hkey)
    simpa only [List.map_append, List.map_cons, List.flatMap_append, List.flatMap_cons, headerPiece,
      Piece.text, List.cons_append, List.append_assoc, List.nil_append] using hsearch

end Canboat
