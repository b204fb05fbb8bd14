import Canboat.Core.Parse
import Canboat.Lib.Json.Reader
import Canboat.Output.JsonKeys

/-!
# Records as JSON values

What a parser makes of the line of a record without repeating sets.
-/

namespace Canboat

open Json Json.Reader
open Binary64 (digits)

variable {F N : Type} [Float64 F] (numeral : List Char → Option N)

/-! ## Strings -/

theorem hexDigitValue_hexDigit : ∀ n < 16, hexDigitValue (hexDigit false n) = some n := by
  decide

/-- What stands for a character is read as that character. -/
theorem spells_writerEscape (slash : Bool) (c : Char) : Spells numeral (escape slash c) [c] := by
  rw [escape]
  by_cases hquote : c = '"'
  · rw [if_pos hquote, hquote]
    exact spells_escape numeral rfl
  rw [if_neg hquote]
  by_cases hbackslash : c = '\\'
  · rw [if_pos hbackslash, hbackslash]
    exact spells_escape numeral rfl
  rw [if_neg hbackslash]
  by_cases hb : c = '\x08'
  · rw [if_pos hb, hb]
    exact spells_escape numeral rfl
  rw [if_neg hb]
  by_cases ht : c = '\t'
  · rw [if_pos ht, ht]
    exact spells_escape numeral rfl
  rw [if_neg ht]
  by_cases hn : c = '\n'
  · rw [if_pos hn, hn]
    exact spells_escape numeral rfl
  rw [if_neg hn]
  by_cases hf : c = '\x0c'
  · rw [if_pos hf, hf]
    exact spells_escape numeral rfl
  rw [if_neg hf]
  by_cases hr : c = '\r'
  · rw [if_pos hr, hr]
    exact spells_escape numeral rfl
  rw [if_neg hr]
  by_cases hcontrol : c.toNat < 0x20
  · have hcode : 16 * (16 * (16 * 0 + 0) + c.toNat / 16) + c.toNat % 16 = c.toNat := by omega
    have hzero : hexDigitValue '0' = some 0 := rfl
    have h := spells_unicode numeral hzero hzero
      (hexDigitValue_hexDigit (c.toNat / 16) (by omega))
      (hexDigitValue_hexDigit (c.toNat % 16) (by omega)) (by omega)
    rw [hcode, Char.ofNat_toNat] at h
    rw [if_pos hcontrol]
    exact h
  rw [if_neg hcontrol]
  by_cases hslash : (slash && c == '/') = true
  · rw [if_pos hslash]
    rw [Bool.and_eq_true, beq_iff_eq] at hslash
    rw [hslash.2]
    exact spells_escape numeral rfl
  · rw [if_neg hslash]
    apply spells_plain
    rw [isPlain, Bool.and_eq_true, Bool.and_eq_true, bne_iff_ne, bne_iff_ne, decide_eq_true_eq]
    exact ⟨⟨by omega, hquote⟩, hbackslash⟩

theorem reads_writeJsonStringWithTable (slash : Bool) (s : List Char) :
    Reads numeral (writeJsonStringWithTable slash s) (.string (String.ofList s)) :=
  (spells_flatMap numeral (spells_writerEscape numeral slash) s).reads

/-! ## Numbers -/

/-- Digits are read as the number that they are of. -/
def ReadsDigits (ofNat : ℕ → N) : Prop :=
  ∀ n < 18446744073709551616, numeral (digits n) = some (ofNat n)

variable {numeral} {ofNat : ℕ → N}

theorem isNumeralChar_of_isDigit {c : Char} (hc : c.isDigit = true) : isNumeralChar c = true := by
  have h : Json.isDigit c = true := hc
  rw [isNumeralChar, h]
  rfl

theorem reads_decimal (hnum : ReadsDigits numeral ofNat) {n : ℕ}
    (hn : n < 18446744073709551616) : Reads numeral (digits n) (.number (ofNat n)) := by
  apply reads_numeral
  · obtain ⟨c, s, hs, -⟩ := digits_cons n
    rw [hs]
    exact List.cons_ne_nil c s
  · intro c hc
    rw [Binary64.digits, Nat.toList_repr] at hc
    exact isNumeralChar_of_isDigit (Nat.isDigit_of_mem_toDigits (by decide) (by decide) hc)
  · exact hnum n hn

/-! ## Headers -/

variable (ofNat)

def fixedHeaderTrees (opts : JsonOptions) (d : DecodedPgn F) : List (String × Json.Tree N) :=
  [("prio", .number (ofNat d.prio.toNat)), ("src", .number (ofNat d.src.toNat)),
    ("dst", .number (ofNat d.dst.toNat)), ("pgn", .number (ofNat d.pgn.toNat)),
    ("description", .string (String.ofList (displayName opts.camelCase d.description d.id)))]

def headerTrees (opts : JsonOptions) (d : DecodedPgn F) : List (String × Json.Tree N) :=
  match d.timestamp with
  | some ts =>
      ("timestamp", .string (String.ofList (normalizeTimestamp ts.toList))) ::
        fixedHeaderTrees ofNat opts d
  | none => fixedHeaderTrees ofNat opts d

variable {ofNat}

/-- A text for a name and one for its value. -/
structure ReadsMember (numeral : List Char → Option N) (m : List Char × List Char)
    (t : String × Json.Tree N) : Prop where
  name : m.1 = t.1.toList
  plain : ∀ c ∈ m.1, isPlain c = true
  value : Reads numeral m.2 t.2

theorem ReadsMember.spells {m : List Char × List Char} {t : String × Json.Tree N}
    (h : ReadsMember numeral m t) : Spells numeral m.1 t.1.toList := by
  rw [← h.name]
  exact spells_of_plain numeral h.plain

theorem ReadsMember.piece {m : List Char × List Char} {t : String × Json.Tree N}
    (h : ReadsMember numeral m t) : ReadsPiece numeral (headerPiece m) t :=
  ⟨rfl, h.spells, h.value⟩

omit [Float64 F] in
theorem reads_headers (hnum : ReadsDigits numeral ofNat) (opts : JsonOptions)
    (d : DecodedPgn F) :
    List.Forall₂ (ReadsMember numeral) (headers opts d) (headerTrees ofNat opts d) := by
  have hprio : d.prio.toNat < 256 := d.prio.toNat_lt
  have hsrc : d.src.toNat < 256 := d.src.toNat_lt
  have hdst : d.dst.toNat < 256 := d.dst.toNat_lt
  have hpgn : d.pgn.toNat < 4294967296 := d.pgn.toNat_lt
  have hkey : ∀ k ∈ recordKeys, ∀ c ∈ k, isPlain c = true := recordKeys_plain
  simp only [recordKeys, List.forall_mem_cons, List.not_mem_nil, false_implies, implies_true,
    and_true] at hkey
  obtain ⟨htimestampKey, hprioKey, hsrcKey, hdstKey, hpgnKey, hdescriptionKey, -⟩ := hkey
  have hfixed : List.Forall₂ (ReadsMember numeral) (fixedHeaders opts d)
      (fixedHeaderTrees ofNat opts d) := by
    refine .cons ⟨rfl, hprioKey, reads_decimal hnum (by omega)⟩ ?_
    refine .cons ⟨rfl, hsrcKey, reads_decimal hnum (by omega)⟩ ?_
    refine .cons ⟨rfl, hdstKey, reads_decimal hnum (by omega)⟩ ?_
    refine .cons ⟨rfl, hpgnKey, reads_decimal hnum (by omega)⟩ ?_
    exact .cons ⟨rfl, hdescriptionKey, reads_writeJsonStringWithTable numeral false _⟩ .nil
  rw [headers, headerTrees]
  cases d.timestamp with
  | none => exact hfixed
  | some ts =>
      exact .cons ⟨rfl, htimestampKey, reads_writeJsonStringWithTable numeral false _⟩ hfixed

/-! ## Fields -/

/-- Fields one after the other, with no lists. -/
structure DecodedPgn.Flat (opts : JsonOptions) (d : DecodedPgn F) : Prop where
  top : ∀ f ∈ d.fields.filter (shown opts (payloadBits d.data)), f.repeatSet = 0
  sets : d.hasRepeatingSet = (false, false)

def fieldMember (opts : JsonOptions) (payload : List UInt8) (f : DecodedField F) :
    List Char × List Char :=
  (fieldLabel opts f, fieldText opts payload f)

omit [Float64 F] in
theorem sepFor_top {b : FieldsBuf} (hset : b.currentSet = 0) {f : DecodedField F}
    (hf : f.repeatSet = 0) : b.sepFor f = b.topSep := by
  rw [FieldsBuf.sepFor, if_pos hf, FieldsBuf.close, hset]
  rfl

theorem push_top (opts : JsonOptions) (payload : List UInt8) (b : FieldsBuf)
    {f : DecodedField F} (hf : f.repeatSet = 0) :
    (b.push opts payload f).currentSet = 0 ∧ (b.push opts payload f).topSep = [','] := by
  rw [FieldsBuf.push, if_pos hf]
  exact ⟨rfl, rfl⟩

theorem bodyPieces_top (opts : JsonOptions) (payload : List UInt8)
    (fields : List (DecodedField F)) (hfields : ∀ f ∈ fields, f.repeatSet = 0) {b : FieldsBuf}
    (hset : b.currentSet = 0) (hsep : b.topSep = [',']) :
    bodyPieces opts payload b fields =
      fields.map fun f => headerPiece (fieldMember opts payload f) := by
  induction fields generalizing b with
  | nil => rfl
  | cons f fields ih =>
      obtain ⟨hf, hfields⟩ := List.forall_mem_cons.mp hfields
      obtain ⟨hset', hsep'⟩ := push_top opts payload b hf
      rw [bodyPieces, ih hfields hset' hsep', sepFor_top hset hf, hsep, List.map_cons]
      rfl

theorem foldl_push_top (opts : JsonOptions) (payload : List UInt8)
    (fields : List (DecodedField F)) (hfields : ∀ f ∈ fields, f.repeatSet = 0) {b : FieldsBuf}
    (hset : b.currentSet = 0) :
    (fields.foldl (FieldsBuf.push opts payload) b).currentSet = 0 := by
  induction fields generalizing b with
  | nil => exact hset
  | cons f fields ih =>
      obtain ⟨hf, hfields⟩ := List.forall_mem_cons.mp hfields
      exact ih hfields (push_top opts payload b hf).1

/-- The inside of the `fields` object. -/
theorem fieldsText_flat {opts : JsonOptions} {d : DecodedPgn F} (hflat : d.Flat opts)
    {f : DecodedField F} {fields : List (DecodedField F)}
    (hshown : d.fields.filter (shown opts (payloadBits d.data)) = f :: fields)
    (hplain : ∀ g ∈ f :: fields, ∀ c ∈ fieldLabel opts g, isPlain c = true) :
    fieldsText opts d = '"' :: (fieldLabel opts f ++ '"' :: ':' :: (fieldText opts d.data f ++
      (fields.map fun g => headerPiece (fieldMember opts d.data g)).flatMap Piece.text)) := by
  have htop := hflat.top
  rw [hshown] at htop
  obtain ⟨hf, hfields⟩ := List.forall_mem_cons.mp htop
  obtain ⟨hset, hsep⟩ := push_top opts d.data ⟨[], [], 0, none⟩ hf
  have hbuf := foldl_push_buf opts d.data (f :: fields) ⟨[], [], 0, none⟩ hplain
  rw [bodyPieces, bodyPieces_top opts d.data fields hfields hset hsep, sepFor_top rfl hf,
    List.nil_append] at hbuf
  have hclosed := foldl_push_top opts d.data (f :: fields) htop (b := ⟨[], [], 0, none⟩) rfl
  have hne : ((f :: fields).foldl (FieldsBuf.push opts d.data) ⟨[], [], 0, none⟩).buf ≠ [] := by
    rw [hbuf, List.flatMap_cons, Piece.text]
    simp
  rw [fieldsText, hshown, finish_eq opts d hne, FieldsBuf.close, hclosed, FieldsBuf.emptyList,
    emptyList2, hflat.sets, hbuf, List.flatMap_cons, Piece.text]
  simp

/-- A field of the record, with its name and its value as a parser takes them. -/
abbrev ReadsField (numeral : List Char → Option N) (opts : JsonOptions) (payload : List UInt8)
    (f : DecodedField F) (t : String × Json.Tree N) : Prop :=
  ReadsMember numeral (fieldMember opts payload f) t

theorem forall₂_pieces {opts : JsonOptions} {payload : List UInt8}
    {fields : List (DecodedField F)} {trees : List (String × Json.Tree N)}
    (h : List.Forall₂ (ReadsField numeral opts payload) fields trees) :
    List.Forall₂ (ReadsPiece numeral)
      (fields.map fun g => headerPiece (fieldMember opts payload g)) trees := by
  induction h with
  | nil => exact .nil
  | cons hf _ ih => exact .cons hf.piece ih

theorem forall₂_plain {opts : JsonOptions} {payload : List UInt8}
    {fields : List (DecodedField F)} {trees : List (String × Json.Tree N)}
    (h : List.Forall₂ (ReadsField numeral opts payload) fields trees) :
    ∀ g ∈ fields, ∀ c ∈ fieldLabel opts g, isPlain c = true := by
  induction h with
  | nil => exact nofun
  | cons hf _ ih => exact List.forall_mem_cons.mpr ⟨hf.plain, ih⟩

/-! ## Records -/

variable (ofNat)

def recordTree (opts : JsonOptions) (d : DecodedPgn F) (fields : List (String × Json.Tree N)) :
    Json.Tree N :=
  .object (headerTrees ofNat opts d ++ [("fields", .object fields)])

/-- The value of the line of a record with these fields. -/
def lineTree (opts : JsonOptions) (d : DecodedPgn F) (fields : List (String × Json.Tree N)) : Json.Tree N :=
  if opts.camelCase = .off then recordTree ofNat opts d fields
  else .object [(String.ofList (displayName opts.camelCase d.description d.id),
    recordTree ofNat opts d fields)]

variable {ofNat}

omit [Float64 F] in
theorem headerTrees_nodup (opts : JsonOptions) (d : DecodedPgn F)
    (fields : List (String × Json.Tree N)) :
    ((headerTrees ofNat opts d ++ [("fields", Json.Tree.object fields)]).map Prod.fst).Nodup := by
  have hfixed : ((fixedHeaderTrees ofNat opts d).map Prod.fst) =
      ["prio", "src", "dst", "pgn", "description"] := rfl
  rw [headerTrees]
  cases d.timestamp with
  | none =>
      rw [List.map_append, hfixed]
      show (["prio", "src", "dst", "pgn", "description"] ++ ["fields"]).Nodup
      decide
  | some ts =>
      rw [List.cons_append, List.map_cons, List.map_append, hfixed]
      show ("timestamp" :: (["prio", "src", "dst", "pgn", "description"] ++ ["fields"])).Nodup
      decide

theorem reads_recordText (hnum : ReadsDigits numeral ofNat) {opts : JsonOptions}
    {d : DecodedPgn F} (hflat : d.Flat opts) {fields : List (String × Json.Tree N)}
    (hfields : List.Forall₂ (ReadsField numeral opts d.data)
      (d.fields.filter (shown opts (payloadBits d.data))) fields)
    (hne : fields ≠ []) (hnodup : (fields.map Prod.fst).Nodup) :
    Reads numeral ('\x7b' :: (recordText opts d ++ ['\x7d'])) (recordTree ofNat opts d fields) := by
  generalize hshown : d.fields.filter (shown opts (payloadBits d.data)) = shownFields at hfields
  cases hfields with
  | nil => exact absurd rfl hne
  | @cons f t shownFields fields hf hrest =>
      have htext := fieldsText_flat hflat hshown (forall₂_plain (.cons hf hrest))
      have hobject : Reads numeral ('\x7b' :: (fieldsText opts d ++ ['\x7d']))
          (.object (t :: fields)) := by
        have h := reads_object numeral hf.spells hf.value (forall₂_pieces hrest)
        rw [gather_of_nodup (by simpa using hnodup), List.nil_append] at h
        rw [htext]
        simpa only [fieldMember, List.cons_append, List.append_assoc] using h
      have hfieldsPiece : ReadsPiece numeral
          (headerPiece ("fields".toList, '\x7b' :: (fieldsText opts d ++ ['\x7d'])))
          ("fields", .object (t :: fields)) :=
        ReadsMember.piece ⟨rfl, recordKeys_plain "fields".toList (by decide), hobject⟩
      have hfieldsObject : fieldsObject opts d =
          (headerPiece ("fields".toList, '\x7b' :: (fieldsText opts d ++ ['\x7d']))).text := by
        rw [fieldsObject, if_neg (by rw [htext]; simp), headerPiece, Piece.text]
        simp only [List.append_assoc]
        rfl
      obtain ⟨m, ms, hheaders, hrecord⟩ := recordText_eq opts d
      have hmembers := reads_headers hnum opts d
      rw [hheaders] at hmembers
      generalize hts : headerTrees ofNat opts d = ts at hmembers
      cases hmembers with
      | @cons _ t' _ ts hm hms =>
          have hpieces : List.Forall₂ (ReadsPiece numeral)
              (ms.map headerPiece ++
                [headerPiece ("fields".toList, '\x7b' :: (fieldsText opts d ++ ['\x7d']))])
              (ts ++ [("fields", .object (t :: fields))]) := by
            refine List.rel_append ?_ (.cons hfieldsPiece .nil)
            rw [List.forall₂_map_left_iff]
            exact hms.imp fun _ _ h => h.piece
          have h := reads_object numeral hm.spells hm.value hpieces
          have hdistinct : ((headerTrees ofNat opts d ++
              [("fields", Json.Tree.object (t :: fields))]).map Prod.fst).Nodup :=
            headerTrees_nodup opts d (t :: fields)
          rw [hts, List.cons_append] at hdistinct
          rw [gather_of_nodup hdistinct, List.nil_append] at h
          rw [recordTree, hts, hrecord, hfieldsObject]
          simpa only [List.flatMap_append, List.flatMap_cons, List.flatMap_nil, List.append_nil,
            List.cons_append, List.append_assoc] using h

/-- The line is read as its value. -/
theorem reads_writeJson (hnum : ReadsDigits numeral ofNat) {opts : JsonOptions}
    {d : DecodedPgn F} (hflat : d.Flat opts)
    (hplain : opts.camelCase ≠ .off →
      ∀ c ∈ displayName opts.camelCase d.description d.id, isPlain c = true)
    {fields : List (String × Json.Tree N)}
    (hfields : List.Forall₂ (ReadsField numeral opts d.data)
      (d.fields.filter (shown opts (payloadBits d.data))) fields)
    (hne : fields ≠ []) (hnodup : (fields.map Prod.fst).Nodup) :
    Reads numeral (writeJson opts d) (lineTree ofNat opts d fields) := by
  have hrecord := reads_recordText hnum hflat hfields hne hnodup
  rw [writeJson_eq, lineOpening, lineClosing, lineTree]
  by_cases hoff : opts.camelCase = .off
  · rw [if_pos hoff, if_pos hoff, if_pos hoff]
    exact hrecord
  · rw [if_neg hoff, if_neg hoff, if_neg hoff]
    have hname : Spells numeral (displayName opts.camelCase d.description d.id)
        (String.ofList (displayName opts.camelCase d.description d.id)).toList := by
      rw [String.toList_ofList]
      exact spells_of_plain numeral (hplain hoff)
    have h := reads_object numeral
      (m := (String.ofList (displayName opts.camelCase d.description d.id),
        recordTree ofNat opts d fields)) hname hrecord .nil
    rw [gather_of_nodup (by simp), List.nil_append] at h
    have hopening : "\x7b\"".toList = ['\x7b', '"'] := rfl
    have hcolon : "\":\x7b".toList = ['"', ':', '\x7b'] := rfl
    have hclosing : "\x7d\x7d".toList = ['\x7d', '\x7d'] := rfl
    rw [hopening, hcolon, hclosing]
    simpa only [List.flatMap_nil, List.nil_append, List.cons_append, List.append_assoc] using h

end Canboat
