import Canboat.Bridge.Overrides
import Canboat.Core.Str
import Canboat.Format.PlainWriter
import Mathlib.Logic.Function.Basic

/-!
# The filter of NMEA 0183 output

Users mute devices, or single sentences of theirs. Rules belong to the NAME of a device; clients
speak of devices by their sources. What a source produces is noted before anything is dropped, so
that a muted sentence can be reported.
-/

namespace Canboat

namespace NmeaFilter

/-- Synthetic PGN of the control channel. -/
def PGN_NMEA0183_FILTER : UInt32 := 262657

def FILTER_FN_REPORT : UInt8 := 0

def FILTER_FN_SET : UInt8 := 1

def FILTER_FN_REQUEST : UInt8 := 2

def isSetFrame (frame : RawFrame) : Bool :=
  frame.pgn == PGN_NMEA0183_FILTER && frame.data.head? == some FILTER_FN_SET

def isRequestFrame (frame : RawFrame) : Bool :=
  frame.pgn == PGN_NMEA0183_FILTER && frame.data.head? == some FILTER_FN_REQUEST

/-- In place of a sentence: the whole source. -/
def ALL_SENTENCES : String := "ALL"

end NmeaFilter

structure DeviceRule where
  muted : Bool
  mutedSentences : List String
deriving DecidableEq, Repr

/-- What becomes of the sentences of a source. -/
inductive Decision
  | dropAll
  /-- All but these. -/
  | keep (muted : List String)
deriving DecidableEq, Repr

/-- A row of the report. -/
structure FilterReportRow where
  src : UInt8
  sentence : String
  muted : Bool
deriving DecidableEq, Repr

structure NmeaFilter where
  /-- The NAME that claimed a source last. -/
  srcName : UInt8 → Option UInt64
  rules : IndexMap UInt64 DeviceRule
  /-- The formatters seen of a source, in the order they were. -/
  observed : UInt8 → List String

namespace NmeaFilter

/-! ## Sentences -/

/-- Characters of so many bytes, and the rest. -/
def takeBytes : ℕ → List Char → Option (List Char × List Char)
  | 0, s => some ([], s)
  | _ + 1, [] => none
  | n + 1, c :: s =>
      if (String.utf8EncodeChar c).length ≤ n + 1 then
        (takeBytes (n + 1 - (String.utf8EncodeChar c).length) s).map fun r => (c :: r.1, r.2)
      else none

/-- The three bytes after `$` and the talker, where they are characters. -/
def sentenceFormatter (line : List Char) : Option String :=
  match line with
  | '$' :: s => ((takeBytes 2 s).bind fun r => takeBytes 3 r.2).map fun r => String.ofList r.1
  | _ => none

/-- Lines with their line ends. -/
def splitInclusive : List Char → List (List Char)
  | [] => []
  | c :: s =>
      if c = '\n' then [c] :: splitInclusive s
      else
        match splitInclusive s with
        | [] => [[c]]
        | l :: ls => (c :: l) :: ls

/-! ## The filter -/

variable (f : NmeaFilter)

/-- With the rules of the file. -/
def load (rules : IndexMap UInt64 DeviceRule) : NmeaFilter where
  srcName _ := none
  rules
  observed _ := []

def noteAddressClaim (src : UInt8) (name : UInt64) : NmeaFilter :=
  { f with srcName := Function.update f.srcName src (some name) }

/-- Without rules everything passes; with some, only what has a NAME. -/
def decide (src : UInt8) : Decision :=
  if f.rules.entries = [] then .keep []
  else
    match f.srcName src with
    | none => .dropAll
    | some name =>
        match f.rules.get? name with
        | some rule => if rule.muted then .dropAll else .keep rule.mutedSentences
        | none => .keep []

/-- Add what is not there. -/
def addSentence (seen : List String) (formatter : String) : List String :=
  if formatter ∈ seen then seen else seen ++ [formatter]

def observe (src : UInt8) (buf : List Char) : NmeaFilter :=
  let seen := ((splitInclusive buf).filterMap sentenceFormatter).foldl addSentence (f.observed src)
  { f with observed := Function.update f.observed src seen }

/-- The filter and what is left of the block. -/
def apply (src : UInt8) (buf : List Char) : NmeaFilter × List Char :=
  let f := f.observe src buf
  match f.decide src with
  | .dropAll => (f, [])
  | .keep muted =>
      if muted = [] then (f, buf)
      else
        (f, (splitInclusive buf).flatMap fun line =>
          match sentenceFormatter line with
          | some fmt => if fmt ∈ muted then [] else line
          | none => line)

/-- The rule of a NAME, or none if it does not constrain anything. -/
def setRule (name : UInt64) (sentence : String) (muted : Bool) : NmeaFilter :=
  let rule := (f.rules.get? name).getD ⟨false, []⟩
  let rule :=
    if sentence = ALL_SENTENCES then { rule with muted := muted }
    else if muted then { rule with mutedSentences := addSentence rule.mutedSentences sentence }
    else { rule with mutedSentences := rule.mutedSentences.filter (· ≠ sentence) }
  if ¬rule.muted ∧ rule.mutedSentences = [] then { f with rules := f.rules.remove name }
  else { f with rules := f.rules.insert name rule }

/-- Whether the source has a NAME for the rule to belong to. -/
def set (src : UInt8) (sentence : String) (muted : Bool) : NmeaFilter × Bool :=
  match f.srcName src with
  | none => (f, false)
  | some name => (f.setRule name sentence muted, true)

def isMuted (src : UInt8) (formatter : String) : Bool :=
  match f.decide src with
  | .dropAll => true
  | .keep muted => Decidable.decide (formatter ∈ muted)

/-- The rows of one source: the whole of it, then each formatter. -/
def reportOf (src : UInt8) : List FilterReportRow :=
  ⟨src, ALL_SENTENCES, f.decide src = .dropAll⟩ ::
    ((f.observed src).mergeSort (· ≤ ·)).map fun formatter =>
      ⟨src, formatter, f.isMuted src formatter⟩

def report : List FilterReportRow :=
  (allSources.filter fun src => f.observed src ≠ []).flatMap f.reportOf

/-! ## Frames -/

def isNulOrSpace (c : Char) : Bool := c == '\x00' || c == ' '

/-- Without NULs and spaces at either end. -/
def trimSentence (s : List Char) : List Char := trimEnd isNulOrSpace (s.dropWhile isNulOrSpace)

/-- `[function, src, s0, s1, s2, muted, …]`. -/
def applySetFrame (data : List UInt8) : NmeaFilter :=
  match data with
  | _ :: src :: s₀ :: s₁ :: s₂ :: muted :: _ =>
      let sentence := trimSentence ((fromUtf8 [s₀, s₁, s₂]).getD [])
      if sentence = [] then f else (f.set src (String.ofList sentence) (muted ≠ 0)).1
  | _ => f

/-- A byte of the sentence, or a space past its end. -/
def sentenceByte (sentence : String) (i : ℕ) : UInt8 := (utf8Bytes sentence.toList)[i]?.getD 0x20

/-- What the frames of the channel carry. -/
def filterPayload (function src : UInt8) (sentence : String) (muted : Bool) : List UInt8 :=
  [function, src, sentenceByte sentence 0, sentenceByte sentence 1, sentenceByte sentence 2,
    if muted then 1 else 0, 0xff, 0xff]

def reportFrame (timestamp : Option String) (row : FilterReportRow) : RawFrame where
  timestamp
  prio := 7
  pgn := PGN_NMEA0183_FILTER
  src := 0
  dst := 255
  data := filterPayload FILTER_FN_REPORT row.src row.sentence row.muted

def reportFrames (timestamp : Option String) : List RawFrame :=
  f.report.map (reportFrame timestamp)

/-! ## What the converters write -/

/-- The letters for a source, without `P` as the first. -/
def talker (src : UInt8) : List Char :=
  let first := (src >>> 4 &&& 0xf).toNat
  [Char.ofNat (65 + if 15 ≤ first then first + 1 else first),
    Char.ofNat (65 + (src &&& 0xf).toNat)]

/-- A sentence with its talker and its checksum. -/
def create (src : UInt8) (body : List Char) : List Char :=
  let text := talker src ++ body
  let checksum := (utf8Bytes text).foldl (· ^^^ ·) 0
  '$' :: (text ++ '*' :: (toAsciiUppercase (Plain.hexPair checksum) ++ ['\r', '\n']))

/-- The formatters that the bodies begin with. -/
def FORMATTERS : List String :=
  ["HDG", "HDT", "HDM", "MWV", "VTG", "RSA", "VHW", "DPT", "VLW", "MTW", "GSA", "GLL", "RMC"]

/-- A body: a formatter, and the fields of the sentence. -/
structure Body where
  formatter : String
  fields : List Char
  known : formatter ∈ FORMATTERS
  oneLine : '\n' ∉ fields

def Body.text (b : Body) : List Char := b.formatter.toList ++ ',' :: b.fields

/-- What the server does with the filter. -/
inductive FilterOp
  | claim (src : UInt8) (name : UInt64)
  /-- The sentences of one record. -/
  | sentences (src : UInt8) (bodies : List Body)
  /-- A control frame. -/
  | set (data : List UInt8)

def step : FilterOp → NmeaFilter
  | .claim src name => f.noteAddressClaim src name
  | .sentences src bodies => (f.apply src (bodies.flatMap fun b => create src b.text)).1
  | .set data => f.applySetFrame data

/-- From the file, by these operations. -/
def run (rules : IndexMap UInt64 DeviceRule) (ops : List FilterOp) : NmeaFilter :=
  ops.foldl step (load rules)

/-! ## Formatters -/

/-- Three ASCII letters. -/
structure IsFormatter (s : String) : Prop where
  length : s.toList.length = 3
  letters : ∀ c ∈ s.toList, c.isAlpha = true

instance (s : String) : Decidable (IsFormatter s) :=
  decidable_of_iff (s.toList.length = 3 ∧ s.toList.all (·.isAlpha) = true)
    ⟨fun h => ⟨h.1, List.all_eq_true.mp h.2⟩, fun h => ⟨h.length, List.all_eq_true.mpr h.letters⟩⟩

theorem isFormatter_of_known : ∀ s ∈ ALL_SENTENCES :: FORMATTERS, IsFormatter s := by decide

theorem toNat_of_isAlpha {c : Char} (hc : c.isAlpha = true) :
    (65 ≤ c.toNat ∧ c.toNat ≤ 90) ∨ (97 ≤ c.toNat ∧ c.toNat ≤ 122) := by
  have hcases : (Decidable.decide (c.val ≥ 'A'.val ∧ c.val ≤ 'Z'.val) ||
      Decidable.decide (c.val ≥ 'a'.val) && Decidable.decide (c.val ≤ 'z'.val)) = true := hc
  simp only [Bool.or_eq_true, Bool.and_eq_true, decide_eq_true_eq] at hcases
  exact hcases

theorem ascii_of_isAlpha {c : Char} (hc : c.isAlpha = true) : Plain.Ascii c := by
  have := toNat_of_isAlpha hc
  unfold Plain.Ascii
  omega

/-- The byte of an ASCII letter. -/
def letterByte (c : Char) : UInt8 := UInt8.ofNat c.toNat

theorem toNat_letterByte {c : Char} (hc : c.isAlpha = true) : (letterByte c).toNat = c.toNat := by
  have := toNat_of_isAlpha hc
  rw [letterByte, UInt8.toNat_ofNat', Nat.mod_eq_of_lt (by omega)]

/-- A letter is not padding. -/
theorem letterByte_ne {c : Char} (hc : c.isAlpha = true) {b : UInt8}
    (hb : b = 0 ∨ isPaddingByte b = true) : letterByte c ≠ b := by
  have hbounds := toNat_of_isAlpha hc
  have hbyte := toNat_letterByte hc
  rintro rfl
  rw [isPaddingByte, Bool.or_eq_true, Bool.or_eq_true, Bool.or_eq_true, beq_iff_eq, beq_iff_eq,
    beq_iff_eq, beq_iff_eq] at hb
  rcases hb with h | ((h | h) | h) | h <;> rw [h] at hbyte <;> simp at hbyte <;> omega

theorem IsFormatter.chars {s : String} (h : IsFormatter s) :
    ∃ x y z, s.toList = [x, y, z] ∧ x.isAlpha = true ∧ y.isAlpha = true ∧ z.isAlpha = true := by
  have hletters := h.letters
  obtain ⟨x, y, z, heq⟩ := List.length_eq_three.mp h.length
  rw [heq] at hletters
  exact ⟨x, y, z, heq, hletters x (by simp), hletters y (by simp), hletters z (by simp)⟩

theorem IsFormatter.ascii {s : String} (h : IsFormatter s) : ∀ c ∈ s.toList, Plain.Ascii c :=
  fun c hc => ascii_of_isAlpha (h.letters c hc)

/-- The three bytes of the payload are the formatter's. -/
theorem IsFormatter.bytes {s : String} (h : IsFormatter s) :
    [sentenceByte s 0, sentenceByte s 1, sentenceByte s 2] = utf8Bytes s.toList := by
  obtain ⟨x, y, z, heq, -⟩ := h.chars
  have hbytes := Plain.utf8Bytes_ascii h.ascii
  rw [heq] at hbytes
  simp only [sentenceByte, heq, hbytes]
  rfl

/-- A frame that sets a rule for a formatter sets it. -/
theorem applySetFrame_payload {sentence : String} (h : IsFormatter sentence) (function src : UInt8)
    (muted : Bool) :
    f.applySetFrame (filterPayload function src sentence muted) = (f.set src sentence muted).1 := by
  obtain ⟨x, y, z, heq, hx, hy, hz⟩ := h.chars
  have hletter : ∀ {c : Char}, c.isAlpha = true → isNulOrSpace c = false := by
    intro c hc
    have hbounds := toNat_of_isAlpha hc
    rw [isNulOrSpace, Bool.or_eq_false_iff, beq_eq_false_iff_ne, beq_eq_false_iff_ne]
    constructor
    · rintro rfl
      simp at hbounds
    · rintro rfl
      simp at hbounds
  have htext : fromUtf8 [sentenceByte sentence 0, sentenceByte sentence 1,
      sentenceByte sentence 2] = some sentence.toList := by
    rw [h.bytes, fromUtf8, Plain.fromUtf8Lossy_ascii h.ascii, if_pos rfl]
  have htrim : trimSentence sentence.toList = sentence.toList := by
    rw [heq, trimSentence, List.dropWhile_cons_of_neg (by rw [hletter hx]; exact Bool.false_ne_true)]
    show trimEnd _ [x, y, z] = _
    rw [trimEnd]
    show (List.dropWhile _ [z, y, x]).reverse = _
    rw [List.dropWhile_cons_of_neg (by rw [hletter hz]; exact Bool.false_ne_true)]
    rfl
  have hne : sentence.toList ≠ [] := by
    rw [heq]
    exact List.cons_ne_nil _ _
  unfold applySetFrame filterPayload
  simp only [htext, Option.getD_some, htrim, if_neg hne, String.ofList_toList]
  cases muted <;> rfl

/-! ## What is seen of a source -/

theorem takeBytes_ascii {s : List Char} (hs : ∀ c ∈ s, Plain.Ascii c) (t : List Char) :
    takeBytes s.length (s ++ t) = some (s, t) := by
  induction s with
  | nil => rw [List.length_nil, List.nil_append, takeBytes]
  | cons c s ih =>
      obtain ⟨hc, hs⟩ := List.forall_mem_cons.mp hs
      rw [List.length_cons, List.cons_append, takeBytes, Plain.utf8EncodeChar_ascii hc,
        List.length_singleton, if_pos (Nat.succ_le_succ (Nat.zero_le _)), Nat.add_sub_cancel,
        ih hs, Option.map_some]

theorem splitInclusive_line {l : List Char} (hl : '\n' ∉ l) (s : List Char) :
    splitInclusive (l ++ '\n' :: s) = (l ++ ['\n']) :: splitInclusive s := by
  induction l with
  | nil => rw [List.nil_append, splitInclusive, if_pos rfl, List.nil_append]
  | cons c l ih =>
      rw [List.mem_cons, not_or] at hl
      rw [List.cons_append, splitInclusive, if_neg (Ne.symm hl.1), ih hl.2, List.cons_append]

theorem talker_chars (src : UInt8) :
    (talker src).length = 2 ∧ ∀ c ∈ talker src, Plain.Ascii c ∧ c ≠ '\n' := by
  have hnibble : ∀ b : UInt8, (b &&& 0xf).toNat < 16 := by
    intro b
    rw [UInt8.toNat_and]
    exact Nat.and_lt_two_pow (n := 4) _ (by decide)
  have hletter : ∀ n < 17, (Char.ofNat (65 + n)).toNat < 128 ∧ Char.ofNat (65 + n) ≠ '\n' := by
    decide
  refine ⟨rfl, ?_⟩
  rw [talker]
  simp only [List.forall_mem_cons, List.not_mem_nil, false_implies, implies_true, and_true]
  have hfirst := hnibble (src >>> 4)
  have hsecond := hnibble src
  constructor
  · apply hletter
    split <;> omega
  · exact hletter _ (by omega)

theorem newline_not_mem_checksum (b : UInt8) : '\n' ∉ toAsciiUppercase (Plain.hexPair b) := by
  have hdigit : ∀ n < 16, '\n' ∉ toAsciiUppercase [Nat.digitChar n] := by decide
  have hbyte : b.toNat < 256 := b.toNat_lt
  have hhigh := hdigit (b.toNat / 16) (by omega)
  have hlow := hdigit (b.toNat % 16) (by omega)
  rw [toAsciiUppercase, List.map_singleton, List.mem_singleton] at hhigh hlow
  rw [Plain.hexPair, toAsciiUppercase, List.map_cons, List.map_singleton, List.mem_cons,
    List.mem_singleton, not_or]
  exact ⟨hhigh, hlow⟩

theorem Body.isFormatter (b : Body) : IsFormatter b.formatter :=
  isFormatter_of_known b.formatter (List.mem_cons_of_mem _ b.known)

/-- A sentence is a line, and its formatter is the body's. -/
theorem splitInclusive_create (src : UInt8) (b : Body) (s : List Char) :
    splitInclusive (create src b.text ++ s) = create src b.text :: splitInclusive s := by
  obtain ⟨-, htalker⟩ := talker_chars src
  have hbody : '\n' ∉ b.text := by
    intro hmem
    rw [Body.text, List.mem_append, List.mem_cons] at hmem
    rcases hmem with h | h | h
    · exact absurd (b.isFormatter.letters _ h) (by decide)
    · cases h
    · exact b.oneLine h
  generalize htext : talker src ++ b.text = text
  have hline : '\n' ∉ text := by
    rw [← htext, List.mem_append, not_or]
    exact ⟨fun h => (htalker _ h).2 rfl, hbody⟩
  generalize hsum : toAsciiUppercase (Plain.hexPair ((utf8Bytes text).foldl (· ^^^ ·) 0)) = sum
  have hsum' : '\n' ∉ sum := by
    rw [← hsum]
    exact newline_not_mem_checksum _
  have hcreate : create src b.text = ('$' :: (text ++ '*' :: (sum ++ ['\r']))) ++ ['\n'] := by
    rw [create, htext, hsum]
    simp only [List.append_assoc, List.cons_append, List.nil_append]
  have hnot : '\n' ∉ '$' :: (text ++ '*' :: (sum ++ ['\r'])) := by
    simp only [List.mem_cons, List.mem_append, List.not_mem_nil, not_or]
    exact ⟨by decide, hline, by decide, hsum', by decide, not_false⟩
  rw [hcreate, List.append_assoc, List.singleton_append, splitInclusive_line hnot]

theorem sentenceFormatter_create (src : UInt8) (b : Body) :
    sentenceFormatter (create src b.text) = some b.formatter := by
  obtain ⟨hlength, htalker⟩ := talker_chars src
  have hformatter := b.isFormatter
  have h₂ := takeBytes_ascii (fun c hc => (htalker c hc).1)
  have h₃ := takeBytes_ascii hformatter.ascii
  rw [hlength] at h₂
  rw [hformatter.length] at h₃
  rw [create, Body.text]
  simp only [List.append_assoc, sentenceFormatter]
  rw [h₂, Option.bind_some, h₃, Option.map_some, String.ofList_toList]

theorem formatters_sentences (src : UInt8) (bodies : List Body) :
    (splitInclusive (bodies.flatMap fun b => create src b.text)).filterMap sentenceFormatter =
      bodies.map (·.formatter) := by
  induction bodies with
  | nil => rfl
  | cons b bodies ih =>
      rw [List.flatMap_cons, splitInclusive_create, List.filterMap_cons,
        sentenceFormatter_create, ih, List.map_cons]

theorem mem_foldl_addSentence {seen new : List String} {s : String} :
    s ∈ new.foldl addSentence seen ↔ s ∈ seen ∨ s ∈ new := by
  induction new generalizing seen with
  | nil => simp
  | cons t new ih =>
      rw [List.foldl_cons, ih, addSentence, List.mem_cons]
      split_ifs with ht
      · constructor
        · rintro (h | h)
          · exact Or.inl h
          · exact Or.inr (Or.inr h)
        · rintro (h | rfl | h)
          · exact Or.inl h
          · exact Or.inl ht
          · exact Or.inr h
      · rw [List.mem_append, List.mem_singleton, or_assoc]

theorem nodup_foldl_addSentence {seen new : List String} (h : seen.Nodup) :
    (new.foldl addSentence seen).Nodup := by
  induction new generalizing seen with
  | nil => exact h
  | cons t new ih =>
      rw [List.foldl_cons]
      apply ih
      rw [addSentence]
      split_ifs with ht
      · exact h
      · exact List.nodup_append.mpr ⟨h, List.nodup_singleton t, fun a ha b hb => by
          rintro rfl
          exact ht (List.mem_singleton.mp hb ▸ ha)⟩

/-- What has been seen of each source are formatters of the converters, each once. -/
structure Seen : Prop where
  known : ∀ src, ∀ s ∈ f.observed src, s ∈ FORMATTERS
  nodup : ∀ src, (f.observed src).Nodup

variable {f}

theorem observed_set (src : UInt8) (sentence : String) (muted : Bool) :
    (f.set src sentence muted).1.observed = f.observed := by
  rw [set]
  split
  · rfl
  · rw [setRule]
    dsimp only
    split_ifs <;> rfl

theorem observed_applySetFrame (data : List UInt8) :
    (f.applySetFrame data).observed = f.observed := by
  unfold applySetFrame
  split
  · dsimp only
    split_ifs
    · rfl
    · exact observed_set ..
  · rfl

theorem apply_observed (src : UInt8) (buf : List Char) :
    (f.apply src buf).1 = f.observe src buf := by
  rw [apply]
  split
  · rfl
  · split_ifs <;> rfl

/-- The step lemma. -/
theorem Seen.step (h : f.Seen) (op : FilterOp) : (f.step op).Seen := by
  cases op with
  | claim src name => exact ⟨h.known, h.nodup⟩
  | set data =>
      have heq : (f.step (.set data)).observed = f.observed := observed_applySetFrame data
      constructor
      · rw [heq]
        exact h.known
      · rw [heq]
        exact h.nodup
  | sentences src bodies =>
      have heq : f.step (.sentences src bodies) =
          f.observe src (bodies.flatMap fun b => create src b.text) := apply_observed ..
      have hobserved : (f.step (.sentences src bodies)).observed =
          Function.update f.observed src
            ((bodies.map (·.formatter)).foldl addSentence (f.observed src)) := by
        rw [heq, observe]
        simp only [formatters_sentences]
      constructor
      · intro src' s hs
        rw [hobserved, Function.update_apply] at hs
        split_ifs at hs with hsrc
        · rcases mem_foldl_addSentence.mp hs with hs | hs
          · exact h.known src s hs
          · obtain ⟨b, -, rfl⟩ := List.mem_map.mp hs
            exact b.known
        · exact h.known src' s hs
      · intro src'
        rw [hobserved, Function.update_apply]
        split_ifs with hsrc
        · exact nodup_foldl_addSentence (h.nodup src)
        · exact h.nodup src'

/-- The run lemma. -/
theorem seen_run (rules : IndexMap UInt64 DeviceRule) (ops : List FilterOp) :
    (run rules ops).Seen := by
  have hfold : ∀ (ops : List FilterOp) (f : NmeaFilter), f.Seen → (ops.foldl step f).Seen := by
    intro ops
    induction ops with
    | nil => exact fun f h => h
    | cons op ops ih => exact fun f h => ih _ (h.step op)
  exact hfold ops _ ⟨fun _ _ h => absurd h List.not_mem_nil, fun _ => List.nodup_nil⟩

end NmeaFilter

end Canboat
