import Canboat.Format.Lines

/-!
# Reading lines of any format

The format of a line, the parser for it, and a reader that takes the format from a header or from
the first line it reads.
-/

namespace Canboat

open Checked

/-- A line format. -/
inductive InputFormat
  | plain
  | plainMixFast
  | actisenseAscii
  | ydwg02
  | ikonvert
  | airmar
  | chetco
  | garminCsv
  | garminCsv2
deriving DecidableEq, Repr

/-- The name that a `# format=` line gives. -/
def headerName (line : List Char) : Option String :=
  (stripPrefix "# format=".toList line).map fun rest =>
    String.ofList (toAsciiUppercase (trim rest))

def parseFormatHeader (line : List Char) : Option InputFormat :=
  (headerName line).bind fun name =>
    if name = "PLAIN" ∨ name = "PLAIN_OR_FAST" then some .plain
    else if name = "PLAIN_MIX_FAST" then some .plainMixFast
    else if name = "FAST" then some .plain
    else if name = "ACTISENSE" ∨ name = "ACTISENSE_ASCII" then some .actisenseAscii
    else if name = "YDWG02" then some .ydwg02
    else if name = "IKONVERT" then some .ikonvert
    else if name = "AIRMAR" then some .airmar
    else if name = "CHETCO" then some .chetco
    else if name = "GARMIN_CSV1" ∨ name = "GARMIN" then some .garminCsv
    else if name = "GARMIN_CSV2" then some .garminCsv2
    else none

def headerImpliesCoalesced (line : List Char) : Bool :=
  match headerName line with
  | none => false
  | some name => !(name ∈ ["PLAIN", "PLAIN_OR_FAST", "PLAIN_MIX_FAST", "YDWG02"])

def looksLikeAirmar (line : List Char) : Bool :=
  let bytes := utf8Bytes line
  match bytes.findIdx? (· == 0x20) with
  | none => false
  | some space => bytes[space + 1]? == some 0x2d || bytes[space + 2]? == some 0x2d

/-- Digits and separators of `HH:MM:SS.`, by position. -/
def timeTemplate : List (ℕ × (UInt8 → Bool)) :=
  [(0, Plain.isDigitByte), (1, Plain.isDigitByte), (2, (· == 0x3a)), (3, Plain.isDigitByte),
    (4, Plain.isDigitByte), (5, (· == 0x3a)), (6, Plain.isDigitByte), (7, Plain.isDigitByte),
    (8, (· == 0x2e))]

/-- All of them hold, up to the first that does not. -/
def fitsTemplate (bytes : List UInt8) : List (ℕ × (UInt8 → Bool)) → Except Fault Bool
  | [] => .ok true
  | (i, p) :: template => do
      let b ← byteAt bytes i
      if p b then fitsTemplate bytes template else .ok false

def looksLikeYdwg02 (line : List Char) : Except Fault Bool :=
  if (utf8Bytes line).length < 13 then .ok false
  else fitsTemplate (utf8Bytes line) timeTemplate

def detect (line : List Char) : Except Fault (Option InputFormat) :=
  let t := trimStart line
  if t = [] ∨ t.head? = some '#' then .ok none
  else if "!PDGY,".toList.isPrefixOf t ∨ "$PDGY,".toList.isPrefixOf t then .ok (some .ikonvert)
  else if "$PCDIN".toList.isPrefixOf t then .ok (some .chetco)
  else if "Sequence #,Timestamp,PGN,".toList.isPrefixOf t then .ok (some .garminCsv)
  else if "Sequence #,Month_Day_Year_Hours_Minutes_Seconds_msTicks,".toList.isPrefixOf t then
    .ok (some .garminCsv2)
  else if t.head? = some 'A' ∧ ((utf8Bytes t)[1]?.map Plain.isDigitByte).getD false then
    .ok (some .actisenseAscii)
  else do
    let ydwg02 ← looksLikeYdwg02 t
    if ydwg02 then .ok (some .ydwg02)
    else if looksLikeAirmar t then .ok (some .airmar)
    else if ',' ∈ t then .ok (some .plain)
    else .ok none

def parseWith (clock : Option UInt64) (format : InputFormat) (line : List Char) :
    Checked ParseError (Option RawFrame) :=
  match format with
  | .plain | .plainMixFast => some <$> Plain.parseLine line
  | .actisenseAscii => some <$> ActisenseAscii.parseLine line
  | .ydwg02 => some <$> Ydwg02.parseLine clock line
  | .ikonvert => do
      match ← Ikonvert.parseLine line with
      | .frame f => pure (some f)
      | _ => pure none
  | .airmar => some <$> Airmar.parseLine line
  | .chetco => some <$> Chetco.parseLine line
  | .garminCsv | .garminCsv2 => do
      let variant : GarminCsv.Variant := if format = .garminCsv2 then .absolute else .relative
      match ← GarminCsv.parseLine line variant with
      | .frame f => pure (some f)
      | .header => pure none

/-! ## Reading many lines -/

/-- A line as it is read, and what the clock shows then. -/
structure LineRead where
  clock : Option UInt64
  text : List Char

/-- A frame as the reader yields it, with what it knows of its input by then. -/
structure ReadFrame where
  frame : RawFrame
  headerCoalesced : Bool
  activeFormat : Option InputFormat
deriving DecidableEq, Repr

structure LineFrameReader where
  active : Option InputFormat
  headerCoalesced : Bool

namespace LineFrameReader

/-- The format for a line: the active one, or else the one that the line looks like. -/
def formatFor (active : Option InputFormat) (line : List Char) : Except Fault InputFormat :=
  match active with
  | some fmt => .ok fmt
  | none => do
      let detected ← detect line
      .ok (detected.getD .plain)

/-- One turn of the loop of `read_frame`. -/
def readLine (r : LineFrameReader) (l : LineRead) :
    Except Fault (LineFrameReader × Option ReadFrame) :=
  let line := trimNewlines l.text
  if line = [] then .ok (r, none)
  else if line.head? = some '#' then
    match parseFormatHeader line with
    | none => .ok (r, none)
    | some fmt =>
        .ok (⟨r.active.or (some fmt), r.headerCoalesced || headerImpliesCoalesced line⟩, none)
  else do
    let active ← formatFor r.active line
    let r : LineFrameReader := { r with active := some active }
    match ← (parseWith l.clock active line).run with
    | .ok frame => .ok (r, frame.map fun f => ⟨f, r.headerCoalesced, r.active⟩)
    | .error _ => .ok (r, none)

/-- The frames of all the lines. -/
def readAll : LineFrameReader → List LineRead → Except Fault (LineFrameReader × List ReadFrame)
  | r, [] => .ok (r, [])
  | r, l :: lines => do
      let (r, frame) ← r.readLine l
      let (r, frames) ← readAll r lines
      .ok (r, frame.toList ++ frames)

end LineFrameReader

/-! ## When lines can be read -/

def LineFits (clock : Option UInt64) (line : List Char) : InputFormat → Prop
  | .plain | .plainMixFast => Plain.Fits line
  | .actisenseAscii => ActisenseAscii.Fits line
  | .ydwg02 => Ydwg02.Fits clock line
  | .ikonvert => Ikonvert.Fits line
  | .airmar | .chetco | .garminCsv | .garminCsv2 => True

theorem parseWith_returns_iff (clock : Option UInt64) (format : InputFormat) (line : List Char) :
    Returns (parseWith clock format line) ↔ LineFits clock line format := by
  cases format with
  | plain =>
      rw [parseWith, returns_map, Plain.parseLine_returns_iff]
      rfl
  | plainMixFast =>
      rw [parseWith, returns_map, Plain.parseLine_returns_iff]
      rfl
  | actisenseAscii =>
      rw [parseWith, returns_map, ActisenseAscii.parseLine_returns_iff]
      rfl
  | ydwg02 =>
      rw [parseWith, returns_map, Ydwg02.parseLine_returns_iff]
      rfl
  | ikonvert =>
      rw [parseWith, returns_bind, and_iff_left, Ikonvert.parseLine_returns_iff]
      · rfl
      · intro l _
        cases l <;> exact returns_pure _
  | airmar =>
      rw [parseWith, returns_map]
      exact iff_of_true (Airmar.parseLine_returns line) trivial
  | chetco =>
      rw [parseWith, returns_map]
      exact iff_of_true (Chetco.parseLine_returns line) trivial
  | garminCsv =>
      refine iff_of_true ?_ trivial
      rw [parseWith]
      refine returns_bind_of_left (GarminCsv.parseLine_returns line _) fun l => ?_
      cases l <;> exact returns_pure _
  | garminCsv2 =>
      refine iff_of_true ?_ trivial
      rw [parseWith]
      refine returns_bind_of_left (GarminCsv.parseLine_returns line _) fun l => ?_
      cases l <;> exact returns_pure _

theorem fitsTemplate_ok {bytes : List UInt8} {template : List (ℕ × (UInt8 → Bool))}
    (h : ∀ e ∈ template, e.1 < bytes.length) : ∃ b, fitsTemplate bytes template = .ok b := by
  induction template with
  | nil => exact ⟨true, rfl⟩
  | cons e template ih =>
      obtain ⟨i, p⟩ := e
      have hi : i < bytes.length := h (i, p) List.mem_cons_self
      rw [fitsTemplate, byteAt_of_lt hi]
      dsimp only [bind, Except.bind]
      split_ifs
      · exact ih fun e he => h e (List.mem_cons_of_mem _ he)
      · exact ⟨false, rfl⟩

theorem looksLikeYdwg02_ok (line : List Char) : ∃ b, looksLikeYdwg02 line = .ok b := by
  rw [looksLikeYdwg02]
  split_ifs with hshort
  · exact ⟨false, rfl⟩
  · apply fitsTemplate_ok
    intro e he
    have hpos : ∀ e ∈ timeTemplate, e.1 < 13 := by
      simp [timeTemplate]
    have hlt := hpos e he
    omega

theorem detect_ok (line : List Char) : ∃ r, detect line = .ok r := by
  obtain ⟨b, hb⟩ := looksLikeYdwg02_ok (trimStart line)
  rw [detect, hb]
  apply Fault.ok_ite ⟨_, rfl⟩
  apply Fault.ok_ite ⟨_, rfl⟩
  apply Fault.ok_ite ⟨_, rfl⟩
  apply Fault.ok_ite ⟨_, rfl⟩
  apply Fault.ok_ite ⟨_, rfl⟩
  apply Fault.ok_ite ⟨_, rfl⟩
  dsimp only [bind, Except.bind]
  apply Fault.ok_ite ⟨_, rfl⟩
  apply Fault.ok_ite ⟨_, rfl⟩
  apply Fault.ok_ite ⟨_, rfl⟩
  exact ⟨_, rfl⟩

namespace LineFrameReader

def detected (line : List Char) : Option InputFormat := (detect line).toOption.join

/-- The format that a line is read in. -/
def formatOf (active : Option InputFormat) (line : List Char) : InputFormat :=
  (active.or (detected line)).getD .plain

theorem formatFor_eq (active : Option InputFormat) (line : List Char) :
    formatFor active line = .ok (formatOf active line) := by
  cases active with
  | some fmt => rfl
  | none =>
      obtain ⟨d, hd⟩ := detect_ok line
      rw [formatFor, formatOf, detected, hd]
      rfl

/-- A line that is neither blank nor a header is one that its format can be read in. -/
def StepFits (active : Option InputFormat) (l : LineRead) : Prop :=
  trimNewlines l.text ≠ [] → (trimNewlines l.text).head? ≠ some '#' →
    LineFits l.clock (trimNewlines l.text) (formatOf active (trimNewlines l.text))

/-- The active format after a line. -/
def activeAfter (active : Option InputFormat) (l : LineRead) : Option InputFormat :=
  let line := trimNewlines l.text
  if line = [] then active
  else if line.head? = some '#' then active.or (parseFormatHeader line)
  else some (formatOf active line)

def RunFits : Option InputFormat → List LineRead → Prop
  | _, [] => True
  | active, l :: lines => StepFits active l ∧ RunFits (activeAfter active l) lines

theorem readLine_ok_iff (r : LineFrameReader) (l : LineRead) :
    (∃ out, r.readLine l = .ok out) ↔ StepFits r.active l := by
  rw [readLine, StepFits]
  dsimp only
  split_ifs with hblank hheader
  · exact iff_of_true ⟨_, rfl⟩ fun h => absurd hblank h
  · refine iff_of_true ?_ fun _ h => absurd hheader h
    cases parseFormatHeader (trimNewlines l.text) <;> exact ⟨_, rfl⟩
  · rw [forall_prop_of_true hblank, forall_prop_of_true hheader, formatFor_eq,
      ← parseWith_returns_iff]
    dsimp only [bind, Except.bind]
    rw [Returns]
    generalize (parseWith l.clock (formatOf r.active (trimNewlines l.text))
      (trimNewlines l.text)).run = res
    cases res with
    | error e => exact iff_of_false (by rintro ⟨out, ⟨⟩⟩) (by rintro ⟨out, ⟨⟩⟩)
    | ok out =>
        refine iff_of_true ?_ ⟨out, rfl⟩
        cases out with
        | error e => exact ⟨_, rfl⟩
        | ok frame => exact ⟨_, rfl⟩

theorem active_of_readLine {r : LineFrameReader} {l : LineRead}
    {out : LineFrameReader × Option ReadFrame} (h : r.readLine l = .ok out) :
    out.1.active = activeAfter r.active l := by
  rw [readLine] at h
  rw [activeAfter]
  dsimp only at h ⊢
  split_ifs at h ⊢ with hblank hheader
  · cases h
    rfl
  · cases hfmt : parseFormatHeader (trimNewlines l.text) with
    | none =>
        rw [hfmt] at h
        cases h
        exact (Option.or_none).symm
    | some fmt =>
        rw [hfmt] at h
        cases h
        rfl
  · rw [formatFor_eq] at h
    dsimp only [bind, Except.bind] at h
    cases hrun : (parseWith l.clock (formatOf r.active (trimNewlines l.text))
        (trimNewlines l.text)).run with
    | error e =>
        rw [hrun] at h
        cases h
    | ok res =>
        rw [hrun] at h
        cases res <;> cases h <;> rfl

theorem readAll_ok_iff (r : LineFrameReader) (lines : List LineRead) :
    (∃ out, r.readAll lines = .ok out) ↔ RunFits r.active lines := by
  induction lines generalizing r with
  | nil => exact iff_of_true ⟨_, rfl⟩ trivial
  | cons l lines ih =>
      rw [readAll, RunFits, ← readLine_ok_iff, Fault.ok_bind_iff]
      constructor
      · rintro ⟨out, hout, hrest⟩
        refine ⟨⟨out, hout⟩, ?_⟩
        obtain ⟨rest, hrest, -⟩ := Fault.ok_bind_iff.mp hrest
        rw [← active_of_readLine hout]
        exact (ih out.1).mp ⟨rest, hrest⟩
      · rintro ⟨⟨out, hout⟩, hrest⟩
        rw [← active_of_readLine hout] at hrest
        obtain ⟨rest, hrest⟩ := (ih out.1).mpr hrest
        exact ⟨out, hout, Fault.ok_bind_iff.mpr ⟨rest, hrest, _, rfl⟩⟩

end LineFrameReader

/-- Which lines can be read without a fault: of one line in a format, and of a run of lines
whose format is detected. -/
theorem parse_returns_iff (clock : Option UInt64) (format : InputFormat) (line : List Char)
    (r : LineFrameReader) (lines : List LineRead) :
    (Returns (parseWith clock format line) ↔ LineFits clock line format) ∧
      ((∃ out, r.readAll lines = .ok out) ↔ LineFrameReader.RunFits r.active lines) :=
  ⟨parseWith_returns_iff clock format line, LineFrameReader.readAll_ok_iff r lines⟩

/-- Faults of a time cut within a character, of a header number of 65 bits, and of a payload
that is all padding. -/
theorem not_parse_returns :
    (¬∃ out, LineFrameReader.readAll ⟨none, false⟩ [⟨none, "A1é2345 1 1F119 01".toList⟩] = .ok out) ∧
      ¬Returns (parseWith none .plain "t,18446744073709551616,1,1,1,0".toList) ∧
      ¬Returns (parseWith none .ikonvert "!PDGY,1,1,1,1,t,====".toList) := by
  refine ⟨?_, ?_, ?_⟩
  · rw [LineFrameReader.readAll_ok_iff]
    rintro ⟨hstep, -⟩
    have hformat : LineFrameReader.formatOf none (trimNewlines "A1é2345 1 1F119 01".toList) =
        .actisenseAscii := by decide +kernel
    have hfits := hstep (by decide) (by decide)
    rw [hformat] at hfits
    have hcut := hfits "A1é2345".toList (by decide) rfl (by decide) (by decide) 2 (by decide)
    exact absurd hcut (by decide +kernel)
  · rw [parseWith_returns_iff]
    intro hfits
    have hheader := hfits ("t".toList, "18446744073709551616,1,1,1,0".toList) (by decide)
    rw [Plain.headerMaxes, Plain.HeaderFits] at hheader
    exact absurd hheader.1 (by decide +kernel)
  · rw [parseWith_returns_iff]
    intro hfits
    have hb64 := hfits "1,1,1,1,t,====".toList (by decide) (by decide) "====".toList (by decide)
    have hvalues : ∀ b ∈ utf8Bytes (trim "====".toList), (Ikonvert.b64Value b).isSome :=
      List.all_eq_true.mp (by decide)
    exact absurd (hb64 (by decide) hvalues) (by decide)

end Canboat
