import Canboat.Io.AnalyzerLog

/-!
# How the format became known

`decode_stream` over the same lines with the format in a header, forced, or detected from the
first line. A header also says whether the lines carry whole messages; a forced or detected
format does not, and until a wide frame has come the short messages of fast-packet PGNs go to
the reassembler as if they were fragments.
-/

namespace Canboat

open Reassembler

variable {F : Type} [Float64 F]

/-- The name that a header gives the format. -/
def InputFormat.name : InputFormat → String
  | .plain => "PLAIN"
  | .plainMixFast => "PLAIN_MIX_FAST"
  | .actisenseAscii => "ACTISENSE"
  | .ydwg02 => "YDWG02"
  | .ikonvert => "IKONVERT"
  | .airmar => "AIRMAR"
  | .chetco => "CHETCO"
  | .garminCsv => "GARMIN_CSV1"
  | .garminCsv2 => "GARMIN_CSV2"

def headerLine (format : InputFormat) : List Char :=
  "# format=".toList ++ format.name.toList

/-- The lines of the format carry whole messages. -/
def InputFormat.Whole (format : InputFormat) : Prop :=
  headerImpliesCoalesced (headerLine format) = true

instance : DecidablePred InputFormat.Whole := fun format =>
  inferInstanceAs (Decidable (headerImpliesCoalesced (headerLine format) = true))

theorem whole_iff (format : InputFormat) :
    format.Whole ↔ format ∉ [.plain, .plainMixFast, .ydwg02] := by
  cases format <;> decide

theorem parseFormatHeader_headerLine (format : InputFormat) :
    parseFormatHeader (headerLine format) = some format := by
  cases format <;> decide

/-! ## Reading in one format -/

/-- A line that is neither blank nor a comment. -/
def LineRead.Content (l : LineRead) : Prop :=
  trimNewlines l.text ≠ [] ∧ (trimNewlines l.text).head? ≠ some '#'

/-- The frames of lines in the format. -/
def framesIn (format : InputFormat) : List LineRead → Except Fault (List RawFrame)
  | [] => .ok []
  | l :: lines => do
      let frame ← (parseWith l.clock format (trimNewlines l.text)).run
      let frames ← framesIn format lines
      .ok ((frame.toOption.join).toList ++ frames)

namespace LineFrameReader

theorem readLine_content {l : LineRead} (hl : l.Content) (active : Option InputFormat)
    (header : Bool) {format : InputFormat}
    (hformat : formatOf active (trimNewlines l.text) = format) :
    readLine ⟨active, header⟩ l =
      (parseWith l.clock format (trimNewlines l.text)).run.map fun frame =>
        (⟨some format, header⟩,
          frame.toOption.join.map fun f => ⟨f, header, some format⟩) := by
  rw [readLine]
  dsimp only
  rw [if_neg hl.1, if_neg hl.2, formatFor_eq, hformat]
  dsimp only [bind, Except.bind]
  generalize (parseWith l.clock format (trimNewlines l.text)).run = res
  cases res with
  | error e => rfl
  | ok frame => cases frame <;> rfl

/-- Once the format is known every content line is read in it. -/
theorem readAll_content (format : InputFormat) (header : Bool) {lines : List LineRead}
    (hlines : ∀ l ∈ lines, l.Content) :
    readAll ⟨some format, header⟩ lines =
      (framesIn format lines).map fun frames =>
        (⟨some format, header⟩, frames.map fun f => ⟨f, header, some format⟩) := by
  induction lines with
  | nil => rfl
  | cons l lines ih =>
      rw [List.forall_mem_cons] at hlines
      have hformat : formatOf (some format) (trimNewlines l.text) = format := rfl
      rw [readAll, framesIn, readLine_content hlines.1 (some format) header hformat]
      generalize (parseWith l.clock format (trimNewlines l.text)).run = res
      cases res with
      | error e => rfl
      | ok frame =>
          dsimp only [bind, Except.bind, Except.map]
          rw [ih hlines.2]
          cases framesIn format lines with
          | error e => rfl
          | ok frames =>
              dsimp only [Except.map]
              rw [List.map_append]
              cases frame.toOption.join <;> rfl

/-- The format of the first line is the format of all. -/
theorem readAll_first {format : InputFormat} {l : LineRead} (hl : l.Content)
    (hformat : formatOf none (trimNewlines l.text) = format) (lines : List LineRead)
    (header : Bool) :
    readAll ⟨none, header⟩ (l :: lines) = readAll ⟨some format, header⟩ (l :: lines) := by
  have hactive : formatOf (some format) (trimNewlines l.text) = format := rfl
  rw [readAll, readAll, readLine_content hl none header hformat,
    readLine_content hl (some format) header hactive]

theorem readAll_detected {format : InputFormat} {l : LineRead} {lines : List LineRead}
    (hlines : ∀ l' ∈ l :: lines, l'.Content)
    (hdetect : detect (trimNewlines l.text) = .ok (some format)) (header : Bool) :
    readAll ⟨none, header⟩ (l :: lines) = readAll ⟨some format, header⟩ (l :: lines) := by
  apply readAll_first (hlines l List.mem_cons_self)
  rw [formatOf, detected, hdetect]
  rfl

/-- A header sets the format and says whether the lines carry whole messages. -/
theorem readAll_header (format : InputFormat) {l : LineRead}
    (hl : trimNewlines l.text = headerLine format) (lines : List LineRead) :
    readAll ⟨none, false⟩ (l :: lines) =
      readAll ⟨some format, headerImpliesCoalesced (headerLine format)⟩ lines := by
  have hne : headerLine format ≠ [] := by cases format <;> decide
  have hhead : (headerLine format).head? = some '#' := by cases format <;> rfl
  rw [readAll, readLine]
  dsimp only
  rw [hl, if_neg hne, if_pos hhead, parseFormatHeader_headerLine]
  dsimp only [bind, Except.bind]
  rw [Option.none_or, Bool.false_or]
  cases readAll ⟨some format, headerImpliesCoalesced (headerLine format)⟩ lines <;> rfl

end LineFrameReader

/-! ## Decoding lines -/

/-- What the lines of a format are handed to the reassembler as, by what a header says. -/
def pushesIn (db : PgnDatabase F) (cfg : Config) (format : InputFormat) (header : Bool)
    (frames : List RawFrame) : Log :=
  pushesOf db cfg false (frames.map fun f => ⟨f, header, some format⟩)

section

variable (db : PgnDatabase F) (cfg : Config)

theorem decodeLines_content (format : InputFormat) (header : Bool) {lines : List LineRead}
    (hlines : ∀ l ∈ lines, l.Content) :
    decodeLines db cfg ⟨some format, header⟩ lines =
      (framesIn format lines).map fun frames =>
        decodeLog db .new (pushesIn db cfg format header frames) := by
  rw [decodeLines, LineFrameReader.readAll_content format header hlines]
  cases framesIn format lines with
  | error e => rfl
  | ok frames =>
      dsimp only [Except.map]
      rw [decodeStream_eq_decodeLog]
      rfl

/-- A frame of eight bytes or less. -/
def narrow (f : RawFrame) : Bool := decide (f.data.length ≤ 8)

omit [Float64 F] in
/-- Under such a header, or behind a wide frame, all frames are passed on. -/
theorem pushesOf_coalesced (format : Option InputFormat) (header : Bool)
    (frames : List RawFrame) :
    pushesOf db cfg true (frames.map fun f => ⟨f, header, format⟩) =
      (frames.filter cfg.admits).map fun f => (f, .Other) := by
  induction frames with
  | nil => rfl
  | cons f frames ih =>
      rw [List.map_cons, pushesOf, List.filter_cons]
      dsimp only
      simp only [Bool.true_or, if_true]
      rw [ih]
      split_ifs
      · rw [List.map_cons]
      · rfl

omit [Float64 F] in
theorem pushesIn_headed (format : InputFormat) (frames : List RawFrame) :
    pushesIn db cfg format true frames =
      (frames.filter cfg.admits).map fun f => (f, .Other) := by
  rw [pushesIn]
  cases frames with
  | nil => rfl
  | cons f frames =>
      have h := pushesOf_coalesced db cfg (some format) true (f :: frames)
      rw [List.map_cons, pushesOf] at h ⊢
      dsimp only at h ⊢
      rw [Bool.false_or]
      exact h

omit [Float64 F] in
/-- Without one, those before the first wide frame are of their PGN's packet type. -/
theorem pushesIn_forced {format : InputFormat} (hformat : format ≠ .plainMixFast)
    (frames : List RawFrame) :
    pushesIn db cfg format false frames =
      ((frames.filter cfg.admits).takeWhile narrow).map
          (fun f => (f, db.framePacketType f.pgn)) ++
        ((frames.filter cfg.admits).dropWhile narrow).map fun f => (f, .Other) := by
  have hlocks : (some format != some InputFormat.plainMixFast) = true := by
    simpa using hformat
  rw [pushesIn]
  induction frames with
  | nil => rfl
  | cons f frames ih =>
      rw [List.map_cons, pushesOf, List.filter_cons]
      dsimp only
      rw [hlocks, Bool.and_true, Bool.false_or, Bool.false_or]
      by_cases hadmits : cfg.admits f = true
      · rw [if_pos hadmits, if_pos hadmits]
        by_cases hwide : 8 < f.data.length
        · have hnarrow : ¬narrow f = true := by
            rw [narrow, decide_eq_true_eq]
            omega
          rw [decide_eq_true hwide, List.takeWhile_cons_of_neg hnarrow,
            List.dropWhile_cons_of_neg hnarrow, pushesOf_coalesced]
          rfl
        · have hnarrow : narrow f = true := decide_eq_true (by omega)
          rw [decide_eq_false hwide, List.takeWhile_cons_of_pos hnarrow,
            List.dropWhile_cons_of_pos hnarrow, List.map_cons, List.cons_append, ih]
          rfl
      · rw [if_neg hadmits, if_neg hadmits]
        exact ih

/-- None of the frames before the first wide one is of a fast-packet PGN. -/
def NoEarlyFragment (frames : List RawFrame) : Prop :=
  ∀ f ∈ (frames.filter cfg.admits).takeWhile narrow,
    f.IsTp ∨ db.framePacketType f.pgn ≠ .Fast

instance (frames : List RawFrame) : Decidable (NoEarlyFragment db cfg frames) :=
  inferInstanceAs (Decidable (∀ f ∈ (frames.filter cfg.admits).takeWhile narrow,
    f.IsTp ∨ db.framePacketType f.pgn ≠ .Fast))

omit [Float64 F] in
theorem not_collected_other (f : RawFrame) : ¬Collected (f, .Other) := fun h => nomatch h.2.2

omit [Float64 F] in
theorem pushesIn_headed_not_collected (format : InputFormat) (frames : List RawFrame) :
    ∀ e ∈ pushesIn db cfg format true frames, ¬Collected e := by
  rw [pushesIn_headed, List.forall_mem_map]
  exact fun f _ => not_collected_other f

omit [Float64 F] in
theorem noEarlyFragment_iff {format : InputFormat} (hformat : format ≠ .plainMixFast)
    (frames : List RawFrame) :
    NoEarlyFragment db cfg frames ↔ ∀ e ∈ pushesIn db cfg format false frames, ¬Collected e := by
  rw [pushesIn_forced db cfg hformat, List.forall_mem_append, List.forall_mem_map,
    List.forall_mem_map]
  constructor
  · intro h
    refine ⟨fun f hf hc => ?_, fun f _ => not_collected_other f⟩
    rcases h f hf with htp | hslow
    · exact hc.1 htp
    · exact hslow hc.2.2
  · rintro ⟨h, -⟩ f hf
    by_contra hc
    rw [not_or, not_not] at hc
    have hnarrow := List.all_eq_true.mp List.all_takeWhile f hf
    exact h f hf ⟨hc.1, of_decide_eq_true hnarrow, hc.2⟩

omit [Float64 F] in
theorem passed_pushesIn {format : InputFormat} (hformat : format ≠ .plainMixFast)
    (frames : List RawFrame) :
    passed (pushesIn db cfg format false frames) = pushesIn db cfg format true frames := by
  rw [pushesIn_forced db cfg hformat, pushesIn_headed, passed, List.map_append, List.map_map,
    List.map_map]
  conv_rhs => rw [← List.takeWhile_append_dropWhile (p := narrow) (l := frames.filter cfg.admits),
    List.map_append]
  rfl

theorem pushesIn_decode (hdb : FragmentsDecode db) {format : InputFormat}
    (hformat : format ≠ .plainMixFast) (frames : List RawFrame) :
    ∀ e ∈ pushesIn db cfg format false frames, Collected e → (db.decode? e.1).isSome := by
  rw [pushesIn_forced db cfg hformat, List.forall_mem_append, List.forall_mem_map,
    List.forall_mem_map]
  exact ⟨fun f _ => hdb f, fun f _ hc => absurd hc (not_collected_other f)⟩

/-! ## Three ways to know the format -/

/-- The same records of the lines under a header, in the forced format, and in the format that
the first of them looks like. -/
structure SameRecords (format : InputFormat) (lines : List LineRead) : Prop where
  header : ∀ l : LineRead, trimNewlines l.text = headerLine format →
    decodeLines db cfg ⟨none, false⟩ (l :: lines) = decodeLines db cfg ⟨some format, false⟩ lines
  detected : ∀ l rest, lines = l :: rest → detect (trimNewlines l.text) = .ok (some format) →
    decodeLines db cfg ⟨none, false⟩ lines = decodeLines db cfg ⟨some format, false⟩ lines

/-- Lines that carry whole messages never reach the fast-packet slots. -/
def NeverCollected (format : InputFormat) (lines : List LineRead) : Prop :=
  format.Whole → ∀ frames, framesIn format lines = .ok frames →
    ∀ header, ∀ e ∈ pushesIn db cfg format header frames, ¬Collected e

/-- Where lines carry whole messages, no message of a fast-packet PGN with eight bytes or less
comes before the first with more. -/
def WideFirst (format : InputFormat) (lines : List LineRead) : Prop :=
  format.Whole → ∀ frames, framesIn format lines = .ok frames → NoEarlyFragment db cfg frames

theorem not_plainMixFast_of_whole {format : InputFormat} (h : format.Whole) :
    format ≠ .plainMixFast := by
  rintro rfl
  exact absurd h (by decide)

variable {format : InputFormat} {lines : List LineRead}

omit [Float64 F] in
theorem neverCollected_iff :
    NeverCollected db cfg format lines ↔ WideFirst db cfg format lines := by
  refine forall_congr' fun hwhole => forall_congr' fun frames => forall_congr' fun _ => ?_
  rw [noEarlyFragment_iff db cfg (not_plainMixFast_of_whole hwhole)]
  refine ⟨fun h => h false, fun h header => ?_⟩
  cases header with
  | true => exact pushesIn_headed_not_collected db cfg format frames
  | false => exact h

theorem sameRecords_of_header (hlines : ∀ l ∈ lines, l.Content)
    (h : decodeLines db cfg ⟨some format, headerImpliesCoalesced (headerLine format)⟩ lines =
      decodeLines db cfg ⟨some format, false⟩ lines) : SameRecords db cfg format lines where
  header := by
    intro l hl
    rw [← h, decodeLines, LineFrameReader.readAll_header format hl]
    rfl
  detected := by
    rintro l rest rfl hdetect
    rw [decodeLines, LineFrameReader.readAll_detected hlines hdetect]
    rfl

theorem SameRecords.headed (h : SameRecords db cfg format lines) :
    decodeLines db cfg ⟨some format, headerImpliesCoalesced (headerLine format)⟩ lines =
      decodeLines db cfg ⟨some format, false⟩ lines := by
  have hl : trimNewlines (headerLine format) = headerLine format := by
    cases format <;> decide
  rw [← h.header ⟨none, headerLine format⟩ hl, decodeLines, decodeLines,
    LineFrameReader.readAll_header format hl]

/-- The two runs over the frames. -/
theorem headed_eq_forced (hlines : ∀ l ∈ lines, l.Content) (hwhole : format.Whole) :
    decodeLines db cfg ⟨some format, headerImpliesCoalesced (headerLine format)⟩ lines =
        decodeLines db cfg ⟨some format, false⟩ lines ↔
      ∀ frames, framesIn format lines = .ok frames →
        decodeLog db .new (pushesIn db cfg format false frames) =
          decodeLog db .new (passed (pushesIn db cfg format false frames)) := by
  rw [show headerImpliesCoalesced (headerLine format) = true from hwhole,
    decodeLines_content db cfg format true hlines, decodeLines_content db cfg format false hlines]
  simp only [passed_pushesIn db cfg (not_plainMixFast_of_whole hwhole)]
  cases framesIn format lines with
  | error e => exact iff_of_true rfl nofun
  | ok frames =>
      constructor
      · rintro h _ ⟨⟩
        exact (Except.ok.inj h).symm
      · intro h
        exact congrArg Except.ok (h frames rfl).symm

theorem sameRecords_of_wideFirst (hlines : ∀ l ∈ lines, l.Content)
    (h : WideFirst db cfg format lines) : SameRecords db cfg format lines := by
  apply sameRecords_of_header db cfg hlines
  by_cases hwhole : format.Whole
  · rw [headed_eq_forced db cfg hlines hwhole]
    intro frames hframes
    have hnone := (noEarlyFragment_iff db cfg (not_plainMixFast_of_whole hwhole) frames).mp
      (h hwhole frames hframes)
    exact decodeLog_eq_passed db hnone
  · rw [Bool.eq_false_iff.mpr hwhole]

theorem wideFirst_of_sameRecords (hdb : FragmentsDecode db) (hlines : ∀ l ∈ lines, l.Content)
    (h : SameRecords db cfg format lines) : WideFirst db cfg format lines := by
  intro hwhole frames hframes
  have hne := not_plainMixFast_of_whole hwhole
  have heq := (headed_eq_forced db cfg hlines hwhole).mp h.headed frames hframes
  rw [noEarlyFragment_iff db cfg hne]
  exact not_collected_of_decodeLog_eq db (pushesIn_decode db cfg hdb hne frames) heq

/-- How the format became known is no matter, and no whole message goes to the slots, where the
wide messages come first; with a database whose fragments decode the records alone differ
elsewhere. -/
theorem known_format_iff (format : InputFormat) (lines : List LineRead)
    (hlines : ∀ l ∈ lines, l.Content) :
    (SameRecords db cfg format lines ∧ NeverCollected db cfg format lines ↔
        WideFirst db cfg format lines) ∧
      (FragmentsDecode db →
        (SameRecords db cfg format lines ↔ WideFirst db cfg format lines)) := by
  refine ⟨⟨fun h => (neverCollected_iff db cfg).mp h.2, fun h => ?_⟩, fun hdb => ?_⟩
  · exact ⟨sameRecords_of_wideFirst db cfg hlines h, (neverCollected_iff db cfg).mpr h⟩
  · exact ⟨wideFirst_of_sameRecords db cfg hdb hlines, sameRecords_of_wideFirst db cfg hlines⟩

end

/-! ## A short message of a fast-packet PGN -/

/-- Seven bytes of a proprietary message as an Actisense line. -/
def shortLine : LineRead := ⟨none, "A000000.000 0FFF7 1FF08 7D990101020304".toList⟩

def wideLine : LineRead := ⟨none, "A000000.000 0FFF7 1FF08 7D9901010203040506".toList⟩

/-- Behind a wide message it is no fragment. -/
theorem known_format_wide :
    SameRecords keyValueDatabase .all .actisenseAscii [wideLine, shortLine] ∧
      NeverCollected keyValueDatabase .all .actisenseAscii [wideLine, shortLine] := by
  have hlines : ∀ l ∈ [wideLine, shortLine], l.Content := by
    intro l hl
    rcases List.mem_cons.mp hl with rfl | hl
    · exact ⟨by decide, by decide⟩
    · rw [List.mem_singleton.mp hl]
      exact ⟨by decide, by decide⟩
  refine (known_format_iff keyValueDatabase .all .actisenseAscii _ hlines).1.mpr ?_
  intro _ frames hframes
  have hwide : (framesIn .actisenseAscii [wideLine, shortLine]).map
      (fun frames => decide (NoEarlyFragment keyValueDatabase .all frames)) = .ok true := by
    decide +kernel
  rw [hframes] at hwide
  exact of_decide_eq_true (Except.ok.inj hwide)

/-- Alone it is one record under a header, and none without. -/
theorem not_known_format :
    ¬SameRecords keyValueDatabase .all .actisenseAscii [shortLine] := by
  intro h
  have hheader := h.header ⟨none, headerLine .actisenseAscii⟩ (by decide)
  have hlength := congrArg (Except.map List.length) hheader
  revert hlength
  decide +kernel

end Canboat
