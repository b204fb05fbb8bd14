import Canboat.Format.Ngt1
import Canboat.Format.PlainWriter
import Canboat.Io.KnownFormat
import Canboat.Reassembly.Retime

/-!
# Converting a capture

`convert --to plain`: the frames of a capture written as PLAIN lines, without a `# format=`
header. What the lines are to be taken as is then up to a reader of them.
-/

namespace Canboat

open Reassembler Plain

variable {F : Type} [Float64 F]

/-! ## EBL captures -/

def N2K_MSG_RECEIVED : UInt8 := 0x93

/-- The frame of a received message. -/
def Ngt1.NgtMessage.toRawFrame (m : Ngt1.NgtMessage) : Option RawFrame :=
  if m.command ≠ N2K_MSG_RECEIVED then none
  else if m.payload.length < 11 then none
  else
    let dlen := (m.payload.getD 10 0).toNat
    if 11 + dlen > m.payload.length then none
    else
      some
        { timestamp := some (LittleEndian.decode ((m.payload.drop 6).take 4)).repr
          prio := m.payload.getD 0 0
          pgn := UInt32.ofNat (LittleEndian.decode ((m.payload.drop 1).take 3))
          src := m.payload.getD 5 0
          dst := m.payload.getD 4 0
          data := (m.payload.take (11 + dlen)).drop 11 }

/-- An event in the loop of `read_frame`; a time that is pending goes to the next frame. -/
def eblStep (pending : Option UInt64) : Ngt1.NgtEvent → Option UInt64 × Option RawFrame
  | .header (.timestamp ms) => (some ms, none)
  | .header (.unknown _ _) => (pending, none)
  | .error _ => (pending, none)
  | .message m =>
      match m.toRawFrame with
      | none => (pending, none)
      | some f =>
          match pending with
          | none => (none, some f)
          | some ms => (none, some { f with timestamp := some (formatIsoMs ms) })

def eblFrames (bytes : List UInt8) : List RawFrame :=
  records eblStep none (Ngt1.Ngt1Decoder.withEbl.pushBytes bytes).2

/-! ## Lines and frames -/

/-- The lines of a text, each with its newline. -/
def linesFrom : List Char → List Char → List (List Char)
  | line, [] => if line = [] then [] else [line]
  | line, c :: text =>
      if c = '\n' then (line ++ [c]) :: linesFrom [] text else linesFrom (line ++ [c]) text

def linesOf (text : List Char) : List (List Char) := linesFrom [] text

/-- The frames of a reader as PLAIN lines. -/
def copied (frames : List RawFrame) : List Char := frames.flatMap fun f => writeLine f ++ ['\n']

/-- The lines of a text as a reader comes to them. -/
def reread (clocks : ℕ → Option UInt64) (text : List Char) : List LineRead :=
  (linesOf text).mapIdx fun i line => ⟨clocks i, line⟩

/-- A capture as `convert` is given it. -/
inductive Capture
  | lines (forced : Option InputFormat) (input : List LineRead)
  | ebl (bytes : List UInt8)

namespace Capture

def frames : Capture → Except Fault (List RawFrame)
  | .lines forced input =>
      (LineFrameReader.readAll ⟨forced, false⟩ input).map fun out => out.2.map (·.frame)
  | .ebl bytes => .ok (eblFrames bytes)

/-- The records of the capture. -/
def decoded (db : PgnDatabase F) : Capture → Except Fault (List (DecodedPgn F))
  | .lines forced input => decodeLines db .all ⟨forced, false⟩ input
  | .ebl bytes => .ok ((eblFrames bytes).filterMap db.decode?)

/-- The records of the PLAIN lines that it is converted to. -/
def converted (db : PgnDatabase F) (clocks : ℕ → Option UInt64) (c : Capture) :
    Except Fault (List (DecodedPgn F)) :=
  c.frames.bind fun frames => decodeLines db .all ⟨none, false⟩ (reread clocks (copied frames))

end Capture

/-- `normalize_timestamp`. -/
def normalized (ts : String) : String := String.ofList (normalizeTimestamp ts.toList)

/-- A record with its timestamp in canonical form. -/
def DecodedPgn.stamped (d : DecodedPgn F) : DecodedPgn F :=
  { d with timestamp := d.timestamp.map normalized }

/-- The capture and what it is converted to have the same records, but for the spelling of
timestamps. -/
def Capture.Kept (db : PgnDatabase F) (clocks : ℕ → Option UInt64) (c : Capture) : Prop :=
  (c.converted db clocks).map (List.map DecodedPgn.stamped) =
    (c.decoded db).map (List.map DecodedPgn.stamped)

/-! ## The lines come back as frames -/

theorem linesFrom_append {line s : List Char} (hs : '\n' ∉ s) (text : List Char) :
    linesFrom line (s ++ '\n' :: text) = (line ++ s ++ ['\n']) :: linesFrom [] text := by
  induction s generalizing line with
  | nil => rw [List.nil_append, linesFrom, if_pos rfl, List.append_nil]
  | cons c s ih =>
      rw [List.mem_cons, not_or] at hs
      rw [List.cons_append, linesFrom, if_neg (Ne.symm hs.1), ih hs.2, ← List.append_cons]

theorem linesOf_copied {frames : List RawFrame} (h : ∀ f ∈ frames, Readable f) :
    linesOf (copied frames) = frames.map fun f => writeLine f ++ ['\n'] := by
  induction frames with
  | nil => rfl
  | cons f frames ih =>
      rw [List.forall_mem_cons] at h
      rw [copied, List.flatMap_cons, linesOf, List.append_assoc, List.singleton_append,
        linesFrom_append (newline_not_mem_writeLine h.1.newline), List.nil_append, List.map_cons]
      exact congrArg _ (ih h.2)

theorem trimNewlines_newline (s : List Char) : trimNewlines (s ++ ['\n']) = trimNewlines s := by
  rw [trimNewlines, trimEnd, List.reverse_append]
  rfl

/-- The written lines as a reader comes to them. -/
def Written (frames : List RawFrame) (lines : List LineRead) : Prop :=
  lines.map LineRead.text = frames.map fun f => writeLine f ++ ['\n']

theorem written_reread (clocks : ℕ → Option UInt64) {frames : List RawFrame}
    (h : ∀ f ∈ frames, Readable f) : Written frames (reread clocks (copied frames)) := by
  rw [Written, reread, linesOf_copied h]
  apply List.ext_getElem?
  intro i
  rw [List.getElem?_map, List.getElem?_mapIdx, Option.map_map]
  exact Option.map_id'

theorem Written.content {frames : List RawFrame} {lines : List LineRead}
    (hlines : Written frames lines) (h : ∀ f ∈ frames, Readable f) : ∀ l ∈ lines, l.Content := by
  intro l hl
  have hmem : l.text ∈ lines.map LineRead.text := List.mem_map_of_mem hl
  rw [hlines, List.mem_map] at hmem
  obtain ⟨f, hf, htext⟩ := hmem
  rw [LineRead.Content, ← htext, trimNewlines_newline, trimNewlines_writeLine]
  exact ⟨writeLine_ne_nil f, head_writeLine (h f hf).comment⟩

/-- In the PLAIN format they are the frames, with their timestamps in canonical form. -/
theorem Written.framesIn {frames : List RawFrame} {lines : List LineRead}
    (hlines : Written frames lines) (h : ∀ f ∈ frames, Readable f) :
    framesIn .plain lines = .ok (frames.map stamp) := by
  induction frames generalizing lines with
  | nil =>
      rw [List.map_eq_nil_iff.mp hlines]
      rfl
  | cons f frames ih =>
      rw [List.forall_mem_cons] at h
      obtain ⟨l, lines, rfl, htext, hrest⟩ := List.map_eq_cons_iff.mp hlines
      have hparse : (parseWith l.clock .plain (trimNewlines l.text)).run =
          .ok (.ok (some (stamp f))) := by
        rw [htext, trimNewlines_newline, trimNewlines_writeLine, parseWith,
          parseLine_writeLine h.1]
        rfl
      rw [Canboat.framesIn, hparse, ih hrest h.2]
      rfl

theorem Written.readAll {frames : List RawFrame} {lines : List LineRead}
    (hlines : Written frames lines) (h : ∀ f ∈ frames, Readable f)
    (hplain : ∀ f ∈ frames.head?, LineFrameReader.formatOf none (writeLine f) = .plain) :
    (LineFrameReader.readAll ⟨none, false⟩ lines).map Prod.snd =
      .ok (frames.map fun f => ⟨stamp f, false, some .plain⟩) := by
  cases frames with
  | nil =>
      rw [List.map_eq_nil_iff.mp hlines]
      rfl
  | cons f frames =>
      have hcontent := hlines.content h
      have hframes := hlines.framesIn h
      obtain ⟨l, rest, rfl, htext, -⟩ := List.map_eq_cons_iff.mp hlines
      have hformat : LineFrameReader.formatOf none (trimNewlines l.text) = .plain := by
        rw [htext, trimNewlines_newline, trimNewlines_writeLine]
        exact hplain f rfl
      rw [LineFrameReader.readAll_first (hcontent l List.mem_cons_self) hformat,
        LineFrameReader.readAll_content .plain false hcontent, hframes]
      exact congrArg Except.ok List.map_map

/-! ## Timestamps do not matter -/

/-- What the written lines are handed to the reassembler as, with the timestamps as they were. -/
def convertedLog (db : PgnDatabase F) (frames : List RawFrame) : Log :=
  pushesOf db .all false (frames.map fun f => ⟨f, false, some .plain⟩)

section

variable (db : PgnDatabase F)

theorem decode?_stamp (f : RawFrame) :
    db.decode? (stamp f) = (db.decode? f).map DecodedPgn.stamped := by
  have hpick : db.pickVariant (stamp f) = db.pickVariant f := rfl
  rw [PgnDatabase.decode?, PgnDatabase.decode?, PgnDatabase.decode, PgnDatabase.decode, hpick]
  cases db.pickVariant f with
  | none => rfl
  | some info => rfl

theorem stamped_decode? (f : RawFrame) :
    (db.decode? (stamp f)).map DecodedPgn.stamped = (db.decode? f).map DecodedPgn.stamped := by
  rw [← decode?_stamp, stamp_stamp, decode?_stamp]

/-- Records and frames but for the spelling of timestamps. -/
def RecordView.stamped : RecordView db (DecodedPgn F) RawFrame where
  record := DecodedPgn.stamped
  frame := stamp
  congr := by
    intro f g h
    rw [← decode?_stamp, ← decode?_stamp, h]
  inj := by
    intro f g d d' hf hg h
    have hf' : db.decode? (stamp f) = some d.stamped := by rw [decode?_stamp, hf, Option.map_some]
    have hg' : db.decode? (stamp g) = some d.stamped := by
      rw [decode?_stamp, hg, Option.map_some, h]
    exact frame_of_decode hf' hg'

omit [Float64 F] in
theorem pushesOf_stamp (frames : List RawFrame) (coalesced : Bool) :
    pushesOf db .all coalesced (frames.map fun f => ⟨stamp f, false, some .plain⟩) =
      (pushesOf db .all coalesced (frames.map fun f => ⟨f, false, some .plain⟩)).map
        fun e => (stamp e.1, e.2) := by
  induction frames generalizing coalesced with
  | nil => rfl
  | cons f frames ih =>
      have hadmits : ∀ f, Config.all.admits f = true := fun f => rfl
      rw [List.map_cons, List.map_cons, pushesOf, pushesOf]
      dsimp only
      rw [if_pos (hadmits _), if_pos (hadmits _), List.map_cons, ih]
      rfl

theorem decodeLog_stamp (log : Log) :
    (decodeLog db .new (log.map fun e => (stamp e.1, e.2))).map DecodedPgn.stamped =
      (decodeLog db .new log).map DecodedPgn.stamped := by
  have hpush := pushAll_retimed normalized .new log
  rw [new_retimed] at hpush
  have hlog : (log.map fun e => (stamp e.1, e.2)) =
      log.map fun e => (e.1.retimed normalized, e.2) := rfl
  rw [decodeLog, decodeLog, hlog, hpush, List.filterMap_map, List.map_filterMap, List.map_filterMap]
  refine congrArg (fun g => List.filterMap g _) (funext fun out => ?_)
  cases out with
  | PassThrough f => exact stamped_decode? db f
  | Complete f => exact stamped_decode? db f
  | Partial => rfl
  | Error e => rfl

end

/-! ## Where two runs part -/

/-- What two lists begin with alike, and what is left of each. -/
def parting {α : Type} [DecidableEq α] : List α → List α → List α × List α × List α
  | a :: l, b :: l' =>
      if a = b then
        let (pre, left, right) := parting l l'
        (a :: pre, left, right)
      else ([], a :: l, b :: l')
  | l, l' => ([], l, l')

theorem parting_append {α : Type} [DecidableEq α] (l l' : List α) :
    l = (parting l l').1 ++ (parting l l').2.1 ∧ l' = (parting l l').1 ++ (parting l l').2.2 := by
  induction l generalizing l' with
  | nil => exact ⟨rfl, rfl⟩
  | cons a l ih =>
      cases l' with
      | nil => exact ⟨rfl, rfl⟩
      | cons b l' =>
          rw [parting]
          split_ifs with hab
          · subst hab
            exact ⟨congrArg (a :: ·) (ih l').1, congrArg (a :: ·) (ih l').2⟩
          · exact ⟨rfl, rfl⟩

theorem parting_shared {α : Type} [DecidableEq α] (pre l l' : List α) :
    (parting (pre ++ l) (pre ++ l')).2 = (parting l l').2 := by
  induction pre with
  | nil => rfl
  | cons a pre ih =>
      rw [List.cons_append, List.cons_append, parting, if_pos rfl]
      exact ih

/-- One of the logs is the other with its fragments passed on. -/
def OneCollects (l l' : Log) : Prop := l' = passed l ∨ l = passed l'

theorem parting_passed (log : Log) :
    (parting log (passed log)).2.2 = passed (parting log (passed log)).2.1 := by
  induction log with
  | nil => rfl
  | cons e log ih =>
      rw [passed_cons, parting]
      split_ifs
      · exact ih
      · rfl

theorem passed_parting (log : Log) :
    (parting (passed log) log).2.1 = passed (parting (passed log) log).2.2 := by
  induction log with
  | nil => rfl
  | cons e log ih =>
      rw [passed_cons, parting]
      split_ifs
      · exact ih
      · rfl

theorem OneCollects.parting {l l' : Log} (h : OneCollects l l') (pre : Log) :
    OneCollects (parting (pre ++ l) (pre ++ l')).2.1 (parting (pre ++ l) (pre ++ l')).2.2 := by
  rw [parting_shared]
  rcases h with rfl | rfl
  · exact Or.inl (parting_passed l)
  · exact Or.inr (passed_parting l')

section

variable (db : PgnDatabase F) (cfg : Config)

omit [Float64 F] in
theorem passed_pushesOf (coalesced : Bool) (input : List ReadFrame) :
    passed (pushesOf db cfg coalesced input) = pushesOf db cfg true input := by
  induction input generalizing coalesced with
  | nil => rfl
  | cons r input ih =>
      rw [pushesOf, pushesOf]
      dsimp only
      simp only [Bool.true_or, if_true]
      by_cases hadmits : cfg.admits r.frame = true
      · rw [if_pos hadmits, if_pos hadmits, passed_cons, ih]
      · rw [if_neg hadmits, if_neg hadmits, ih]

omit [Float64 F] in
/-- Behind the lock-in the frames alone count. -/
theorem pushesOf_true_congr {input input' : List ReadFrame}
    (h : input.map ReadFrame.frame = input'.map ReadFrame.frame) :
    pushesOf db cfg true input = pushesOf db cfg true input' := by
  induction input generalizing input' with
  | nil => rw [List.map_eq_nil_iff.mp h.symm]
  | cons r input ih =>
      obtain ⟨r', input', rfl, hr, hrest⟩ := List.map_eq_cons_iff.mp h.symm
      rw [pushesOf, pushesOf]
      dsimp only
      simp only [Bool.true_or]
      rw [hr, ih hrest.symm]

omit [Float64 F] in
/-- The lock-in comes once in each run, and between the two one run collects. -/
theorem pushesOf_part (coalesced coalesced' : Bool) {input input' : List ReadFrame}
    (h : input.map ReadFrame.frame = input'.map ReadFrame.frame) :
    ∃ pre l l', pushesOf db .all coalesced input = pre ++ l ∧
      pushesOf db .all coalesced' input' = pre ++ l' ∧ OneCollects l l' := by
  induction input generalizing input' coalesced coalesced' with
  | nil =>
      rw [List.map_eq_nil_iff.mp h.symm]
      exact ⟨[], [], [], rfl, rfl, Or.inl rfl⟩
  | cons r input ih =>
      obtain ⟨r', input', rfl, hr, hrest⟩ := List.map_eq_cons_iff.mp h.symm
      have hcongr := pushesOf_true_congr db .all hrest
      have hadmits : Config.all.admits r.frame = true := rfl
      rw [pushesOf, pushesOf]
      dsimp only
      rw [hr, if_pos hadmits, if_pos hadmits]
      generalize (coalesced || r.headerCoalesced || _) = direct
      generalize (coalesced' || r'.headerCoalesced || _) = copy
      obtain ⟨pre, l, l', hl, hl', hone⟩ := ih direct copy hrest.symm
      cases direct with
      | true =>
          cases copy with
          | true => exact ⟨_ :: pre, l, l', congrArg _ hl, congrArg _ hl', hone⟩
          | false =>
              refine ⟨[], _, _, rfl, rfl, Or.inr ?_⟩
              rw [passed_cons, passed_pushesOf, hcongr]
              rfl
      | false =>
          cases copy with
          | true =>
              refine ⟨[], _, _, rfl, rfl, Or.inl ?_⟩
              rw [passed_cons, passed_pushesOf, hcongr]
              rfl
          | false => exact ⟨_ :: pre, l, l', congrArg _ hl, congrArg _ hl', hone⟩

end

/-- Where the runs part, no frame that one of them takes for a fragment is lost: each completes
to itself, but for the spelling of its timestamp. -/
def SameFragments (direct copy : Log) : Prop :=
  HandedOn Collected stamp (new.pushAll (parting direct copy).1).1 (parting direct copy).2.1 ∧
    HandedOn Collected stamp (new.pushAll (parting direct copy).1).1 (parting direct copy).2.2

theorem handedOn_passed (q : RawFrame → RawFrame) (r : Reassembler) (log : Log) :
    HandedOn Collected q r (passed log) := by
  induction log generalizing r with
  | nil => trivial
  | cons e log ih => exact ⟨fun hc => absurd hc (not_collected_other e.1), ih _⟩

section

variable (db : PgnDatabase F)

omit [Float64 F] in
theorem mem_pushesOf {cfg : Config} {coalesced : Bool} {input : List ReadFrame}
    {e : RawFrame × FramePacketType} (he : e ∈ pushesOf db cfg coalesced input) :
    e.2 = .Other ∨ e.2 = db.framePacketType e.1.pgn := by
  induction input generalizing coalesced with
  | nil => cases he
  | cons r input ih =>
      rw [pushesOf] at he
      dsimp only at he
      split_ifs at he with hadmits hcoalesced
      · rcases List.mem_cons.mp he with rfl | he
        · exact Or.inl rfl
        · exact ih he
      · rcases List.mem_cons.mp he with rfl | he
        · exact Or.inr rfl
        · exact ih he
      · exact ih he

theorem decode_of_mem_pushesOf (hdb : FragmentsDecode db) {cfg : Config} {coalesced : Bool}
    {input : List ReadFrame} : ∀ e ∈ pushesOf db cfg coalesced input, Collected e →
      (db.decode? e.1).isSome := by
  intro e he hc
  rcases mem_pushesOf db he with hother | hpgn
  · exact absurd (hother.symm.trans hc.2.2) (by decide)
  · exact hdb e.1 ⟨hc.1, hc.2.1, hpgn.symm.trans hc.2.2⟩

/-- Collected or passed on. -/
theorem decodeLog_passed_iff {r : Reassembler} (hr : r.WF) (log : Log) :
    (HandedOn Collected stamp r log →
      (decodeLog db r log).map DecodedPgn.stamped =
        (decodeLog db r (passed log)).map DecodedPgn.stamped) ∧
    ((∀ e ∈ log, Collected e → (db.decode? e.1).isSome) →
      (decodeLog db r log).map DecodedPgn.stamped =
        (decodeLog db r (passed log)).map DecodedPgn.stamped →
      HandedOn Collected stamp r log) := by
  rw [decodeLog_eq, decodeLog_eq, messagesOf_passed (.refl r) hr hr]
  exact ⟨fun h => records_eq_of_handedOn_view (RecordView.stamped db) Collected h,
    fun hlog h => handedOn_of_records_eq_view (RecordView.stamped db) Collected hlog h⟩

/-- Two runs of which one collects where the other passes on. -/
theorem sameFragments_iff {direct copy : Log}
    (hpart : ∃ pre l l', direct = pre ++ l ∧ copy = pre ++ l' ∧ OneCollects l l') :
    (SameFragments direct copy →
      (decodeLog db .new copy).map DecodedPgn.stamped =
        (decodeLog db .new direct).map DecodedPgn.stamped) ∧
    ((∀ e ∈ direct ++ copy, Collected e → (db.decode? e.1).isSome) →
      (decodeLog db .new copy).map DecodedPgn.stamped =
        (decodeLog db .new direct).map DecodedPgn.stamped →
      SameFragments direct copy) := by
  obtain ⟨pre, l, l', rfl, rfl, hone⟩ := hpart
  have hparting := hone.parting pre
  obtain ⟨hdirect, hcopy⟩ := parting_append (pre ++ l) (pre ++ l')
  rw [SameFragments]
  generalize parting (pre ++ l) (pre ++ l') = p at *
  obtain ⟨shared, x, x'⟩ := p
  dsimp only at *
  rw [hdirect, hcopy]
  have hwf : (new.pushAll shared).1.WF := pushAll_wf new_wf shared
  generalize hr : (new.pushAll shared).1 = r at *
  rw [decodeLog_append, decodeLog_append, hr, List.map_append, List.map_append,
    List.append_cancel_left_eq]
  rcases hparting with rfl | rfl
  · obtain ⟨hto, hof⟩ := decodeLog_passed_iff db hwf x
    refine ⟨fun h => (hto h.1).symm, fun hlog h => ⟨hof ?_ h.symm, handedOn_passed stamp r x⟩⟩
    intro e he
    exact hlog e (List.mem_append_left _ (List.mem_append_right _ he))
  · obtain ⟨hto, hof⟩ := decodeLog_passed_iff db hwf x'
    refine ⟨fun h => hto h.2, fun hlog h => ⟨handedOn_passed stamp r x', hof ?_ h⟩⟩
    intro e he
    exact hlog e (List.mem_append_right _ (List.mem_append_right _ he))

/-! ## EBL captures are decoded without a reassembler -/

/-- What the reassembler does not pass on. -/
def Swallowed (e : RawFrame × FramePacketType) : Prop := Collected e ∨ e.1.IsTp

instance : DecidablePred Swallowed := fun e =>
  inferInstanceAs (Decidable (Collected e ∨ e.1.IsTp))

omit [Float64 F] in
theorem overlaid_swallowed (r : Reassembler) (log : Log) :
    overlaid Swallowed r log = log.map fun e => some e.1 := by
  induction log generalizing r with
  | nil => rfl
  | cons e log ih =>
      rw [overlaid, ih, List.map_cons]
      congr 1
      split_ifs with he
      · rfl
      · obtain ⟨hcollected, htp⟩ := not_or.mp he
        rw [push_other hcollected, push_of_not_tp htp]
        rfl

omit [Float64 F] in
/-- The log of a run without filters has all frames. -/
theorem pushesOf_frames (coalesced : Bool) (input : List ReadFrame) :
    (pushesOf db .all coalesced input).map Prod.fst = input.map ReadFrame.frame := by
  induction input generalizing coalesced with
  | nil => rfl
  | cons r input ih =>
      have hadmits : Config.all.admits r.frame = true := rfl
      rw [pushesOf]
      dsimp only
      rw [if_pos hadmits, List.map_cons, List.map_cons, ih]

omit [Float64 F] in
theorem convertedLog_frames (frames : List RawFrame) :
    (convertedLog db frames).map Prod.fst = frames := by
  rw [convertedLog, pushesOf_frames, List.map_map]
  exact List.map_id frames

/-- With the frames as they are the records are those of the frames. -/
theorem recordsOf_swallowed (r : Reassembler) (log : Log) :
    recordsOf db (overlaid Swallowed r log) = (log.map Prod.fst).filterMap db.decode? := by
  rw [overlaid_swallowed, recordsOf, List.filterMap_map, List.filterMap_map]
  rfl

/-- Whatever the reassembler may swallow decodes on its own. -/
def SwallowedDecode : Prop := FragmentsDecode db ∧ ∀ f, f.IsTp → (db.decode? f).isSome

theorem ebl_iff (frames : List RawFrame) :
    (HandedOn Swallowed stamp .new (convertedLog db frames) →
      (decodeLog db .new (convertedLog db frames)).map DecodedPgn.stamped =
        (frames.filterMap db.decode?).map DecodedPgn.stamped) ∧
    (SwallowedDecode db →
      (decodeLog db .new (convertedLog db frames)).map DecodedPgn.stamped =
        (frames.filterMap db.decode?).map DecodedPgn.stamped →
      HandedOn Swallowed stamp .new (convertedLog db frames)) := by
  have hframes := recordsOf_swallowed db .new (convertedLog db frames)
  rw [convertedLog_frames] at hframes
  rw [decodeLog_eq, ← hframes]
  refine ⟨fun h => records_eq_of_handedOn_view (RecordView.stamped db) Swallowed h,
    fun hdb h => handedOn_of_records_eq_view (RecordView.stamped db) Swallowed ?_ h⟩
  rintro e he (hc | htp)
  · exact decode_of_mem_pushesOf db hdb.1 e he hc
  · exact hdb.2 e.1 htp

/-! ## When a capture is kept -/

/-- The lines that the frames are written as are PLAIN lines of these frames. -/
structure PlainAgain (frames : List RawFrame) : Prop where
  readable : ∀ f ∈ frames, Readable f
  plain : ∀ f ∈ frames.head?, LineFrameReader.formatOf none (writeLine f) = .plain

/-- The reader of the lines finds the PLAIN format and the frames. -/
def Capture.PlainAgain (c : Capture) : Prop :=
  ∀ frames, c.frames = .ok frames → Canboat.PlainAgain frames

/-- No message is lost to the reassembler in just one of the two runs. -/
def Capture.SameMessages : Capture → Prop
  | .lines forced input => ∀ r out, LineFrameReader.readAll ⟨forced, false⟩ input = .ok (r, out) →
      SameFragments (pushesOf db .all false out) (convertedLog db (out.map (·.frame)))
  | .ebl bytes => HandedOn Swallowed stamp .new (convertedLog db (eblFrames bytes))

theorem decodeLines_copied {frames : List RawFrame} (h : PlainAgain frames)
    (clocks : ℕ → Option UInt64) :
    (decodeLines db .all ⟨none, false⟩ (reread clocks (copied frames))).map
        (List.map DecodedPgn.stamped) =
      .ok ((decodeLog db .new (convertedLog db frames)).map DecodedPgn.stamped) := by
  have hread := (written_reread clocks h.readable).readAll h.readable h.plain
  rw [decodeLines]
  generalize LineFrameReader.readAll ⟨none, false⟩ (reread clocks (copied frames)) = res at hread ⊢
  cases res with
  | error e => cases hread
  | ok out =>
      have hsnd : out.2 = _ := Except.ok.inj hread
      show Except.ok ((decodeStream db .all out.2).map DecodedPgn.stamped) = _
      rw [hsnd, decodeStream_eq_decodeLog, pushesOf_stamp, decodeLog_stamp, convertedLog]

/-- Both runs come to their records. -/
theorem kept_iff {clocks : ℕ → Option UInt64} {c : Capture} {frames : List RawFrame}
    (hframes : c.frames = .ok frames) (hplain : PlainAgain frames) {direct : List (DecodedPgn F)}
    (hdirect : c.decoded db = .ok direct) :
    c.Kept db clocks ↔
      (decodeLog db .new (convertedLog db frames)).map DecodedPgn.stamped =
        direct.map DecodedPgn.stamped := by
  have hcopied := decodeLines_copied db hplain clocks
  rw [Capture.Kept, Capture.converted, hframes, hdirect]
  show (decodeLines db .all ⟨none, false⟩ _).map _ = .ok _ ↔ _
  rw [hcopied, Except.ok.injEq]

/-- Where the lines are read as they are meant, the capture is kept where no message is lost in
one of the runs, and nowhere else with a database that decodes such messages. -/
theorem convert_kept_iff (clocks : ℕ → Option UInt64) (c : Capture) (hplain : c.PlainAgain) :
    (c.SameMessages db → c.Kept db clocks) ∧
      (SwallowedDecode db → (c.Kept db clocks ↔ c.SameMessages db)) := by
  cases c with
  | ebl bytes =>
      obtain ⟨hto, hof⟩ := ebl_iff db (eblFrames bytes)
      rw [kept_iff db rfl (hplain _ rfl) rfl, Capture.SameMessages]
      exact ⟨hto, fun hdb => ⟨hof hdb, hto⟩⟩
  | lines forced input =>
      cases hread : LineFrameReader.readAll ⟨forced, false⟩ input with
      | error e =>
          -- neither run comes to a record
          have hkept : Capture.Kept db clocks (.lines forced input) := by
            rw [Capture.Kept, Capture.converted, Capture.frames, Capture.decoded, decodeLines, hread]
            rfl
          have hsame : Capture.SameMessages db (.lines forced input) := by
            intro r out hout
            rw [hread] at hout
            cases hout
          exact ⟨fun _ => hkept, fun _ => iff_of_true hkept hsame⟩
      | ok res =>
          obtain ⟨r, out⟩ := res
          have hframes : Capture.frames (.lines forced input) = .ok (out.map (·.frame)) := by
            rw [Capture.frames, hread]
            rfl
          have hdirect : Capture.decoded db (.lines forced input) =
              .ok (decodeLog db .new (pushesOf db .all false out)) := by
            rw [Capture.decoded, decodeLines, hread, ← decodeStream_eq_decodeLog]
            rfl
          have hsame : Capture.SameMessages db (.lines forced input) ↔
              SameFragments (pushesOf db .all false out) (convertedLog db (out.map (·.frame))) := by
            rw [Capture.SameMessages, hread]
            constructor
            · intro h
              exact h r out rfl
            · rintro h _ _ ⟨⟩
              exact h
          have hcopy : out.map ReadFrame.frame = ((out.map (·.frame)).map fun f =>
              (⟨f, false, some .plain⟩ : ReadFrame)).map ReadFrame.frame := by
            rw [List.map_map]
            exact (List.map_id _).symm
          have hpart := pushesOf_part db false false hcopy
          obtain ⟨hto, hof⟩ := sameFragments_iff db hpart
          rw [kept_iff db hframes (hplain _ hframes) hdirect, hsame]
          refine ⟨hto, fun hdb => ⟨hof ?_, hto⟩⟩
          intro e he
          rcases List.mem_append.mp he with he | he
          · exact decode_of_mem_pushesOf db hdb.1 e he
          · exact decode_of_mem_pushesOf db hdb.1 e he

end

/-! ## A header that is not written again -/

instance : DecidablePred Readable := fun f =>
  decidable_of_iff
    (f.data.length ≤ RAWFRAME_MAX_SIZE ∧ (f.timestamp ≠ none → stampText f ≠ []) ∧
      ',' ∉ stampText f ∧ '\n' ∉ stampText f ∧ (stampText f).head? ≠ some '#')
    ⟨fun ⟨length, timestamp, comma, newline, comment⟩ =>
        ⟨length, timestamp, comma, newline, comment⟩,
      fun h => ⟨h.length, h.timestamp, h.comma, h.newline, h.comment⟩⟩

instance : DecidablePred PlainAgain := fun frames =>
  decidable_of_iff
    ((∀ f ∈ frames, Readable f) ∧
      ∀ f ∈ frames.head?, LineFrameReader.formatOf none (writeLine f) = .plain)
    ⟨fun ⟨readable, plain⟩ => ⟨readable, plain⟩, fun h => ⟨h.readable, h.plain⟩⟩

def fastHeader : LineRead := ⟨none, "# format=FAST".toList⟩

/-- Seven bytes of a proprietary message as a PLAIN line. -/
def shortMessage : LineRead :=
  ⟨none, "2024-01-01T00:00:00.000Z,7,130824,15,255,7,7d,99,01,01,02,03,04".toList⟩

def wideMessage : LineRead :=
  ⟨none, "2024-01-01-00:00:00.000,7,130824,15,255,9,7d,99,01,01,02,03,04,05,06".toList⟩

/-- Behind a wide message the lines that are written need no header. -/
theorem convert_kept_wide :
    Capture.Kept keyValueDatabase (fun _ => none)
      (.lines none [fastHeader, wideMessage, shortMessage]) := by
  refine (convert_kept_iff keyValueDatabase (fun _ => none) _ ?_).1 ?_
  · intro frames hframes
    have hplain : (Capture.frames (.lines none [fastHeader, wideMessage, shortMessage])).map
        (fun frames => decide (PlainAgain frames)) = .ok true := by
      decide +kernel
    rw [hframes] at hplain
    exact of_decide_eq_true (Except.ok.inj hplain)
  · intro r out hout
    have hsame : (LineFrameReader.readAll ⟨none, false⟩
        [fastHeader, wideMessage, shortMessage]).map (fun out =>
          parting (pushesOf keyValueDatabase .all false out.2)
            (convertedLog keyValueDatabase (out.2.map (·.frame))) |>.2) = .ok ([], []) := by
      decide +kernel
    rw [hout] at hsame
    have hrest := Except.ok.inj hsame
    dsimp only at hrest
    rw [SameFragments, hrest]
    exact ⟨trivial, trivial⟩

/-- Alone the message is one record of the capture, and none of the line it is converted to. -/
theorem not_convert_kept :
    ¬Capture.Kept keyValueDatabase (fun _ => none) (.lines none [fastHeader, shortMessage]) := by
  intro h
  have hlength := congrArg (Except.map List.length) h
  revert hlength
  decide +kernel

end Canboat
