import Canboat.Core.Utf8
import Canboat.Io.Ikonvert
import Canboat.Lib.LineReader

/-!
# The decoders of lines

What a device that speaks in lines sends is read in pieces, and each piece becomes text by itself.
The events are those of the stream as long as no piece ends inside a sequence of UTF-8.
-/

namespace Canboat

open Checked

/-! ## A pipeline as a device -/

namespace CanboatCsv

open Ikonvert (DeviceEvent)

structure Decoder where
  /-- The line that has not ended. -/
  acc : List Char

namespace Decoder

def new : Decoder where
  acc := []

/-- One turn of the loop of `decode`. -/
def decodeLine (line : List Char) : Except Fault (List DeviceEvent) :=
  let trimmed := trimNewlines line
  if trimmed = [] ∨ trimmed.head? = some '#' then .ok []
  -- sentences of a gateway that some pipelines leak
  else if trimmed.head? = some '$' ∨ trimmed.head? = some '!' then .ok []
  else do
    match ← (Plain.parseLine trimmed).run with
    | .ok f => .ok [.frame f]
    | .error .empty => .ok []
    | .error e => .ok [.error e]

def decodeLines : List (List Char) → Except Fault (List DeviceEvent)
  | [] => .ok []
  | line :: lines => do
      let events ← decodeLine line
      let later ← decodeLines lines
      .ok (events ++ later)

def decode (d : Decoder) (bytes : List UInt8) : Except Fault (Decoder × List DeviceEvent) := do
  let (lines, rest) := Ikonvert.Decoder.completeLines (d.acc ++ fromUtf8Lossy bytes)
  let events ← decodeLines lines
  .ok ({ acc := rest }, events)

end Decoder

/-- The events of all reads. -/
def events (reads : List (List UInt8)) : Except Fault (List DeviceEvent) :=
  (answers Decoder.decode Decoder.new reads).map List.flatten

end CanboatCsv

/-! ## Lines -/

namespace Ikonvert

/-- The bytes of a read, and the host's time when they came. -/
structure Read where
  now : String
  bytes : List UInt8

/-- The event, but for the host's time. -/
def DeviceEvent.untimed : DeviceEvent → DeviceEvent
  | .frame f => .frame { f with timestamp := none }
  | .sendBytes bytes => .sendBytes bytes
  | .error e => .error e

/-- The events of all reads, but for the host's times. -/
def events (config : Config) (reads : List Read) : Except Fault (List DeviceEvent) :=
  (answers (fun d r => d.decode r.now r.bytes) (Decoder.new config) reads).map
    fun events => events.flatten.map DeviceEvent.untimed

namespace Decoder

theorem completeLines_append (s t : List Char) :
    completeLines (s ++ t) =
      ((completeLines s).1 ++ (completeLines ((completeLines s).2 ++ t)).1,
        (completeLines ((completeLines s).2 ++ t)).2) := by
  induction s with
  | nil => rfl
  | cons c s ih =>
      rw [List.cons_append, completeLines, ih, completeLines]
      generalize completeLines s = parts
      obtain ⟨lines, rest⟩ := parts
      dsimp only
      by_cases hc : c = '\n'
      · rw [if_pos hc, if_pos hc]
        rfl
      · rw [if_neg hc, if_neg hc]
        cases lines with
        | nil =>
            dsimp only
            rw [List.cons_append, completeLines]
            dsimp only
            rw [if_neg hc]
            rfl
        | cons line lines => rfl

def lineCutter : LineCutter Char where
  cut := completeLines
  cut_append := completeLines_append

/-! ## The decoder of the gateway reads lines -/

/-- The decoder with another line that has not ended. -/
def withAcc (d : Decoder) (acc : List Char) : Decoder := { d with acc }

/-- Only `decode` touches the line that has not ended. -/
theorem handleControl_withAcc (d : Decoder) (acc : List Char) (now : String) (body : List Char) :
    (d.withAcc acc).handleControl now body =
      ((d.handleControl now body).1.withAcc acc, (d.handleControl now body).2) := by
  have htext : (d.withAcc acc).advanceAfterText =
      (d.advanceAfterText.1.withAcc acc, d.advanceAfterText.2) := by
    rw [advanceAfterText, advanceAfterText, withAcc]
    split_ifs <;> rfl
  have hack : (d.withAcc acc).advanceAfterAck =
      (d.advanceAfterAck.1.withAcc acc, d.advanceAfterAck.2) := by
    rw [advanceAfterAck, advanceAfterAck, withAcc]
    split_ifs <;> rfl
  have hresend : (d.withAcc acc).maybeResendOffline =
      (d.maybeResendOffline.1.withAcc acc, d.maybeResendOffline.2) := by
    rw [maybeResendOffline, maybeResendOffline, withAcc]
    split_ifs <;> rfl
  rw [handleControl, handleControl, htext, hack, hresend]
  split_ifs <;> rfl

theorem decodeLine_withAcc (d : Decoder) (acc : List Char) (now : String) (line : List Char) :
    (d.withAcc acc).decodeLine now line =
      (d.decodeLine now line).map fun (d, events) => (d.withAcc acc, events) := by
  rw [decodeLine, decodeLine]
  by_cases hempty : trimNewlines line = []
  · rw [if_pos hempty, if_pos hempty]
    rfl
  rw [if_neg hempty, if_neg hempty]
  rcases (parseLine (trimNewlines line)).run with - | - | f | c | -
  · rfl
  · dsimp only [bind, Except.bind]
    cases splitOnceText "$PDGY,TEXT,".toList (trimNewlines line) with
    | none => rfl
    | some parts => exact congrArg Except.ok (handleControl_withAcc d acc now _)
  · rfl
  · exact congrArg Except.ok (handleControl_withAcc d acc now c)
  · rfl

theorem decodeLines_withAcc (d : Decoder) (acc : List Char) (now : String)
    (lines : List (List Char)) :
    decodeLines now (d.withAcc acc) lines =
      (runLines (fun d l => d.decodeLine now l) d lines).map
        fun (d, events) => (d.withAcc acc, events) := by
  induction lines generalizing d with
  | nil => rfl
  | cons line lines ih =>
      rw [decodeLines, runLines, decodeLine_withAcc]
      cases d.decodeLine now line with
      | error e => rfl
      | ok out =>
          change (decodeLines now (out.1.withAcc acc) lines >>= fun r => .ok (r.1, out.2 ++ r.2)) =
            (runLines _ out.1 lines >>= fun r => .ok (r.1, out.2 ++ r.2)).map _
          rw [ih]
          cases runLines (fun d l => decodeLine d now l) out.1 lines <;> rfl

theorem decode_withAcc (d : Decoder) (acc : List Char) (r : Read) :
    (d.withAcc acc).decode r.now r.bytes =
      (lineCutter.read (fun now d l => d.decodeLine now l) (d, acc)
        (r.now, fromUtf8Lossy r.bytes)).map fun (d, events) => (d.1.withAcc d.2, events) := by
  change decodeLines r.now (d.withAcc (completeLines (acc ++ fromUtf8Lossy r.bytes)).2)
    (completeLines (acc ++ fromUtf8Lossy r.bytes)).1 = _
  rw [decodeLines_withAcc]
  change _ = Except.map _ (runLines _ d (completeLines (acc ++ fromUtf8Lossy r.bytes)).1 >>=
    fun r' => .ok ((r'.1, (completeLines (acc ++ fromUtf8Lossy r.bytes)).2), r'.2))
  cases runLines (fun d l => decodeLine d r.now l) d
    (completeLines (acc ++ fromUtf8Lossy r.bytes)).1 <;> rfl

/-- The host's time is in nothing but the timestamps. -/
theorem untimed_handleControl (d : Decoder) (now now' : String) (body : List Char) :
    (d.handleControl now body).1 = (d.handleControl now' body).1 ∧
      (d.handleControl now body).2.map DeviceEvent.untimed =
        (d.handleControl now' body).2.map DeviceEvent.untimed := by
  have hstatus : ((synthesizeNetworkStatus body now).map DeviceEvent.frame).toList.map
        DeviceEvent.untimed =
      ((synthesizeNetworkStatus body now').map DeviceEvent.frame).toList.map
        DeviceEvent.untimed := by
    rw [synthesizeNetworkStatus, synthesizeNetworkStatus]
    cases stripPrefix "000000,".toList body with
    | none => rfl
    | some rest =>
        rw [Option.bind_some, Option.bind_some]
        split_ifs <;> rfl
  rw [handleControl, handleControl]
  split_ifs
  · exact ⟨rfl, rfl⟩
  · exact ⟨rfl, rfl⟩
  · exact ⟨rfl, rfl⟩
  · refine ⟨rfl, ?_⟩
    dsimp only
    rw [List.map_append, hstatus, List.map_append]
  · exact ⟨rfl, rfl⟩

theorem untimed_decodeLine (now now' : String) (d : Decoder) (line : List Char) :
    viewed DeviceEvent.untimed (d.decodeLine now line) =
      viewed DeviceEvent.untimed (d.decodeLine now' line) := by
  have hcontrol : ∀ body, viewed DeviceEvent.untimed
      (Except.ok (d.handleControl now body) : Except Fault _) =
        viewed DeviceEvent.untimed (.ok (d.handleControl now' body)) := by
    intro body
    obtain ⟨hnext, hevents⟩ := untimed_handleControl d now now' body
    exact congrArg Except.ok (Prod.ext hnext hevents)
  rw [decodeLine, decodeLine]
  by_cases hempty : trimNewlines line = []
  · rw [if_pos hempty, if_pos hempty]
  rw [if_neg hempty, if_neg hempty]
  rcases (parseLine (trimNewlines line)).run with - | - | f | c | -
  · rfl
  · dsimp only [bind, Except.bind]
    cases splitOnceText "$PDGY,TEXT,".toList (trimNewlines line) with
    | none => rfl
    | some parts => exact hcontrol _
  · rfl
  · exact hcontrol c
  · rfl

end Decoder

/-- The events are those of the text that the reads give. -/
theorem events_eq (config : Config) (reads : List Read) :
    events config reads =
      (runLines (fun d l => viewed DeviceEvent.untimed (Decoder.decodeLine d "" l))
        (Decoder.new config)
        (Decoder.completeLines (reads.flatMap fun r => fromUtf8Lossy r.bytes)).1).map (·.2) := by
  have hread := Decoder.lineCutter.answers_read
    (fun now d l => Decoder.untimed_decodeLine now "" d l) (s := Decoder.new config)
    (show Decoder.lineCutter.Unended [] from rfl)
    (reads.map fun r => (r.now, fromUtf8Lossy r.bytes))
  rw [List.nil_append, List.flatMap_map] at hread
  rw [events, ← show Decoder.withAcc (Decoder.new config) [] = Decoder.new config from rfl,
    answers_map (f := fun d : Decoder × List Char => d.1.withAcc d.2) (s := (Decoder.new config, []))
      (fun d r => Decoder.decode_withAcc d.1 d.2 r) reads]
  exact hread

end Ikonvert

/-! ## The decoder of a pipeline reads lines -/

namespace CanboatCsv

theorem runLines_decodeLine (lines : List (List Char)) :
    runLines (fun (_ : Unit) l => (Decoder.decodeLine l).map fun events => ((), events)) () lines =
      (Decoder.decodeLines lines).map fun events => ((), events) := by
  induction lines with
  | nil => rfl
  | cons line lines ih =>
      rw [runLines, Decoder.decodeLines]
      cases Decoder.decodeLine line with
      | error e => rfl
      | ok out =>
          change (runLines _ () lines >>= fun r => .ok (r.1, out ++ r.2)) =
            (Decoder.decodeLines lines >>= fun later => .ok (out ++ later)).map _
          rw [ih]
          cases Decoder.decodeLines lines <;> rfl

theorem decode_eq_read (acc : List Char) (bytes : List UInt8) :
    Decoder.decode ⟨acc⟩ bytes =
      (Ikonvert.Decoder.lineCutter.read
        (fun (_ : Unit) (_ : Unit) l => (Decoder.decodeLine l).map fun events => ((), events))
        ((), acc) ((), fromUtf8Lossy bytes)).map fun (d, events) => (⟨d.2⟩, events) := by
  rw [LineCutter.read]
  change _ = Except.map _ (runLines _ ()
    (Ikonvert.Decoder.completeLines (acc ++ fromUtf8Lossy bytes)).1 >>= _)
  rw [runLines_decodeLine, Decoder.decode]
  dsimp only
  cases Decoder.decodeLines (Ikonvert.Decoder.completeLines (acc ++ fromUtf8Lossy bytes)).1 <;> rfl

/-- The events are those of the text that the reads give. -/
theorem events_eq (reads : List (List UInt8)) :
    events reads =
      Decoder.decodeLines (Ikonvert.Decoder.completeLines (reads.flatMap fromUtf8Lossy)).1 := by
  have hview : ∀ (t : Unit) (s : Unit) (l : List Char),
      viewed id ((Decoder.decodeLine l).map fun events => (s, events)) =
        (Decoder.decodeLine l).map fun events => ((), events) := by
    intro t s l
    cases Decoder.decodeLine l with
    | error e => rfl
    | ok events => exact congrArg (fun events => Except.ok ((), events)) (List.map_id events)
  have hread := Ikonvert.Decoder.lineCutter.answers_read hview (s := ())
    (show Ikonvert.Decoder.lineCutter.Unended [] from rfl)
    (reads.map fun bytes => ((), fromUtf8Lossy bytes))
  rw [List.nil_append, List.flatMap_map] at hread
  rw [events, ← show (fun d : Unit × List Char => Decoder.mk d.2) ((), []) = Decoder.new from rfl,
    answers_map (f := fun d : Unit × List Char => Decoder.mk d.2) (s := ((), []))
      (fun d bytes => decode_eq_read d.2 bytes) reads]
  rw [runLines_decodeLine] at hread
  simp only [List.map_id] at hread
  refine Eq.trans hread ?_
  change Except.map _ (Except.map _ (Decoder.decodeLines
    (Ikonvert.Decoder.completeLines (reads.flatMap fromUtf8Lossy)).1)) = _
  cases Decoder.decodeLines
    (Ikonvert.Decoder.completeLines (reads.flatMap fromUtf8Lossy)).1 <;> rfl

end CanboatCsv

/-! ## How the stream is cut -/

/-- **Reads do not matter.** Two ways to read a stream give the same events, if neither cuts a
sequence of UTF-8. -/
theorem same_events (config : Ikonvert.Config) {reads reads' : List Ikonvert.Read}
    (h : WholeSequences (reads.map (·.bytes))) (h' : WholeSequences (reads'.map (·.bytes)))
    (hstream : (reads.map (·.bytes)).flatten = (reads'.map (·.bytes)).flatten) :
    CanboatCsv.events (reads.map (·.bytes)) = CanboatCsv.events (reads'.map (·.bytes)) ∧
      Ikonvert.events config reads = Ikonvert.events config reads' := by
  have htext : (reads.map (·.bytes)).flatMap fromUtf8Lossy =
      (reads'.map (·.bytes)).flatMap fromUtf8Lossy := by
    rw [flatMap_fromUtf8Lossy h, flatMap_fromUtf8Lossy h', hstream]
  constructor
  · rw [CanboatCsv.events_eq, CanboatCsv.events_eq, htext]
  · rw [List.flatMap_map, List.flatMap_map] at htext
    rw [Ikonvert.events_eq, Ikonvert.events_eq, htext]

def accentReads : List Ikonvert.Read :=
  [⟨"2026-10-01T10:00:00.000Z", [0xc3, 0xa9]⟩,
    ⟨"2026-10-01T10:00:01.000Z", utf8Bytes ",2,127251,14,255,1,ff\r".toList⟩,
    ⟨"2026-10-01T10:00:02.000Z", [0x0a, 0xa9]⟩]

def accentReads' : List Ikonvert.Read :=
  [⟨"2026-10-01T11:00:00.000Z", [0xc3, 0xa9] ++ utf8Bytes ",2,127251,14,255,1,ff\r\n".toList ++ [0xa9]⟩]

theorem same_events_accent :
    CanboatCsv.events (accentReads.map (·.bytes)) = CanboatCsv.events (accentReads'.map (·.bytes)) ∧
      Ikonvert.events Ikonvert.receiving accentReads = Ikonvert.events Ikonvert.receiving accentReads' :=
  same_events Ikonvert.receiving (by decide) (by decide) (by decide)

def accentLine : List UInt8 := utf8Bytes "é,2,127251,14,255,1,ff\n".toList

def accentSentence : List UInt8 := utf8Bytes "!PDGY,é,2,14,255,0,AA==\n".toList

/-- What tells two events apart here: the timestamp of a frame, the error of a line. -/
def Ikonvert.DeviceEvent.mark : DeviceEvent → Option (Option String) × Option ParseError
  | .frame f => (some f.timestamp, none)
  | .sendBytes _ => (none, none)
  | .error e => (none, some e)

/-- The letter is two bytes. A read that ends between them takes it out of a timestamp, and out of
the text of an error. -/
theorem accent_cut :
    CanboatCsv.events [accentLine.take 1, accentLine.drop 1] ≠ CanboatCsv.events [accentLine] ∧
      Ikonvert.events Ikonvert.receiving
          [⟨"10:00:00", accentSentence.take 7⟩, ⟨"10:00:01", accentSentence.drop 7⟩] ≠
        Ikonvert.events Ikonvert.receiving [⟨"10:00:00", accentSentence⟩] := by
  have hmarks : ∀ {r r' : Except Fault (List Ikonvert.DeviceEvent)},
      r.map (List.map Ikonvert.DeviceEvent.mark) ≠ r'.map (List.map Ikonvert.DeviceEvent.mark) →
        r ≠ r' := by
    rintro r r' h rfl
    exact h rfl
  exact ⟨hmarks (by decide +kernel), hmarks (by decide +kernel)⟩

end Canboat
