import Canboat.Format.Common
import Canboat.Format.Ngt1

/-!
# EBL logs

The encoder of `.ebl` records: a timestamp header before each message. The decoder in EBL mode
yields the time and the message of each record.
-/

namespace Canboat.Ebl

open Ngt1

def pushHeaderByte (b : UInt8) : List UInt8 := stuffed (· == ESC) b

def pushMessageByte (b : UInt8) : List UInt8 := stuffed (fun b => b == DLE || b == ESC) b

/-- The timestamp record of `encodeFrame`, for ticks of 100 ns since 1601. -/
def encodeHeader (ticks : UInt64) (out : List UInt8) : List UInt8 :=
  out ++ (ESC :: SOH ::
    ((EBL_TIMESTAMP :: LittleEndian.encode 8 ticks.toNat).flatMap pushHeaderByte ++ [ESC, LF]))

def encodeMessage (cmd : UInt8) (payload out : List UInt8) : List UInt8 :=
  out ++ (DLE :: STX :: ((frameBody cmd payload).flatMap pushMessageByte ++ [DLE, ETX]))

/-- A timestamp and the message it is for. -/
structure EblRecord where
  ticks : UInt64
  message : NgtMessage
deriving DecidableEq, Repr

def encodeRecord (out : List UInt8) (r : EblRecord) : List UInt8 :=
  encodeMessage r.message.command r.message.payload (encodeHeader r.ticks out)

/-- What the decoder is to make of a record. -/
def EblRecord.events (r : EblRecord) : List NgtEvent :=
  [.header (.timestamp (r.ticks / 10000 - FILETIME_TO_UNIX_MS)), .message r.message]

/-- The ticks are written and read as one number. -/
theorem finishHeader_ticks {ticks : UInt64} (hticks : FILETIME_TO_UNIX_MS ≤ ticks / 10000) :
    finishHeader (EBL_TIMESTAMP :: LittleEndian.encode 8 ticks.toNat) =
      some (.header (.timestamp (ticks / 10000 - FILETIME_TO_UNIX_MS))) := by
  have hlength := LittleEndian.length_encode 8 ticks.toNat
  have hdecode : UInt64.ofNat (LittleEndian.decode
      ((LittleEndian.encode 8 ticks.toNat).take 8)) = ticks := by
    rw [List.take_of_length_le (Nat.le_of_eq hlength), LittleEndian.decode_encode_of_lt ticks.toNat_lt,
      UInt64.ofNat_toNat]
  rw [finishHeader, if_pos ⟨rfl, by rw [List.length_cons, hlength]⟩]
  simp only
  rw [hdecode, if_neg (UInt64.not_lt.mpr hticks)]

theorem pushBytes_encodeHeader {p : List UInt8}
    (hp : (Ngt1Decoder.withEbl.pushBytes p).1.AtFrameStart) {ticks : UInt64}
    (hticks : FILETIME_TO_UNIX_MS ≤ ticks / 10000) :
    Ngt1Decoder.withEbl.pushBytes (encodeHeader ticks p) =
      (⟨.idle, [], true⟩, (Ngt1Decoder.withEbl.pushBytes p).2 ++
        [.header (.timestamp (ticks / 10000 - FILETIME_TO_UNIX_MS))]) := by
  have hrecord := Ngt1Decoder.pushBytes_record hp (Ngt1Decoder.pushBytes_ebl _ p)
    (EBL_TIMESTAMP :: LittleEndian.encode 8 ticks.toNat)
  rw [Ngt1Decoder.pushBytes_ebl, finishHeader_ticks hticks] at hrecord
  have hstuffed : pushHeaderByte =
      stuffed (Ngt1Decoder.escapesIn Ngt1Decoder.withEbl.ebl .inHeader) := by
    funext b
    simp [pushHeaderByte, stuffed, Ngt1Decoder.escapesIn, Ngt1Decoder.withEbl]
  unfold encodeHeader
  rw [hstuffed]
  exact Ngt1Decoder.pushBytes_then hrecord

theorem pushBytes_encodeMessage {p : List UInt8}
    (hp : (Ngt1Decoder.withEbl.pushBytes p).1.AtFrameStart) {m : NgtMessage}
    (hlen : m.payload.length ≤ 255) :
    Ngt1Decoder.withEbl.pushBytes (encodeMessage m.command m.payload p) =
      (⟨.idle, [], true⟩, (Ngt1Decoder.withEbl.pushBytes p).2 ++ [.message m]) := by
  have hframe := Ngt1Decoder.pushBytes_frame hp (frameBody m.command m.payload)
  rw [Ngt1Decoder.pushBytes_ebl, finishFrame_frameBody m.command hlen] at hframe
  have hstuffed : pushMessageByte =
      stuffed (Ngt1Decoder.escapesIn Ngt1Decoder.withEbl.ebl .inFrame) := by
    funext b
    simp [pushMessageByte, stuffed, Ngt1Decoder.escapesIn, Ngt1Decoder.withEbl]
  unfold encodeMessage
  rw [hstuffed]
  exact Ngt1Decoder.pushBytes_then hframe

/-- One more record is its two events, and the decoder is outside any frame. -/
theorem pushBytes_encodeRecord {p : List UInt8}
    (hp : (Ngt1Decoder.withEbl.pushBytes p).1.AtFrameStart) {r : EblRecord}
    (hticks : FILETIME_TO_UNIX_MS ≤ r.ticks / 10000) (hlen : r.message.payload.length ≤ 255) :
    Ngt1Decoder.withEbl.pushBytes (encodeRecord p r) =
      (⟨.idle, [], true⟩, (Ngt1Decoder.withEbl.pushBytes p).2 ++ r.events) := by
  have hheader := pushBytes_encodeHeader hp hticks
  have hstart : (Ngt1Decoder.withEbl.pushBytes (encodeHeader r.ticks p)).1.AtFrameStart := by
    rw [hheader]
    exact Or.inl rfl
  rw [encodeRecord, pushBytes_encodeMessage hstart hlen, hheader, List.append_assoc]
  rfl

/-- Behind any bytes that leave the decoder outside a record and not behind an escape, each
record comes out as its time and its message, and nothing else does. -/
theorem pushBytes_encodeRecords (p : List UInt8)
    (hp : (Ngt1Decoder.withEbl.pushBytes p).1.AtFrameStart) (records : List EblRecord)
    (hticks : ∀ r ∈ records, FILETIME_TO_UNIX_MS ≤ r.ticks / 10000)
    (hlen : ∀ r ∈ records, r.message.payload.length ≤ 255) :
    (Ngt1Decoder.withEbl.pushBytes (records.foldl encodeRecord p)).2 =
      (Ngt1Decoder.withEbl.pushBytes p).2 ++ records.flatMap (·.events) := by
  induction records generalizing p with
  | nil => rw [List.flatMap_nil, List.append_nil]; rfl
  | cons r records ih =>
      have hrecord := pushBytes_encodeRecord hp (hticks r List.mem_cons_self)
        (hlen r List.mem_cons_self)
      have hstart : (Ngt1Decoder.withEbl.pushBytes (encodeRecord p r)).1.AtFrameStart := by
        rw [hrecord]
        exact Or.inl rfl
      rw [List.foldl_cons, ih _ hstart (fun r hr => hticks r (List.mem_cons_of_mem _ hr))
        (fun r hr => hlen r (List.mem_cons_of_mem _ hr)), hrecord, List.append_assoc]
      rfl

/-- Both encodings, behind any such bytes. -/
theorem decode_encode :
    (∀ (p : List UInt8) (messages : List NgtMessage),
      (Ngt1Decoder.new.pushBytes p).1.AtFrameStart →
      (∀ m ∈ messages, m.payload.length ≤ 255) →
      ∃ wire,
        messages.foldlM (fun out m => encodeNgtMessage m.command m.payload out) p = some wire ∧
          (Ngt1Decoder.new.pushBytes wire).2 =
            (Ngt1Decoder.new.pushBytes p).2 ++ messages.map .message) ∧
    ∀ (p : List UInt8) (records : List EblRecord),
      (Ngt1Decoder.withEbl.pushBytes p).1.AtFrameStart →
      (∀ r ∈ records, FILETIME_TO_UNIX_MS ≤ r.ticks / 10000) →
      (∀ r ∈ records, r.message.payload.length ≤ 255) →
      (Ngt1Decoder.withEbl.pushBytes (records.foldl encodeRecord p)).2 =
        (Ngt1Decoder.withEbl.pushBytes p).2 ++ records.flatMap fun r =>
          [.header (.timestamp (r.ticks / 10000 - FILETIME_TO_UNIX_MS)), .message r.message] :=
  ⟨fun p messages hp hlen => pushBytes_encodeNgtMessages p hp messages hlen,
    fun p records hp hticks hlen => pushBytes_encodeRecords p hp records hticks hlen⟩

/-- Behind an unfinished frame: a message of escape bytes, and a record whose ticks hold them. -/
theorem decode_encode_escapes :
    (∃ wire, encodeNgtMessage DLE [DLE, ESC] [DLE, STX, 5] = some wire ∧
      (Ngt1Decoder.new.pushBytes wire).2 = [.message ⟨DLE, [DLE, ESC]⟩]) ∧
    (Ngt1Decoder.withEbl.pushBytes
        (encodeRecord [DLE, STX, 5] ⟨0x1b0102030405101b, ⟨ESC, [ESC, DLE]⟩⟩)).2 =
      [.header (.timestamp 182939398997636), .message ⟨ESC, [ESC, DLE]⟩] := by
  obtain ⟨wire, hwire, hevents⟩ :=
    decode_encode.1 [DLE, STX, 5] [⟨DLE, [DLE, ESC]⟩] (Or.inr rfl) (by decide)
  refine ⟨⟨wire, ?_, hevents⟩, ?_⟩
  · rw [List.foldlM_cons] at hwire
    simpa using hwire
  · exact (decode_encode.2 [DLE, STX, 5] [⟨0x1b0102030405101b, ⟨ESC, [ESC, DLE]⟩⟩] (Or.inr rfl)
      (by decide) (by decide)).trans (by decide)

end Canboat.Ebl
