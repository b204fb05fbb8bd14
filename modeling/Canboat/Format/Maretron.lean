import Canboat.Core.Str
import Canboat.Format.Common
import Canboat.Frame
import Canboat.Lib.Incremental

/-!
# The stream of a Maretron IPG

    A5 | F1 | PF | PS | SA | LEN [LEN_HI] | payload

Texts that end in NUL before the handshake, and after it binary frames, with texts and other data
between them.
-/

namespace Canboat

namespace Maretron

def FRAME_SYNC : UInt8 := 0xa5

def F1_SYNC_BIT : UInt8 := 0x80

def VIDEO_PREFIX : UInt8 := 0x33

def ASCII_PREFIX : UInt8 := 0x32

def RX_CONNECTED : List Char := "CONNECTED".toList

structure MaretronFrame where
  pgn : UInt32
  prio : UInt8
  src : UInt8
  dst : UInt8
  msgType : UInt8
  payload : List UInt8
deriving DecidableEq, Repr

/-- Each but `needMore` with the bytes it takes off the buffer. -/
inductive ParseOutcome
  | frame (frame : MaretronFrame) (consumed : ℕ)
  | text (line : List Char) (consumed : ℕ)
  | needMore
  | drop (consumed : ℕ)
deriving DecidableEq, Repr

def ParseOutcome.consumed : ParseOutcome → ℕ
  | frame _ n => n
  | text _ n => n
  | needMore => 0
  | drop n => n

inductive SessionState
  | awaitHandshake
  | streaming
deriving DecidableEq, Repr

/-! ## The parser -/

def nulPosition (buf : List UInt8) : Option ℕ := buf.findIdx? (· == 0)

def parseNulTerminatedText (buf : List UInt8) : ParseOutcome :=
  match nulPosition buf with
  | none => .needMore
  | some i => .text (fromUtf8Lossy (buf.take i)) (i + 1)

/-- A frame whose payload starts behind `start` bytes, with what comes there. -/
def payloadOutcome (f1 pf ps sa : UInt8) (start len : ℕ) (rest : List UInt8) : ParseOutcome :=
  if rest.length < len then .needMore
  else
    let prio := (f1 >>> 4) &&& 0x07
    let msgType := (f1 >>> 1) &&& 0x03
    let dp := f1 &&& 0x01
    let (pgn, dst) :=
      if pf < 0xf0 then ((dp.toUInt32 <<< 16) ||| (pf.toUInt32 <<< 8), ps)
      else ((dp.toUInt32 <<< 16) ||| (pf.toUInt32 <<< 8) ||| ps.toUInt32, 0xff)
    .frame { pgn, prio, src := sa, dst, msgType, payload := rest.take len } (start + len)

def parseBinaryFrame : List UInt8 → ParseOutcome
  | _ :: f1 :: pf :: ps :: sa :: len :: rest =>
      if f1 &&& F1_SYNC_BIT = 0 then .drop 1
      else if (f1 >>> 1) &&& 0x03 = 3 then
        -- a length of two bytes
        match rest with
        | [] => .needMore
        | hi :: rest =>
            payloadOutcome f1 pf ps sa 7 (len.toUInt16 ||| (hi.toUInt16 <<< 8)).toNat rest
      else payloadOutcome f1 pf ps sa 6 len.toNat rest
  | _ => .needMore

def parse (buf : List UInt8) (state : SessionState) : ParseOutcome :=
  match buf with
  | [] => .needMore
  | first :: _ =>
      if state = .awaitHandshake then parseNulTerminatedText buf
      else if first = FRAME_SYNC then parseBinaryFrame buf
      else if first = VIDEO_PREFIX ∨ first = ASCII_PREFIX then
        match nulPosition buf with
        | none => .needMore
        | some i => .drop (i + 1)
      else if first &&& 0x80 = 0 then parseNulTerminatedText buf
      -- out of sync
      else .drop 1

/-- The session of a device: its first word tells that a text is the end of the handshake. -/
def afterOutcome (state : SessionState) : ParseOutcome → SessionState
  | .text line _ =>
      let head := ((splitOnce '\t' line).map Prod.fst).getD line
      if head = RX_CONNECTED then .streaming else state
  | _ => state

/-! ## The builder -/

/-- A message for the gateway. -/
structure Outgoing where
  pgn : UInt32
  prio : UInt8
  dst : UInt8
  payload : List UInt8
deriving DecidableEq, Repr

/-- The second byte of a frame. -/
def buildF1 (prio msgType dp : UInt8) : UInt8 :=
  F1_SYNC_BIT ||| ((prio &&& 0x07) <<< 4) ||| ((msgType &&& 0x03) <<< 1) ||| (dp &&& 0x01)

def buildFrame (m : Outgoing) : Option (List UInt8) :=
  if m.payload.length > FASTPACKET_MAX_SIZE then none
  else
    let msgType : UInt8 := if m.payload.length ≤ 8 then 1 else 2
    let dp := ((m.pgn >>> 16) &&& 0x01).toUInt8
    let pf := ((m.pgn >>> 8) &&& 0xff).toUInt8
    let ps := if pf < 0xf0 then m.dst else (m.pgn &&& 0xff).toUInt8
    some ([FRAME_SYNC, buildF1 m.prio msgType dp, pf, ps, 0xff, UInt8.ofNat m.payload.length] ++
      m.payload)

/-! ## An outcome is final -/

theorem nulPosition_append {buf : List UInt8} {i : ℕ} (h : nulPosition buf = some i)
    (c : List UInt8) : i < buf.length ∧ nulPosition (buf ++ c) = some i := by
  rw [nulPosition] at h ⊢
  refine ⟨(List.findIdx?_eq_some_iff_getElem.mp h).1, ?_⟩
  rw [List.findIdx?_append, h, Option.some_or]

/-- It takes some of the buffer, and is the same with anything behind. -/
def Final (o : ParseOutcome) (buf : List UInt8) (o' : ParseOutcome) : Prop :=
  o = .needMore ∨ 0 < o.consumed ∧ o.consumed ≤ buf.length ∧ o' = o

theorem final_text (buf c : List UInt8) :
    Final (parseNulTerminatedText buf) buf (parseNulTerminatedText (buf ++ c)) := by
  rcases h : nulPosition buf with - | i
  · left
    rw [parseNulTerminatedText, h]
  · right
    obtain ⟨hlt, happend⟩ := nulPosition_append h c
    rw [parseNulTerminatedText, parseNulTerminatedText, happend, h]
    refine ⟨Nat.succ_pos i, hlt, ?_⟩
    dsimp only
    rw [List.take_append_of_le_length (Nat.le_of_lt hlt)]

theorem final_payload (f1 pf ps sa : UInt8) {start : ℕ} (hstart : 0 < start) (len : ℕ)
    {buf rest : List UInt8} (hbuf : buf.length = start + rest.length) (c : List UInt8) :
    Final (payloadOutcome f1 pf ps sa start len rest) buf
      (payloadOutcome f1 pf ps sa start len (rest ++ c)) := by
  by_cases hlen : rest.length < len
  · left
    rw [payloadOutcome, if_pos hlen]
  · right
    have happend : ¬(rest ++ c).length < len := by
      rw [List.length_append]
      omega
    have hsame : payloadOutcome f1 pf ps sa start len (rest ++ c) =
        payloadOutcome f1 pf ps sa start len rest := by
      rw [payloadOutcome, payloadOutcome, if_neg hlen, if_neg happend,
        List.take_append_of_le_length (Nat.le_of_not_lt hlen)]
    have hconsumed : (payloadOutcome f1 pf ps sa start len rest).consumed = start + len := by
      rw [payloadOutcome, if_neg hlen]
      rfl
    rw [hconsumed, hbuf]
    exact ⟨by omega, by omega, hsame⟩

theorem final_binary (buf c : List UInt8) :
    Final (parseBinaryFrame buf) buf (parseBinaryFrame (buf ++ c)) := by
  rcases buf with - | ⟨sync, - | ⟨f1, - | ⟨pf, - | ⟨ps, - | ⟨sa, - | ⟨len, rest⟩⟩⟩⟩⟩⟩
  iterate 6 exact .inl rfl
  simp only [List.cons_append, parseBinaryFrame]
  split_ifs with hsync htype
  · exact .inr ⟨Nat.one_pos, by simp [ParseOutcome.consumed], rfl⟩
  · cases rest with
    | nil => exact .inl rfl
    | cons hi rest => exact final_payload f1 pf ps sa (by decide) _ (by simp; omega) c
  · exact final_payload f1 pf ps sa (by decide) _ (by simp; omega) c

/-- The first byte chooses, and it is there with what comes behind. -/
theorem final_parse (buf c : List UInt8) (state : SessionState) :
    Final (parse buf state) buf (parse (buf ++ c) state) := by
  cases buf with
  | nil => exact .inl rfl
  | cons first buf =>
      have htext := final_text (first :: buf) c
      have hbinary := final_binary (first :: buf) c
      rw [List.cons_append] at htext hbinary ⊢
      simp only [parse]
      split_ifs with hstate hsync hprefix hascii
      · exact htext
      · exact hbinary
      · rcases h : nulPosition (first :: buf) with - | i
        · exact .inl rfl
        · obtain ⟨hlt, happend⟩ := nulPosition_append h c
          rw [← List.cons_append, happend]
          exact .inr ⟨Nat.succ_pos i, hlt, rfl⟩
      · exact htext
      · exact .inr ⟨Nat.one_pos, by simp [ParseOutcome.consumed], rfl⟩

/-- The parser of a session in which an outcome leads to the next state. -/
def stream (next : SessionState → ParseOutcome → SessionState) :
    Incremental SessionState UInt8 ParseOutcome where
  parse state buf :=
    if parse buf state = .needMore then none
    else some (parse buf state, (parse buf state).consumed)
  next := next
  consumes := by
    intro state buf o n h
    split_ifs at h with hmore
    obtain ⟨rfl, rfl⟩ := Prod.mk.inj (Option.some.inj h)
    obtain hmore' | ⟨hpos, hle, -⟩ := final_parse buf [] state
    · exact absurd hmore' hmore
    · exact ⟨hpos, hle⟩
  stable := by
    intro state buf o n c h
    split_ifs at h with hmore
    obtain hmore' | ⟨-, -, hsame⟩ := final_parse buf c state
    · exact absurd hmore' hmore
    · rw [hsame, if_neg hmore, h]

/-! ## What is built is parsed -/

/-- A message of the bus that one frame holds. -/
structure Outgoing.Fits (m : Outgoing) : Prop where
  pgn_lt : m.pgn.toNat < 2 ^ 17
  low_zero : pduFormat m.pgn < 240 → m.pgn.toNat % 256 = 0
  prio_lt : m.prio < 8
  payload_le : m.payload.length ≤ FASTPACKET_MAX_SIZE

instance (m : Outgoing) : Decidable m.Fits :=
  decidable_of_iff
    (m.pgn.toNat < 2 ^ 17 ∧ (pduFormat m.pgn < 240 → m.pgn.toNat % 256 = 0) ∧ m.prio < 8 ∧
      m.payload.length ≤ FASTPACKET_MAX_SIZE)
    ⟨fun ⟨a, b, c, d⟩ => ⟨a, b, c, d⟩, fun ⟨a, b, c, d⟩ => ⟨a, b, c, d⟩⟩

/-- What the other side makes of a message; the gateway puts in its own address. -/
def Outgoing.received (m : Outgoing) : MaretronFrame where
  pgn := m.pgn
  prio := m.prio
  src := 0xff
  dst := if pduFormat m.pgn < 240 then m.dst else 0xff
  msgType := if m.payload.length ≤ 8 then 1 else 2
  payload := m.payload

/-- The fields of F1 do not overlap. -/
theorem buildF1_fields : ∀ prio < 8, ∀ msgType ∈ [(1 : UInt8), 2], ∀ dp < 2,
    let f1 := buildF1 (UInt8.ofNat prio) msgType (UInt8.ofNat dp)
    f1 &&& F1_SYNC_BIT ≠ 0 ∧ (f1 >>> 4) &&& 0x07 = UInt8.ofNat prio ∧
      (f1 >>> 1) &&& 0x03 = msgType ∧ f1 &&& 0x01 = UInt8.ofNat dp := by
  decide +kernel

/-- The three bytes of a PGN below `2 ^ 17`. -/
theorem pgnBytes {pgn : UInt32} (hpgn : pgn.toNat < 2 ^ 17) :
    ((pgn >>> 16) &&& 0x01).toUInt8.toNat = pgn.toNat / 65536 ∧
      ((pgn >>> 8) &&& 0xff).toUInt8.toNat = pgn.toNat / 256 % 256 ∧
      (pgn &&& 0xff).toUInt8.toNat = pgn.toNat % 256 := by
  have hpage : pgn.toNat / 65536 < 2 := by omega
  refine ⟨?_, ?_, toUInt8_and_mask _ _ (k := 8) rfl (by decide)⟩
  · rw [toUInt8_and_mask _ _ (k := 1) rfl (by decide), toNat_shiftRight pgn 16 rfl (by decide)]
    exact Nat.mod_eq_of_lt hpage
  · rw [toUInt8_and_mask _ _ (k := 8) rfl (by decide), toNat_shiftRight pgn 8 rfl (by decide)]
    rfl

/-- A frame is told from a text by its first byte, and has a length of one byte. -/
theorem parse_frame {f1 : UInt8} (pf ps sa : UInt8) {payload : List UInt8} (c : List UInt8)
    (hlen : payload.length ≤ FASTPACKET_MAX_SIZE) (hsync : f1 &&& F1_SYNC_BIT ≠ 0)
    (htype : (f1 >>> 1) &&& 0x03 ≠ 3) :
    parse ([FRAME_SYNC, f1, pf, ps, sa, UInt8.ofNat payload.length] ++ payload ++ c) .streaming =
      payloadOutcome f1 pf ps sa 6 payload.length (payload ++ c) := by
  have hbyte : (UInt8.ofNat payload.length).toNat = payload.length :=
    UInt8.toNat_ofNat_of_lt (Nat.lt_of_le_of_lt hlen (by decide))
  simp only [List.cons_append, List.nil_append, parse, parseBinaryFrame]
  rw [if_neg (by decide), if_pos trivial, if_neg hsync, if_neg htype, hbyte]

theorem parse_buildFrame {m : Outgoing} (h : m.Fits) :
    ∃ wire, buildFrame m = some wire ∧
      ∀ c, parse (wire ++ c) .streaming = .frame m.received wire.length := by
  obtain ⟨hpgn, hlow, hprio, hlen⟩ := h
  obtain ⟨k, hk, hprio⟩ : ∃ k < 8, m.prio = UInt8.ofNat k :=
    ⟨m.prio.toNat, UInt8.lt_iff_toNat_lt.mp hprio, UInt8.ofNat_toNat.symm⟩
  obtain ⟨hdp, hpf, hps⟩ := pgnBytes hpgn
  have hbuild : buildFrame m = some ([FRAME_SYNC,
      buildF1 m.prio m.received.msgType ((m.pgn >>> 16) &&& 0x01).toUInt8,
      ((m.pgn >>> 8) &&& 0xff).toUInt8,
      if ((m.pgn >>> 8) &&& 0xff).toUInt8 < 0xf0 then m.dst else (m.pgn &&& 0xff).toUInt8,
      0xff, UInt8.ofNat m.payload.length] ++ m.payload) := by
    rw [buildFrame, if_neg (Nat.not_lt.mpr hlen)]
    rfl
  refine ⟨_, hbuild, fun c => ?_⟩
  generalize ((m.pgn >>> 16) &&& 0x01).toUInt8 = dp at *
  generalize ((m.pgn >>> 8) &&& 0xff).toUInt8 = pf at *
  generalize (m.pgn &&& 0xff).toUInt8 = low at *
  have hpdu : pf < 0xf0 ↔ pduFormat m.pgn < 240 := by
    rw [UInt8.lt_iff_toNat_lt, UInt32.lt_iff_toNat_lt, hpf, pduFormat_toNat]
    rfl
  obtain ⟨hsync, hfield, htype, hpage⟩ := buildF1_fields k hk m.received.msgType
    (by rw [Outgoing.received]; dsimp only; split_ifs <;> simp) dp.toNat (by omega)
  rw [UInt8.ofNat_toNat, ← hprio] at hsync hfield htype hpage
  have hthree : m.received.msgType ≠ 3 := by
    rw [Outgoing.received]
    dsimp only
    split_ifs <;> decide
  have hlength : ([FRAME_SYNC, buildF1 m.prio m.received.msgType dp, pf,
      if pf < 0xf0 then m.dst else low, 0xff, UInt8.ofNat m.payload.length] ++
        m.payload).length = 6 + m.payload.length := by
    rw [List.length_append]
    rfl
  rw [parse_frame pf _ _ c hlen hsync (by rw [htype]; exact hthree), payloadOutcome,
    if_neg (by simp), hlength]
  dsimp only
  rw [hfield, htype, hpage, List.take_left]
  by_cases hpf240 : pf < 0xf0
  · have hlow := hlow (hpdu.mp hpf240)
    have hpgn : (dp.toUInt32 <<< 16) ||| (pf.toUInt32 <<< 8) = m.pgn := by
      have h := toNat_three_bytes dp pf 0
      rw [UInt32.toNat_or, UInt8.toNat_toUInt32, UInt8.toNat_zero, Nat.or_zero] at h
      rw [← UInt32.toNat_inj, h]
      omega
    rw [if_pos hpf240, if_pos hpf240, hpgn, Outgoing.received, if_pos (hpdu.mp hpf240)]
  · have hpgn : (dp.toUInt32 <<< 16) ||| (pf.toUInt32 <<< 8) ||| low.toUInt32 = m.pgn := by
      rw [← UInt32.toNat_inj, toNat_three_bytes]
      omega
    rw [if_neg hpf240, if_neg hpf240, hpgn, Outgoing.received, if_neg (hpdu.not.mp hpf240)]

/-! ## The stream -/

theorem mapM_buildFrame {messages : List Outgoing} (h : ∀ m ∈ messages, m.Fits) :
    messages.mapM buildFrame = some (messages.map fun m => (buildFrame m).getD []) := by
  induction messages with
  | nil => rfl
  | cons m messages ih =>
      rw [List.forall_mem_cons] at h
      obtain ⟨wire, hwire, -⟩ := parse_buildFrame h.1
      rw [List.mapM_cons, ih h.2, hwire, List.map_cons, hwire]
      rfl

/-- An outcome is final, so that the pieces of a stream do not matter; and a stream of built
frames is their messages. -/
theorem stream_exact (next : SessionState → ParseOutcome → SessionState) :
    (∀ state buf, parse buf state ≠ .needMore →
      0 < (parse buf state).consumed ∧ (parse buf state).consumed ≤ buf.length ∧
        ∀ c, parse (buf ++ c) state = parse buf state) ∧
    (∀ state (pieces : List (List UInt8)),
      pieces.foldl (stream next).read ([], state, []) =
        (stream next).drain state pieces.flatten) ∧
    ((∀ frame n, next .streaming (.frame frame n) = .streaming) →
      ∀ messages : List Outgoing, (∀ m ∈ messages, m.Fits) →
        ∃ wires, messages.mapM buildFrame = some wires ∧
          (stream next).drain .streaming wires.flatten =
            (List.zipWith (fun m wire => .frame m.received wire.length) messages wires,
              .streaming, [])) := by
  refine ⟨?_, fun state pieces => Incremental.read_pieces state pieces, ?_⟩
  · intro state buf hmore
    refine ⟨?_, ?_, fun c => ?_⟩
    · exact ((final_parse buf [] state).resolve_left hmore).1
    · exact ((final_parse buf [] state).resolve_left hmore).2.1
    · exact ((final_parse buf c state).resolve_left hmore).2.2
  · intro hnext messages hfits
    refine ⟨_, mapM_buildFrame hfits, ?_⟩
    rw [← List.flatMap_def, List.zipWith_map_right, List.zipWith_self]
    refine Incremental.drain_flatten ?_ fun m _ => hnext m.received _
    intro m hm c
    obtain ⟨wire, hwire, hparse⟩ := parse_buildFrame (hfits m hm)
    have hframe : (stream next).parse .streaming (wire ++ c) =
        if parse (wire ++ c) .streaming = .needMore then none
        else some (parse (wire ++ c) .streaming, (parse (wire ++ c) .streaming).consumed) := rfl
    rw [hwire, Option.getD_some, hframe, hparse, if_neg nofun]
    rfl

/-- An empty message and one of escape-like bytes, in the session of a device. -/
theorem stream_exact_two :
    (∀ c, parse ([0x33, 0x00] ++ c) .streaming = .drop 2) ∧
    ∃ wires, [Outgoing.mk 0xea00 6 0x33 [], ⟨0x1f801, 2, 7, [0xa5, 0x00, 0x33]⟩].mapM buildFrame =
        some wires ∧
      ((stream afterOutcome).drain .streaming wires.flatten).2 = (.streaming, []) := by
  have h := stream_exact afterOutcome
  refine ⟨(h.1 .streaming [0x33, 0x00] (by decide)).2.2, ?_⟩
  obtain ⟨wires, hwires, hdrain⟩ := h.2.2 (fun _ _ => rfl)
    [⟨0xea00, 6, 0x33, []⟩, ⟨0x1f801, 2, 7, [0xa5, 0x00, 0x33]⟩] (by decide)
  exact ⟨wires, hwires, congrArg Prod.snd hdrain⟩

end Maretron

end Canboat
