import Canboat.Format.Common
import Canboat.Format.LineTimes
import Canboat.Format.PlainWriter
import Canboat.Format.WrittenInstants
import Canboat.Lib.LineReader
import Canboat.Lib.LittleEndian

/-!
# Captures in containers

A pull reader that turns a queue of SocketCAN captures into PLAIN text, one frame a line. Lengths
in the buffers are not to be trusted.
-/

namespace Canboat

open Binary64 (paddedDigits)

/-- A vector of bytes, of which none is longer than `isize::MAX`. -/
structure ByteBuffer where
  bytes : List UInt8
  fits : bytes.length ≤ 9223372036854775807

/-- libpcap little-endian, microsecond-timestamp magic. -/
def PCAP_MAGIC_US : UInt32 := 0xa1b2c3d4

/-- Leaves the 29-bit ISO 11783 id. -/
def Container.CAN_EFF_MASK : UInt32 := 0x1FFFFFFF

/-- Four bytes from a place on. -/
def fourBytes (b : List UInt8) (i : ℕ) : Except Fault (List UInt8) := do
  let stop ← checkedNat u64Max (i + 4)
  slice b i stop

/-- `u32::from_le_bytes`. -/
def u32FromLe (b : List UInt8) (i : ℕ) : Except Fault UInt32 :=
  (fun four => UInt32.ofNat (LittleEndian.decode four)) <$> fourBytes b i

/-- `u32::from_be_bytes`. -/
def u32FromBe (b : List UInt8) (i : ℕ) : Except Fault UInt32 :=
  (fun four => UInt32.ofNat (LittleEndian.decode four.reverse)) <$> fourBytes b i

/-- Canboat's PLAIN timestamp of a millisecond count. -/
def formatPlainTs (ms : UInt64) : String :=
  let secs := ms.toNat / 1000
  let frac := ms.toNat % 1000
  let days := secs / 86400
  let daySecs := secs % 86400
  let (y, mo, d) := daysToYmd days
  padded 4 y.toNat ++ "-" ++ padded 2 mo ++ "-" ++ padded 2 d ++ "-" ++ padded 2 (daySecs / 3600) ++
    ":" ++ padded 2 (daySecs / 60 % 60) ++ ":" ++ padded 2 (daySecs % 60) ++ "." ++ padded 3 frac

/-! ## The reader -/

structure PcapPlainReader where
  sources : List ByteBuffer
  /-- Current buffer. -/
  cur : ByteBuffer
  /-- Record cursor into `cur`. -/
  off : ℕ
  /-- Formatted output of the current line. -/
  out : List UInt8
  outPos : ℕ

/-- The next buffer that has the header of a capture, and the sources behind it. -/
def advanceSource : List ByteBuffer → Except Fault (Option (ByteBuffer × List ByteBuffer))
  | [] => .ok none
  | src :: sources =>
      if src.bytes.length < 24 then advanceSource sources
      else
        match u32FromLe src.bytes 0 with
        | .error e => .error e
        | .ok magic =>
            if magic ≠ PCAP_MAGIC_US then advanceSource sources else .ok (some (src, sources))

/-- The frame of the record at a place and the place behind it, if there is a whole record. -/
def recordAt (cur : List UInt8) (base : ℕ) : Except Fault (Option (RawFrame × ℕ)) := do
  let tsSec ← u32FromLe cur base
  let tsUsec ← u32FromLe cur (base + 4)
  let inclLen ← u32FromLe cur (base + 8)
  let inclLen := inclLen.toNat
  let body ← checkedNat u64Max (base + 16)
  if inclLen < 8 then .ok none
  else do
    let stop ← checkedNat u64Max (body + inclLen)
    if stop > cur.length then .ok none
    else do
      let id ← u32FromBe cur body
      let canid := id &&& Container.CAN_EFF_MASK
      let dlc ← byteAt cur (body + 4)
      let room ← checkedSub inclLen 8
      let dlc := min (min dlc.toNat room) 8
      let data ← slice cur (body + 8) (body + 8 + dlc)
      let (prio, pgn, src, dst) := iso11783Decompose canid
      let ms ← checkedNat u64Max (tsSec.toNat * 1000 + tsUsec.toNat / 1000)
      let ts := formatPlainTs (UInt64.ofNat ms)
      .ok (some ({ timestamp := some ts, prio, pgn, src, dst, data }, stop))

theorem advanceSource_length {sources : List ByteBuffer} {src : ByteBuffer} {later : List ByteBuffer}
    (h : advanceSource sources = .ok (some (src, later))) : later.length < sources.length := by
  induction sources with
  | nil => cases h
  | cons b sources ih =>
      rw [advanceSource] at h
      rw [List.length_cons]
      split_ifs at h with hshort
      · exact Nat.lt_succ_of_lt (ih h)
      · cases hmagic : u32FromLe b.bytes 0 with
        | error e =>
            rw [hmagic] at h
            cases h
        | ok magic =>
            rw [hmagic] at h
            dsimp only at h
            split_ifs at h with hother
            · exact Nat.lt_succ_of_lt (ih h)
            · cases h
              exact Nat.lt_succ_self _

namespace PcapPlainReader

/-- A reader of some sources. -/
def new (sources : List ByteBuffer) : PcapPlainReader where
  sources
  cur := ⟨[], Nat.zero_le _⟩
  off := 0
  out := []
  outPos := 0

set_option linter.unusedVariables false in
/-- Format the next frame into the output; `false` at the end of all sources. -/
def refill (s : PcapPlainReader) : Except Fault (PcapPlainReader × Bool) :=
  match hbody : checkedNat u64Max (s.off + 16) with
  | .error e => .error e
  | .ok body =>
      if hout : body > s.cur.bytes.length then
        -- out of records in this buffer: the next source
        match hnext : advanceSource s.sources with
        | .error e => .error e
        | .ok none => .ok ({ s with sources := [] }, false)
        | .ok (some (src, later)) => refill { s with sources := later, cur := src, off := 24 }
      else
        match recordAt s.cur.bytes s.off with
        | .error e => .error e
        -- no frame in the tail: abandon this buffer
        | .ok none => refill { s with off := s.cur.bytes.length }
        | .ok (some (frame, stop)) =>
            let out := utf8Bytes (Plain.writeLine frame) ++ [0x0a]
            .ok ({ s with off := stop, out, outPos := 0 }, true)
termination_by (s.sources.length, s.cur.bytes.length - s.off)
decreasing_by
  · exact Prod.Lex.left _ _ (advanceSource_length hnext)
  · obtain ⟨-, rfl⟩ := checkedNat_ok_iff.mp hbody
    exact Prod.Lex.right _ (by omega)

theorem refill_filled {s s' : PcapPlainReader} (h : refill s = .ok (s', true)) :
    s'.outPos < s'.out.length := by
  fun_induction refill s with
  | case1 => cases h
  | case2 => cases h
  | case3 => cases h
  | case4 s body hbody hout src later hnext ih => exact ih h
  | case5 => cases h
  | case6 s body hbody hout hrec ih => exact ih h
  | case7 s body hbody hout frame stop hrec out =>
      cases h
      exact List.length_pos_of_ne_nil (List.append_ne_nil_of_right_ne_nil _ (List.cons_ne_nil _ _))

set_option linter.unusedVariables false in
/-- `Read::read` into a buffer of a size. -/
def read (s : PcapPlainReader) (size : ℕ) : Except Fault (PcapPlainReader × List UInt8) :=
  if s.outPos < s.out.length then do
    let n := min (s.out.length - s.outPos) size
    let piece ← slice s.out s.outPos (s.outPos + n)
    .ok ({ s with outPos := s.outPos + n }, piece)
  else
    match hfill : refill s with
    | .error e => .error e
    | .ok (s', false) => .ok (s', [])
    | .ok (s', true) => read s' size
termination_by if s.outPos < s.out.length then 0 else 1
decreasing_by
  rw [if_pos (refill_filled hfill), if_neg (by assumption)]
  exact Nat.one_pos

end PcapPlainReader

/-! ## What a capture holds -/

/-- When a packet was captured, and as many of its bytes as were. -/
structure CapturedPacket where
  seconds : UInt32
  micros : UInt32
  packet : List UInt8

/-- A number of four bytes from a place on. -/
def u32Le (bytes : List UInt8) (i : ℕ) : UInt32 :=
  UInt32.ofNat (LittleEndian.decode ((bytes.drop i).take 4))

/-- A record that is there with its header and its body, which is no shorter than a CAN header. -/
def WholeRecord (bytes : List UInt8) : Prop :=
  16 ≤ bytes.length ∧ 8 ≤ (u32Le bytes 8).toNat ∧ 16 + (u32Le bytes 8).toNat ≤ bytes.length

instance (bytes : List UInt8) : Decidable (WholeRecord bytes) := by
  unfold WholeRecord
  infer_instance

/-- The packet of the first record. -/
def firstPacket (bytes : List UInt8) : CapturedPacket where
  seconds := u32Le bytes 0
  micros := u32Le bytes 4
  packet := (bytes.drop 16).take (u32Le bytes 8).toNat

/-- The packets of the records, up to the first that is not whole. -/
def capturedPackets (bytes : List UInt8) : List CapturedPacket :=
  if h : WholeRecord bytes then
    firstPacket bytes :: capturedPackets (bytes.drop (16 + (u32Le bytes 8).toNat))
  else []
termination_by bytes.length
decreasing_by
  have hlen := h.1
  rw [List.length_drop]
  omega

/-- What is captured in a buffer: none without the header. -/
def ByteBuffer.capture (b : ByteBuffer) : List CapturedPacket :=
  if 24 ≤ b.bytes.length ∧ u32Le b.bytes 0 = PCAP_MAGIC_US then capturedPackets (b.bytes.drop 24)
  else []

namespace CapturedPacket

/-- The time, truncated to milliseconds. -/
def millis (r : CapturedPacket) : ℕ := r.seconds.toNat * 1000 + r.micros.toNat / 1000

/-- The CAN frame of a packet. -/
def frame (r : CapturedPacket) : RawFrame :=
  let id := UInt32.ofNat (LittleEndian.decode (r.packet.take 4).reverse)
  let (prio, pgn, src, dst) := iso11783Decompose (id &&& Container.CAN_EFF_MASK)
  let dlc := (r.packet.getD 4 0).toNat
  { timestamp := some (formatIsoMs (UInt64.ofNat r.millis)), prio, pgn, src, dst,
    data := (r.packet.drop 8).take (min (min dlc (r.packet.length - 8)) 8) }

/-- The frame as the reader has it: the timestamp is not in its canonical form. -/
def taken (r : CapturedPacket) : RawFrame :=
  { r.frame with timestamp := some (formatPlainTs (UInt64.ofNat r.millis)) }

def line (r : CapturedPacket) : List Char := Plain.writeLine r.taken

/-- What the reader writes for a packet. -/
def written (r : CapturedPacket) : List UInt8 := utf8Bytes r.line ++ [0x0a]

end CapturedPacket

/-! ## Times of packets -/

/-- A text that fits has digits and what the template has. -/
theorem mem_of_fits {p s : List Char} (h : fits p s = true) (hlen : s.length ≤ p.length) {c : Char}
    (hc : c ∈ s) : c.isDigit = true ∨ c ∈ p := by
  induction p generalizing s with
  | nil =>
      rw [List.eq_nil_of_length_eq_zero (Nat.le_zero.mp hlen)] at hc
      cases hc
  | cons q p ih =>
      cases s with
      | nil => cases hc
      | cons d s =>
          rw [fits, Bool.and_eq_true] at h
          rcases List.mem_cons.mp hc with rfl | hlater
          · by_cases hq : q = 'd'
            · rw [if_pos hq] at h
              exact .inl h.1
            · rw [if_neg hq, beq_iff_eq] at h
              exact .inr (h.1 ▸ List.mem_cons_self)
          · rcases ih h.2 (Nat.le_of_succ_le_succ hlen) hlater with hdigit | hmem
            · exact .inl hdigit
            · exact .inr (List.mem_cons_of_mem _ hmem)

namespace WrittenTime

def day (t : WrittenTime) : List Char :=
  paddedDigits 4 t.date.year.toNat ++
    '-' :: (paddedDigits 2 t.date.month ++ '-' :: paddedDigits 2 t.date.day)

def clock (t : WrittenTime) : List Char :=
  paddedDigits 2 t.h ++ ':' :: (paddedDigits 2 t.mi ++ ':' :: (paddedDigits 2 t.s ++
    '.' :: paddedDigits 3 t.ms))

theorem text_eq (t : WrittenTime) : t.text = t.day ++ 'T' :: (t.clock ++ ['Z']) := by
  rw [text, Places.text, Places.front, places, day, clock]
  simp

theorem length_day (t : WrittenTime) : t.day.length = 10 := by
  obtain ⟨hy, hmo, hd, -⟩ := t.widths
  rw [day]
  simp [hy, hmo, hd]

theorem length_clock (t : WrittenTime) : t.clock.length = 12 := by
  obtain ⟨-, -, -, hh, hmi, hs⟩ := t.widths
  have hms : (paddedDigits 3 t.ms).length = 3 :=
    length_paddedDigits t.inDay.2.2.2 (by decide)
  rw [clock]
  simp [hh, hmi, hs, hms]

theorem fits_day (t : WrittenTime) : fits "dddd-dd-dd".toList t.day = true := by
  have h := t.isCanonical_text
  rw [isCanonical, Bool.and_eq_true, t.text_eq,
    show "dddd-dd-ddTdd:dd:dd.dddZ".toList = "dddd-dd-dd".toList ++ "Tdd:dd:dd.dddZ".toList by decide,
    fits_append (by rw [t.length_day]; rfl), Bool.and_eq_true] at h
  exact h.2.1

theorem isTime_clock (t : WrittenTime) : IsTime t.clock := by
  have h := isTime_of_isCanonical t.isCanonical_text
  have hslice : (t.text.drop 11).take 12 = t.clock := by
    rw [t.text_eq, List.append_cons, List.drop_left' (by rw [List.length_append, t.length_day]; rfl)]
    exact List.take_left' t.length_clock
  rwa [hslice] at h

theorem timeInRange_clock (t : WrittenTime) : TimeInRange t.clock := by
  obtain ⟨-, -, -, hh, hmi, hs⟩ := t.widths
  have hin := t.inDay
  have htake : ∀ {a b : List Char}, a.length = 2 → (a ++ b).take 2 = a := List.take_left'
  have hdrop : ∀ {a b : List Char} {c : Char}, a.length = 2 → (a ++ c :: b).drop 3 = b := by
    intro a b c ha
    rw [List.append_cons]
    exact List.drop_left' (by rw [List.length_append, ha]; rfl)
  have hsix : ∀ l : List Char, l.drop 6 = (l.drop 3).drop 3 := by
    intro l
    rw [List.drop_drop]
  rw [TimeInRange, clock, htake hh, hsix, hdrop hh, htake hmi, hdrop hmi,
    htake hs, digitsValue_padded, digitsValue_padded, digitsValue_padded]
  exact ⟨hin.1, hin.2.1, hin.2.2.1⟩

end WrittenTime

/-- The timestamp of the reader in its canonical form. -/
theorem normalizeTimestamp_plainTs {ms : UInt64} (h : ms.toNat ≤ LAST_MS) :
    normalizeTimestamp (formatPlainTs ms).toList = (formatIsoMs ms).toList := by
  obtain ⟨t, hymd, ⟨hh, hmi, hs, hms⟩, -⟩ := writtenTime h
  have hminute : ms.toNat / 1000 % 86400 % 3600 / 60 = ms.toNat / 1000 % 86400 / 60 % 60 := by omega
  have hiso : (formatIsoMs ms).toList = t.text := by
    rw [formatIsoMs]
    dsimp only
    rw [hymd, ← hh, ← hmi, ← hs, ← hms, WrittenTime.text, WrittenTime.places, Places.text,
      Places.front]
    simp [toList_padded]
  have hplain : (formatPlainTs ms).toList = t.day ++ '-' :: t.clock := by
    rw [formatPlainTs]
    dsimp only
    rw [hymd, ← hh, ← hminute, ← hmi, ← hs, ← hms, WrittenTime.day, WrittenTime.clock]
    simp [toList_padded]
  have htoken : IsToken t.clock := by
    refine ⟨?_, fun c hc => ?_⟩
    · rw [Ne, ← List.length_eq_zero_iff, t.length_clock]
      decide
    · rcases mem_of_fits t.isTime_clock.2 t.length_clock.le hc with h | h
      · exact isWhitespace_of_isDigit h
      · have hall : ∀ c ∈ "dd:dd:dd.ddd".toList, isWhitespace c = false := by decide
        exact hall c h
  rw [hplain, normalizeTimestamp_dated t.fits_day t.length_day htoken t.length_clock.le
    (.inr (.inl rfl)), t.isTime_clock.normalizeTime_eq, if_pos t.timeInRange_clock, hiso, t.text_eq]
  rfl

theorem CapturedPacket.millis_le (r : CapturedPacket) :
    (UInt64.ofNat r.millis).toNat = r.millis ∧ r.millis ≤ LAST_MS := by
  have hs := r.seconds.toNat_lt
  have hu := r.micros.toNat_lt
  have hle : r.millis ≤ LAST_MS := by
    rw [millis, LAST_MS]
    omega
  refine ⟨UInt64.toNat_ofNat_of_lt' ?_, hle⟩
  exact lt_of_le_of_lt hle (by decide)

/-! ## Lines of packets -/

namespace CapturedPacket

theorem length_data (r : CapturedPacket) : r.frame.data.length ≤ 8 := by
  rw [frame]
  dsimp only
  rw [List.length_take]
  omega

theorem writeLine_stamped (f : RawFrame) (ts : String) :
    Plain.writeLine { f with timestamp := some ts } =
      normalizeTimestamp ts.toList ++ ',' :: Plain.body f := rfl

/-- The timestamp on the line. -/
theorem line_eq (r : CapturedPacket) :
    r.line = (formatIsoMs (UInt64.ofNat r.millis)).toList ++ ',' :: Plain.body r.frame := by
  obtain ⟨hmillis, hle⟩ := r.millis_le
  rw [line, taken, writeLine_stamped, normalizeTimestamp_plainTs (by rw [hmillis]; exact hle)]

theorem mem_stamp {r : CapturedPacket} {c : Char}
    (hc : c ∈ (formatIsoMs (UInt64.ofNat r.millis)).toList) :
    c.isDigit = true ∨ c ∈ "dddd-dd-ddTdd:dd:dd.dddZ".toList := by
  obtain ⟨hmillis, hle⟩ := r.millis_le
  obtain ⟨t, htext, -⟩ := @formatIsoMs_text (UInt64.ofNat r.millis) (by rw [hmillis]; exact hle)
  have hcanonical := t.isCanonical_text
  rw [isCanonical, Bool.and_eq_true, beq_iff_eq] at hcanonical
  rw [htext] at hc
  exact mem_of_fits hcanonical.2 hcanonical.1.le hc

/-- The parser reads the frame of the packet from its line. -/
theorem parseLine_line (r : CapturedPacket) : Plain.parseLine r.line = pure r.frame := by
  obtain ⟨hmillis, hle⟩ := r.millis_le
  obtain ⟨t, htext, -⟩ := @formatIsoMs_text (UInt64.ofNat r.millis) (by rw [hmillis]; exact hle)
  have hcomma : ',' ∉ (formatIsoMs (UInt64.ofNat r.millis)).toList := by
    intro hc
    rcases mem_stamp hc with h | h
    · revert h
      decide
    · revert h
      decide
  have hne : (formatIsoMs (UInt64.ofNat r.millis)).toList ≠ [] := by
    rw [htext, t.text_eq]
    exact List.append_ne_nil_of_right_ne_nil _ (List.cons_ne_nil _ _)
  rw [line_eq, Plain.parseLine_line hcomma (r.length_data.trans (by decide)), if_neg hne,
    String.ofList_toList]
  rfl

theorem newline_not_mem_line (r : CapturedPacket) : '\n' ∉ r.line := by
  rw [line_eq, List.mem_append, List.mem_cons, not_or, not_or]
  refine ⟨fun hc => ?_, by decide, fun hmem => ?_⟩
  · rcases mem_stamp hc with h | h
    · revert h
      decide
    · revert h
      decide
  · exact absurd (Plain.le_toNat_of_mem_body hmem) (by decide)

end CapturedPacket

/-! ## Reading a buffer -/

theorem fourBytes_eq {b : ByteBuffer} {i : ℕ} (h : i + 4 ≤ b.bytes.length) :
    fourBytes b.bytes i = .ok ((b.bytes.drop i).take 4) := by
  have hfits := b.fits
  have hmax : i + 4 ≤ u64Max := by
    rw [u64Max]
    omega
  rw [fourBytes, checkedNat_of_le hmax]
  change slice b.bytes i (i + 4) = _
  rw [slice_of_le (Nat.le_add_right i 4) h, List.drop_take, Nat.add_sub_cancel_left]

theorem u32FromLe_eq {b : ByteBuffer} {i : ℕ} (h : i + 4 ≤ b.bytes.length) :
    u32FromLe b.bytes i = .ok (u32Le b.bytes i) := by
  rw [u32FromLe, fourBytes_eq h]
  rfl

theorem u32Le_drop (bytes : List UInt8) (base i : ℕ) :
    u32Le (bytes.drop base) i = u32Le bytes (base + i) := by
  rw [u32Le, List.drop_drop, u32Le]

theorem firstPacket_drop (bytes : List UInt8) (base : ℕ) :
    firstPacket (bytes.drop base) =
      ⟨u32Le bytes base, u32Le bytes (base + 4),
        (bytes.drop (base + 16)).take (u32Le bytes (base + 8)).toNat⟩ := by
  simp only [firstPacket, u32Le_drop, List.drop_drop, Nat.add_zero]

/-- The record that is there is read. -/
theorem recordAt_whole {b : ByteBuffer} {base : ℕ} (hwhole : WholeRecord (b.bytes.drop base)) :
    recordAt b.bytes base = .ok (some ((firstPacket (b.bytes.drop base)).taken,
      base + (16 + (u32Le (b.bytes.drop base) 8).toNat))) := by
  obtain ⟨hheader, hincl, hbody⟩ := hwhole
  have hfits := b.fits
  rw [List.length_drop] at hheader hbody
  rw [u32Le_drop] at hincl hbody ⊢
  have hpacket := congrArg CapturedPacket.packet (firstPacket_drop b.bytes base)
  have hmillis := congrArg CapturedPacket.millis (firstPacket_drop b.bytes base)
  obtain ⟨-, hlast⟩ := (firstPacket (b.bytes.drop base)).millis_le
  generalize firstPacket (b.bytes.drop base) = r at *
  dsimp only [CapturedPacket.millis] at hpacket hmillis
  rw [recordAt, u32FromLe_eq (by omega), u32FromLe_eq (by omega), u32FromLe_eq (by omega)]
  dsimp only [bind, Except.bind]
  generalize (u32Le b.bytes (base + 8)).toNat = incl at *
  have hlength : r.packet.length = incl := by
    rw [hpacket, List.length_take, List.length_drop]
    omega
  have hfour : (b.bytes.drop (base + 16)).take 4 = r.packet.take 4 := by
    rw [hpacket, List.take_take, Nat.min_eq_left (by omega)]
  have hfifth : b.bytes[base + 16 + 4]? = some (r.packet.getD 4 0) := by
    rw [← List.getElem?_drop, ← List.getElem?_take_of_lt (show 4 < incl by omega), ← hpacket,
      List.getD_eq_getElem?_getD, List.getElem?_eq_getElem (by omega)]
    rfl
  have hdata : ∀ n ≤ incl - 8, slice b.bytes (base + 16 + 8) (base + 16 + 8 + n) =
      .ok ((r.packet.drop 8).take n) := by
    intro n hn
    rw [slice_of_le (Nat.le_add_right _ n) (by omega), List.drop_take, Nat.add_sub_cancel_left, hpacket,
      List.drop_take, List.drop_drop, List.take_take, Nat.min_eq_left hn]
  rw [checkedNat_of_le (by rw [u64Max]; omega)]
  dsimp only
  rw [if_neg (not_lt.mpr hincl), checkedNat_of_le (by rw [u64Max]; omega)]
  dsimp only
  rw [if_neg (by omega), u32FromBe, fourBytes_eq (by omega), byteAt, hfifth, checkedSub, if_pos hincl]
  dsimp only [Functor.map, Except.map]
  rw [hdata _ (by omega), hfour]
  dsimp only
  have hchecked : checkedNat u64Max (r.seconds.toNat * 1000 + r.micros.toNat / 1000) = .ok r.millis :=
    checkedNat_of_le (hlast.trans (by decide))
  rw [← hmillis, hchecked, CapturedPacket.taken, CapturedPacket.frame, hlength, Nat.add_assoc base]

theorem recordAt_other {b : ByteBuffer} {base : ℕ} (h : base + 16 ≤ b.bytes.length)
    (hother : ¬WholeRecord (b.bytes.drop base)) : recordAt b.bytes base = .ok none := by
  have hfits := b.fits
  have hlt := (u32Le b.bytes (base + 8)).toNat_lt
  rw [WholeRecord, List.length_drop, u32Le_drop] at hother
  rw [recordAt, u32FromLe_eq (by omega), u32FromLe_eq (by omega), u32FromLe_eq (by omega)]
  dsimp only [bind, Except.bind]
  rw [checkedNat_of_le (by rw [u64Max]; omega)]
  dsimp only
  by_cases hincl : (u32Le b.bytes (base + 8)).toNat < 8
  · rw [if_pos hincl]
  · rw [if_neg hincl, checkedNat_of_le (by rw [u64Max]; omega)]
    dsimp only
    rw [if_pos (by omega)]

/-! ## The reader hands out the captures -/

/-- The next source is the next that has a header. -/
theorem advanceSource_eq (sources : List ByteBuffer) :
    (advanceSource sources = .ok none ∧ sources.flatMap ByteBuffer.capture = []) ∨
      ∃ src later, advanceSource sources = .ok (some (src, later)) ∧ 24 ≤ src.bytes.length ∧
        sources.flatMap ByteBuffer.capture =
          capturedPackets (src.bytes.drop 24) ++ later.flatMap ByteBuffer.capture := by
  induction sources with
  | nil => exact .inl ⟨rfl, rfl⟩
  | cons b sources ih =>
      rw [advanceSource, List.flatMap_cons, ByteBuffer.capture]
      by_cases hshort : b.bytes.length < 24
      · rw [if_pos hshort, if_neg fun h => absurd h.1 (not_le.mpr hshort), List.nil_append]
        exact ih
      · rw [if_neg hshort, u32FromLe_eq (by omega)]
        dsimp only
        by_cases hmagic : u32Le b.bytes 0 = PCAP_MAGIC_US
        · rw [if_neg (not_not.mpr hmagic), if_pos ⟨not_lt.mp hshort, hmagic⟩]
          exact .inr ⟨b, sources, rfl, not_lt.mp hshort, rfl⟩
        · rw [if_pos hmagic, if_neg fun h => hmagic h.2, List.nil_append]
          exact ih

namespace PcapPlainReader

/-- The packets that are still to be written. -/
def pending (s : PcapPlainReader) : List CapturedPacket :=
  capturedPackets (s.cur.bytes.drop s.off) ++ s.sources.flatMap ByteBuffer.capture

/-- What a refill does to the output: it stays at the end, and is the line of a packet before. -/
inductive Refills (out : List UInt8) (pos : ℕ) :
    List CapturedPacket → PcapPlainReader × Bool → Prop
  | drained {s : PcapPlainReader} : s.off ≤ s.cur.bytes.length → s.pending = [] → s.out = out →
      s.outPos = pos → Refills out pos [] (s, false)
  | line {s : PcapPlainReader} (r : CapturedPacket) : s.off ≤ s.cur.bytes.length →
      s.out = r.written → s.outPos = 0 → Refills out pos (r :: s.pending) (s, true)

theorem capturedPackets_end {bytes : List UInt8} (h : ¬WholeRecord bytes) :
    capturedPackets bytes = [] := by
  rw [capturedPackets, dif_neg h]

theorem refill_refills {s : PcapPlainReader} (hoff : s.off ≤ s.cur.bytes.length) :
    ∃ o, refill s = .ok o ∧ Refills s.out s.outPos s.pending o := by
  have hfits := fun s : PcapPlainReader => s.cur.fits
  have hnone : ∀ bytes : List UInt8, bytes.length < 16 → capturedPackets bytes = [] := fun bytes h =>
    capturedPackets_end fun hwhole => absurd hwhole.1 (not_le.mpr h)
  fun_induction refill s with
  | case1 s e hbody =>
      have hmax := hfits s
      rw [checkedNat_of_le (by rw [u64Max]; omega)] at hbody
      cases hbody
  | case2 s body hbody hout e hnext =>
      rcases advanceSource_eq s.sources with ⟨h, -⟩ | ⟨src, later, h, -, -⟩
      · cases h.symm.trans hnext
      · cases h.symm.trans hnext
  | case3 s body hbody hout hnext =>
      obtain ⟨-, rfl⟩ := checkedNat_ok_iff.mp hbody
      have hcur := hnone (s.cur.bytes.drop s.off) (by rw [List.length_drop]; omega)
      rcases advanceSource_eq s.sources with ⟨-, hdone⟩ | ⟨src, later, h, -, -⟩
      · have hpending : s.pending = [] := by rw [pending, hcur, hdone, List.nil_append]
        rw [hpending]
        refine ⟨_, rfl, .drained hoff ?_ rfl rfl⟩
        rw [pending]
        exact List.append_eq_nil_iff.mpr ⟨hcur, rfl⟩
      · cases h.symm.trans hnext
  | case4 s body hbody hout src later hnext ih =>
      obtain ⟨-, rfl⟩ := checkedNat_ok_iff.mp hbody
      have hcur := hnone (s.cur.bytes.drop s.off) (by rw [List.length_drop]; omega)
      rcases advanceSource_eq s.sources with ⟨h, -⟩ | ⟨src', later', h, hlen, hcaptures⟩
      · cases h.symm.trans hnext
      · cases h.symm.trans hnext
        obtain ⟨o, ho, hrefills⟩ := ih hlen
        have hpending : s.pending =
            pending { s with sources := later, cur := src, off := 24 } := by
          rw [pending, hcur, hcaptures, List.nil_append]
          rfl
        rw [hpending]
        exact ⟨o, ho, hrefills⟩
  | case5 s body hbody hout e hrec =>
      obtain ⟨-, rfl⟩ := checkedNat_ok_iff.mp hbody
      by_cases hwhole : WholeRecord (s.cur.bytes.drop s.off)
      · cases (recordAt_whole hwhole).symm.trans hrec
      · cases (recordAt_other (not_lt.mp hout) hwhole).symm.trans hrec
  | case6 s body hbody hout hrec ih =>
      obtain ⟨-, rfl⟩ := checkedNat_ok_iff.mp hbody
      by_cases hwhole : WholeRecord (s.cur.bytes.drop s.off)
      · cases (recordAt_whole hwhole).symm.trans hrec
      · obtain ⟨o, ho, hrefills⟩ := ih le_rfl
        have hpending : s.pending = pending { s with off := s.cur.bytes.length } := by
          rw [pending, pending, capturedPackets_end hwhole,
            hnone (s.cur.bytes.drop s.cur.bytes.length) (by rw [List.drop_length]; decide)]
        rw [hpending]
        exact ⟨o, ho, hrefills⟩
  | case7 s body hbody hout frame stop hrec out =>
      obtain ⟨-, rfl⟩ := checkedNat_ok_iff.mp hbody
      by_cases hwhole : WholeRecord (s.cur.bytes.drop s.off)
      · cases (recordAt_whole hwhole).symm.trans hrec
        have hlast := hwhole.2.2
        rw [List.length_drop] at hlast
        have hpending : s.pending = firstPacket (s.cur.bytes.drop s.off) ::
            pending { s with
              off := s.off + (16 + (u32Le (s.cur.bytes.drop s.off) 8).toNat), out, outPos := 0 } := by
          rw [pending, capturedPackets, dif_pos hwhole, List.drop_drop]
          rfl
        rw [hpending]
        refine ⟨_, rfl, .line _ ?_ rfl rfl⟩
        show s.off + (16 + _) ≤ s.cur.bytes.length
        omega
      · cases (recordAt_other (not_lt.mp hout) hwhole).symm.trans hrec

/-- The cursors stay within what they point into. -/
structure Inside (s : PcapPlainReader) : Prop where
  off : s.off ≤ s.cur.bytes.length
  outPos : s.outPos ≤ s.out.length

/-- What is still to be handed out. -/
def left (s : PcapPlainReader) : List UInt8 :=
  s.out.drop s.outPos ++ s.pending.flatMap CapturedPacket.written

/-- One read from the line in hand. -/
theorem read_line {s : PcapPlainReader} (h : s.Inside) (hout : s.outPos < s.out.length) {n : ℕ}
    (hn : 0 < n) :
    ∃ s' piece, read s n = .ok (s', piece) ∧ s'.Inside ∧ s.left = piece ++ s'.left ∧
      piece.length ≤ n ∧ piece ≠ [] := by
  have hpiece : (s.out.take (s.outPos + min (s.out.length - s.outPos) n)).drop s.outPos =
      (s.out.drop s.outPos).take (min (s.out.length - s.outPos) n) := by
    rw [List.drop_take, Nat.add_sub_cancel_left]
  refine ⟨{ s with outPos := s.outPos + min (s.out.length - s.outPos) n },
    (s.out.drop s.outPos).take (min (s.out.length - s.outPos) n), ?_,
    ⟨h.off, by dsimp only; omega⟩, ?_, ?_, ?_⟩
  · rw [read, if_pos hout]
    dsimp only
    rw [slice_of_le (Nat.le_add_right _ _) (by omega), hpiece]
    rfl
  · show s.out.drop s.outPos ++ _ = _ ++ (s.out.drop (s.outPos + _) ++ _)
    rw [← List.append_assoc, ← List.drop_drop, List.take_append_drop]
    rfl
  · rw [List.length_take]
    omega
  · rw [Ne, ← List.length_eq_zero_iff, List.length_take, List.length_drop]
    omega

/-- A read behind a line is one from the next. -/
theorem read_refilled {s s' : PcapPlainReader} {more : Bool} (hout : ¬s.outPos < s.out.length)
    (hrefill : refill s = .ok (s', more)) (n : ℕ) :
    read s n = if more then read s' n else .ok (s', []) := by
  conv_lhs => rw [read, if_neg hout]
  split <;> rename_i heq
  · cases hrefill.symm.trans heq
  · cases hrefill.symm.trans heq
    rfl
  · cases hrefill.symm.trans heq
    rfl

theorem pulls : Pulls read Inside left where
  step := by
    intro s n h hn
    by_cases hout : s.outPos < s.out.length
    · obtain ⟨s', piece, hread, hs', hleft, hshort, hne⟩ := read_line h hout hn
      exact ⟨s', piece, hread, hs', hleft, hshort, fun hnil => absurd hnil hne⟩
    · -- the line is out: the next one, if there is one
      obtain ⟨o, hrefill, ho⟩ := refill_refills h.off
      have hline : s.out.drop s.outPos = [] := List.drop_eq_nil_of_le (not_lt.mp hout)
      rw [left, hline, List.nil_append]
      generalize s.pending = packets at ho ⊢
      cases ho with
      | @drained s' hoff hpending hsame hpos =>
          refine ⟨s', [], read_refilled hout hrefill n, ⟨hoff, ?_⟩, ?_, Nat.zero_le _, fun _ => rfl⟩
          · rw [hsame, hpos]
            exact h.outPos
          · rw [left, hpending, hsame, hpos, hline]
            rfl
      | @line s' r hoff hwritten hpos =>
          have hinside : s'.Inside := ⟨hoff, by rw [hpos]; exact Nat.zero_le _⟩
          have hfull : s'.outPos < s'.out.length := refill_filled hrefill
          obtain ⟨s'', piece, hread', hs'', hleft, hshort, hne⟩ := read_line hinside hfull hn
          refine ⟨s'', piece, (read_refilled hout hrefill n).trans hread', hs'', ?_, hshort, fun hnil => absurd hnil hne⟩
          rw [← hleft, left, hpos, hwritten, List.drop_zero, List.flatMap_cons]

end PcapPlainReader

/-- **Captures are read exactly.** Whatever the buffers hold, and however the reads are cut, the
reader hands out one line for each captured packet, and the parser reads the packet's frame, at the
packet's time, from it. -/
theorem captures_exact (sources : List ByteBuffer) :
    (∀ r : CapturedPacket, Plain.parseLine r.line = pure r.frame ∧ '\n' ∉ r.line ∧
      InstantComesBack (UInt64.ofNat r.millis) ∧ (UInt64.ofNat r.millis).toNat = r.millis) ∧
    ∀ sizes : List ℕ, (∀ n ∈ sizes, 0 < n) →
      ∃ outs, answers PcapPlainReader.read (.new sources) sizes = .ok outs ∧
        HandsOut ((sources.flatMap ByteBuffer.capture).flatMap fun r =>
          utf8Bytes r.line ++ [0x0a]) sizes outs := by
  constructor
  · intro r
    obtain ⟨hmillis, hle⟩ := r.millis_le
    exact ⟨r.parseLine_line, r.newline_not_mem_line,
      instantComesBack (by rw [hmillis]; exact hle), hmillis⟩
  · intro sizes hpos
    have hpulled := PcapPlainReader.pulls.answers
      (s := .new sources) ⟨le_rfl, le_rfl⟩ hpos
    have hleft : (PcapPlainReader.new sources).left =
        (sources.flatMap ByteBuffer.capture).flatMap fun r => utf8Bytes r.line ++ [0x0a] := by
      have hnone : capturedPackets [] = [] := PcapPlainReader.capturedPackets_end (by decide)
      rw [PcapPlainReader.left, PcapPlainReader.pending]
      show [] ++ (capturedPackets [] ++ _).flatMap _ = _
      rw [hnone]
      rfl
    rwa [hleft] at hpulled

/-- A capture of one position frame. -/
def oneRecordPcap : ByteBuffer where
  bytes := [0xd4, 0xc3, 0xb2, 0xa1] ++ List.replicate 20 0 ++
    [0xb1, 0xba, 0x95, 0x59, 0xc0, 0x21, 0x0a, 0x00, 0x10, 0, 0, 0, 0x10, 0, 0, 0,
      0x89, 0xf5, 0x0b, 0x23, 8, 0, 0, 0, 0xff, 0xff, 0xff, 0xff, 0xff, 0x00, 0x00, 0xff]
  fits := by decide

theorem captures_exact_one :
    ∃ outs, answers PcapPlainReader.read (.new [oneRecordPcap]) [50, 50, 50] = .ok outs ∧
      HandsOut (utf8Bytes
        "2017-08-17T15:48:01.664Z,2,128267,35,255,8,ff,ff,ff,ff,ff,00,00,ff\n".toList) [50, 50, 50]
        outs := by
  have hcapture : [oneRecordPcap].flatMap ByteBuffer.capture =
      [firstPacket (oneRecordPcap.bytes.drop 24)] := by
    rw [List.flatMap_singleton, ByteBuffer.capture, if_pos (by decide), capturedPackets,
      dif_pos (by decide), capturedPackets, dif_neg (by decide)]
  have htext : ([oneRecordPcap].flatMap ByteBuffer.capture).flatMap
      (fun r => utf8Bytes r.line ++ [0x0a]) = utf8Bytes
        "2017-08-17T15:48:01.664Z,2,128267,35,255,8,ff,ff,ff,ff,ff,00,00,ff\n".toList := by
    rw [hcapture]
    decide +kernel
  rw [← htext]
  exact (captures_exact [oneRecordPcap]).2 [50, 50, 50] (by decide)

end Canboat
