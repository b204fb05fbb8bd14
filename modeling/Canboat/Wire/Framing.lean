import Canboat.Bridge.Serving
import Canboat.Lib.Incremental
import Canboat.Lib.LittleEndian

/-!
# The frames of the binary stream

Each value is a frame: its length in four bytes, then the bytes that the serializer has for it. The
first frame is the handshake. The serializer is a parameter.
-/

namespace Canboat

def MAX_FRAME_LEN : ℕ := 2 ^ 20

def MAGIC : List UInt8 := [0x43, 0x42, 0x57, 0x31]

def WIRE_VERSION : UInt16 := 2

/-- The serializer for one type, as far as the stream uses it. -/
structure Postcard (α : Type) where
  toAllocvec : α → Option (List UInt8)
  fromBytes : List UInt8 → Option α

/-- What is written is read back. -/
def Postcard.RoundTrips {α : Type} (postcard : Postcard α) : Prop :=
  ∀ value body, postcard.toAllocvec value = some body → postcard.fromBytes body = some value

structure Hello where
  magic : List UInt8
  wireVersion : UInt16
  schemaHash : UInt64
  schemaVersion : String
  canboatVersion : String
  units : UInt8
  deriving DecidableEq

inductive HelloError
  | badMagic (magic : List UInt8)
  | wireVersion (theirs ours : UInt16)
  | schemaHash (theirs ours : UInt64)
  | unknownUnits (code : UInt8)
  deriving DecidableEq

/-- `SCHEMA_HASH` is the hash of the schema that this side was built with. -/
def Hello.verify (SCHEMA_HASH : UInt64) (h : Hello) : Except HelloError Unit :=
  if h.magic ≠ MAGIC then .error (.badMagic h.magic)
  else if h.wireVersion ≠ WIRE_VERSION then .error (.wireVersion h.wireVersion WIRE_VERSION)
  else if h.schemaHash ≠ SCHEMA_HASH then .error (.schemaHash h.schemaHash SCHEMA_HASH)
  else if 1 < h.units then .error (.unknownUnits h.units)
  else .ok ()

/-- A length from `2 ^ 32` on would lose its high bits. -/
def framed (body : List UInt8) : List UInt8 := LittleEndian.encode 4 body.length ++ body

variable {α : Type} (postcard : Postcard α)

def appendFrame (out : List UInt8) (value : α) : Option (List UInt8) :=
  (postcard.toAllocvec value).map fun body => out ++ framed body

inductive FrameError
  | tooLong (len : ℕ)
  | decode
  deriving DecidableEq

/-- The value of the first frame with the length of the frame, or `none` for too few bytes. -/
def tryReadFrame (buf : List UInt8) : Except FrameError (Option (α × ℕ)) :=
  if buf.length < 4 then .ok none
  else
    let len := LittleEndian.decode (buf.take 4)
    if MAX_FRAME_LEN < len then .error (.tooLong len)
    else
      let total := 4 + len
      if buf.length < total then .ok none
      else
        match postcard.fromBytes ((buf.take total).drop 4) with
        | some value => .ok (some (value, total))
        | none => .error .decode

variable {postcard}

theorem length_frame (body : List UInt8) : (framed body).length = 4 + body.length := by
  rw [framed, List.length_append, LittleEndian.length_encode]

theorem decode_take_frame {body : List UInt8} (hlen : body.length < 2 ^ 32) (rest : List UInt8) :
    LittleEndian.decode ((framed body ++ rest).take 4) = body.length := by
  rw [framed, List.append_assoc, List.take_append_of_le_length (by rw [LittleEndian.length_encode]),
    List.take_of_length_le (by rw [LittleEndian.length_encode])]
  exact LittleEndian.decode_encode_of_lt hlen

/-- A frame is read off whatever comes behind it. -/
theorem tryReadFrame_frame {value : α} {body : List UInt8} (hbody : postcard.fromBytes body = some value)
    (hlen : body.length ≤ MAX_FRAME_LEN) (rest : List UInt8) :
    tryReadFrame postcard (framed body ++ rest) = .ok (some (value, (framed body).length)) := by
  have hdecode := @decode_take_frame body (Nat.lt_of_le_of_lt hlen (by decide)) rest
  have htotal : (framed body ++ rest).length = 4 + body.length + rest.length := by
    rw [List.length_append, length_frame]
  have hcut : ((framed body ++ rest).take (4 + body.length)).drop 4 = body := by
    rw [← length_frame, List.take_left, framed]
    exact List.drop_left' (LittleEndian.length_encode 4 _)
  simp only [tryReadFrame, hdecode, hcut, hbody, length_frame]
  rw [if_neg (by omega), if_neg (by omega), if_neg (by omega)]

/-! ## The stream -/

/-- What the receiver waits for. It drops a stream after an error. -/
inductive Awaits
  | hello
  | record
  | nothing
  deriving DecidableEq

inductive WireOutcome (α : Type)
  | hello (h : Hello)
  | record (value : α)
  | error (e : FrameError)

/-- One frame off the buffer: the outcome, and how many bytes go with it. After an error these are
all that the error is about. -/
def receiveFrame {β : Type} (postcard : Postcard β) (received : β → WireOutcome α) (buf : List UInt8) :
    Option (WireOutcome α × ℕ) :=
  match tryReadFrame postcard buf with
  | .ok none => none
  | .ok (some (value, n)) => some (received value, n)
  | .error (.tooLong len) => some (.error (.tooLong len), 4)
  | .error .decode => some (.error .decode, 4 + LittleEndian.decode (buf.take 4))

theorem tryReadFrame_append {buf : List UInt8} (c : List UInt8)
    (h : tryReadFrame postcard buf ≠ .ok none) :
    tryReadFrame postcard (buf ++ c) = tryReadFrame postcard buf ∧ 4 ≤ buf.length := by
  by_cases hshort : buf.length < 4
  · exact absurd (if_pos hshort) h
  have hfour : 4 ≤ buf.length := Nat.not_lt.mp hshort
  have htake : (buf ++ c).take 4 = buf.take 4 := List.take_append_of_le_length hfour
  refine ⟨?_, hfour⟩
  simp only [tryReadFrame, List.length_append, htake] at h ⊢
  rw [if_neg hshort] at h
  rw [if_neg hshort, if_neg (by omega)]
  by_cases hlong : MAX_FRAME_LEN < LittleEndian.decode (buf.take 4)
  · rw [if_pos hlong, if_pos hlong]
  · rw [if_neg hlong] at h
    rw [if_neg hlong, if_neg hlong]
    by_cases hpart : buf.length < 4 + LittleEndian.decode (buf.take 4)
    · exact absurd (if_pos hpart) h
    · rw [if_neg hpart, if_neg (by omega), List.take_append_of_le_length (Nat.not_lt.mp hpart)]

/-- A frame that is read, or that the serializer rejects, is all there. -/
theorem tryReadFrame_cases (buf : List UInt8) :
    tryReadFrame postcard buf = .ok none ∨
      (∃ len, tryReadFrame postcard buf = .error (.tooLong len)) ∨
      4 + LittleEndian.decode (buf.take 4) ≤ buf.length ∧
        (tryReadFrame postcard buf = .error .decode ∨
          ∃ value, tryReadFrame postcard buf =
            .ok (some (value, 4 + LittleEndian.decode (buf.take 4)))) := by
  simp only [tryReadFrame]
  by_cases hshort : buf.length < 4
  · exact .inl (if_pos hshort)
  by_cases hlong : MAX_FRAME_LEN < LittleEndian.decode (buf.take 4)
  · exact .inr (.inl ⟨_, by rw [if_neg hshort, if_pos hlong]⟩)
  by_cases hpart : buf.length < 4 + LittleEndian.decode (buf.take 4)
  · exact .inl (by rw [if_neg hshort, if_neg hlong, if_pos hpart])
  rw [if_neg hshort, if_neg hlong, if_neg hpart]
  refine .inr (.inr ⟨Nat.not_lt.mp hpart, ?_⟩)
  cases postcard.fromBytes ((buf.take (4 + LittleEndian.decode (buf.take 4))).drop 4) with
  | none => exact .inl rfl
  | some value => exact .inr ⟨value, rfl⟩

/-- An outcome takes bytes, and stays what it is whatever comes behind. -/
theorem receiveFrame_final {β : Type} {postcard : Postcard β} {received : β → WireOutcome α}
    {buf : List UInt8} {e : WireOutcome α} {n : ℕ}
    (h : receiveFrame postcard received buf = some (e, n)) :
    (0 < n ∧ n ≤ buf.length) ∧
      ∀ c, receiveFrame postcard received (buf ++ c) = some (e, n) := by
  have hmore : tryReadFrame postcard buf ≠ .ok none := by
    intro hnone
    rw [receiveFrame, hnone] at h
    cases h
  have hfour : 4 ≤ buf.length := (tryReadFrame_append [] hmore).2
  constructor
  · rw [receiveFrame] at h
    obtain hnone | ⟨len, hlong⟩ | ⟨hall, hdecode | ⟨value, hread⟩⟩ := tryReadFrame_cases buf
    · exact absurd hnone hmore
    · rw [hlong] at h
      cases h
      exact ⟨by decide, hfour⟩
    · rw [hdecode] at h
      cases h
      exact ⟨Nat.lt_of_lt_of_le (by decide) (Nat.le_add_right 4 _), hall⟩
    · rw [hread] at h
      cases h
      exact ⟨Nat.lt_of_lt_of_le (by decide) (Nat.le_add_right 4 _), hall⟩
  · intro c
    obtain ⟨hsame, -⟩ := tryReadFrame_append c hmore
    rw [receiveFrame, hsame, List.take_append_of_le_length hfour]
    exact h

variable (SCHEMA_HASH : UInt64) (helloPostcard : Postcard Hello) (recordPostcard : Postcard α)

/-- Reads the handshake and then records. -/
def binaryStream : Incremental Awaits UInt8 (WireOutcome α) where
  parse
    | .hello, buf => receiveFrame helloPostcard .hello buf
    | .record, buf => receiveFrame recordPostcard .record buf
    | .nothing, _ => none
  next s
    | .hello h => if h.verify SCHEMA_HASH = .ok () then .record else .nothing
    | .record _ => s
    | .error _ => .nothing
  consumes := by
    intro s buf e n h
    cases s with
    | hello => exact (receiveFrame_final h).1
    | record => exact (receiveFrame_final h).1
    | nothing => cases h
  stable := by
    intro s buf e n c h
    cases s with
    | hello => exact (receiveFrame_final h).2 c
    | record => exact (receiveFrame_final h).2 c
    | nothing => cases h

variable {SCHEMA_HASH helloPostcard recordPostcard}

/-- The frame that a value is sent as. -/
def IsFrame (postcard : Postcard α) (value : α) (wire : List UInt8) : Prop :=
  ∃ body, postcard.toAllocvec value = some body ∧ body.length ≤ MAX_FRAME_LEN ∧ wire = framed body

theorem receiveFrame_isFrame {β : Type} {postcard : Postcard β} (hpost : postcard.RoundTrips)
    {received : β → WireOutcome α} {value : β} {wire : List UInt8} (h : IsFrame postcard value wire)
    (rest : List UInt8) :
    receiveFrame postcard received (wire ++ rest) = some (received value, wire.length) := by
  obtain ⟨body, hbody, hlen, rfl⟩ := h
  rw [receiveFrame, tryReadFrame_frame (hpost value body hbody) hlen]

/-- What is to be read from the records of some frames. -/
def recordsRead (items : List (α × List UInt8)) : List (WireOutcome α) :=
  items.map fun item => .record item.1

/-- A whole stream in one piece. -/
theorem drain_frames (hhello : helloPostcard.RoundTrips) (hrecord : recordPostcard.RoundTrips)
    {h : Hello} (hverify : h.verify SCHEMA_HASH = .ok ()) {opening : List UInt8}
    (hopening : IsFrame helloPostcard h opening) {items : List (α × List UInt8)}
    (hitems : ∀ item ∈ items, IsFrame recordPostcard item.1 item.2) :
    (binaryStream SCHEMA_HASH helloPostcard recordPostcard).drain .hello
        (opening ++ (items.map Prod.snd).flatten) =
      (.hello h :: recordsRead items, .record, []) := by
  have hparse : (binaryStream SCHEMA_HASH helloPostcard recordPostcard).parse .hello
      (opening ++ (items.map Prod.snd).flatten) = some (.hello h, opening.length) :=
    receiveFrame_isFrame hhello hopening _
  have hnext : (binaryStream SCHEMA_HASH helloPostcard recordPostcard).next .hello (.hello h) =
      .record := if_pos hverify
  have hrest : (binaryStream SCHEMA_HASH helloPostcard recordPostcard).drain .record
      (items.flatMap Prod.snd) = (recordsRead items, .record, []) :=
    Incremental.drain_flatten (fun item hitem c => receiveFrame_isFrame hrecord (hitems item hitem) c)
      fun _ _ => rfl
  rw [Incremental.drain_of_parse hparse, List.drop_left, hnext, ← List.flatMap_def, hrest]

/-! ## From the server to the receiver -/

variable (SCHEMA_HASH helloPostcard recordPostcard) in
/-- What a receiver makes of the pieces. -/
def wireOutcomes (pieces : List (List UInt8)) : List (WireOutcome α) × Awaits × List UInt8 :=
  pieces.foldl (binaryStream SCHEMA_HASH helloPostcard recordPostcard).read ([], .hello, [])

theorem wireOutcomes_eq (pieces : List (List UInt8)) :
    wireOutcomes SCHEMA_HASH helloPostcard recordPostcard pieces =
      (binaryStream SCHEMA_HASH helloPostcard recordPostcard).drain .hello pieces.flatten := by
  rw [wireOutcomes, Incremental.read_pieces]

/-- The records of some lines. -/
theorem exists_items {lines : List (List UInt8)}
    (h : ∀ line ∈ lines, ∃ value, IsFrame recordPostcard value line) :
    ∃ items : List (α × List UInt8), items.map Prod.snd = lines ∧
      ∀ item ∈ items, IsFrame recordPostcard item.1 item.2 := by
  induction lines with
  | nil => exact ⟨[], rfl, nofun⟩
  | cons line lines ih =>
      obtain ⟨⟨value, hvalue⟩, hlines⟩ := List.forall_mem_cons.mp h
      obtain ⟨items, hitems, hall⟩ := ih hlines
      refine ⟨(value, line) :: items, by rw [List.map_cons, hitems], ?_⟩
      exact List.forall_mem_cons.mpr ⟨hvalue, hall⟩

/-- The serializer of one handshake. -/
def helloOnly (h : Hello) (body : List UInt8) : Postcard Hello where
  toAllocvec value := if value = h then some body else none
  fromBytes bytes := if bytes = body then some h else none

theorem helloOnly_roundTrips (h : Hello) (body : List UInt8) : (helloOnly h body).RoundTrips := by
  intro value bytes hbytes
  rw [helloOnly] at hbytes ⊢
  dsimp only at hbytes ⊢
  split_ifs at hbytes with hvalue
  cases hbytes
  rw [if_pos rfl, hvalue]

/-- The serializer of one byte. -/
def bytePostcard : Postcard UInt8 where
  toAllocvec b := some [b]
  fromBytes
    | [b] => some b
    | _ => none

theorem bytePostcard_roundTrips : bytePostcard.RoundTrips := by
  intro value bytes hbytes
  cases hbytes
  rfl

theorem bytePostcard_isFrame (b : UInt8) : IsFrame bytePostcard b [1, 0, 0, 0, b] :=
  ⟨[b], rfl, show 1 ≤ 2 ^ 20 by decide, show _ = LittleEndian.encode 4 1 ++ [b] from rfl⟩

def plainHello : Hello := ⟨MAGIC, WIRE_VERSION, 3, "", "", 0⟩

end Canboat
