import Canboat.Bridge.NmeaFilter
import Canboat.Bridge.Server
import Canboat.Bridge.Serving
import Canboat.Core.Utf8
import Canboat.Lib.Incremental

/-!
# The input port

Each client has a thread of its own, which reads lines and sends the frames on: to the device, and
then back into the pipeline. The clients, the claim of the address and the ends of the two channels
come in any order.
-/

namespace Canboat

open Checked

/-! ## Lines -/

/-- A line without the end that it is read with. -/
def chopCarriageReturn (line : List UInt8) : List UInt8 :=
  if line.getLast? = some 0x0d then line.dropLast else line

/-- `lines()` of a buffered reader, but for the last line. -/
def lineReader : Incremental Unit UInt8 (List UInt8) where
  parse _ buf :=
    let n := (buf.takeWhile (· ≠ 0x0a)).length
    if n < buf.length then some (chopCarriageReturn (buf.take n), n + 1) else none
  next _ _ := ()
  consumes := by
    intro s buf e n h
    dsimp only at h
    split_ifs at h with hlt
    cases h
    exact ⟨Nat.succ_pos _, hlt⟩
  stable := by
    intro s buf e n c h
    dsimp only at h ⊢
    split_ifs at h with hlt
    cases h
    have hsame : (buf ++ c).takeWhile (· ≠ 0x0a) = buf.takeWhile (· ≠ 0x0a) := by
      rw [List.takeWhile_append, if_neg (Nat.ne_of_lt hlt)]
    rw [hsame, List.length_append, if_pos (by omega), List.take_append_of_le_length (by omega)]

/-- The next line and what is behind it. A stream that is closed ends with a line. -/
def nextLine (closed : Bool) (buf : List UInt8) : Option (List UInt8 × List UInt8) :=
  match lineReader.parse () buf with
  | some (line, n) => some (line, buf.drop n)
  | none => if closed = true ∧ buf ≠ [] then some (buf, []) else none

/-! ## A line -/

/-- The frame that a line stands for, if it is one to forward. -/
def plainFrame (line : List Char) : Except Fault (Option RawFrame) :=
  let trimmed := trimNewlines line
  if trimmed = [] ∨ trimmed.head? = some '#' then .ok none
  -- sentences of a gateway
  else if trimmed.head? = some '$' ∨ trimmed.head? = some '!' then .ok none
  else do
    match ← (Plain.parseLine trimmed).run with
    | .ok frame =>
        if frame.pgn = NmeaFilter.PGN_NMEA0183_FILTER ∨ frame.pgn = PGN_PGN_OVERRIDE then .ok none
        else .ok (some frame)
    | .error _ => .ok none

/-- A source that is none becomes the address that is claimed. -/
def rewriteSrc (claimAddr : Option UInt8) (frame : RawFrame) : RawFrame :=
  if frame.src = 0 ∨ frame.src = 255 then
    match claimAddr with
    | some live => if live ≠ CLAIM_UNCLAIMED then { frame with src := live } else frame
    | none => frame
  else frame

/-! ## The port -/

/-- Where a client's thread is. -/
inductive InboundStage
  | reading
  /-- The frame goes to the device next. -/
  | sending (frame : RawFrame)
  /-- The device has the frame, the pipeline does not yet. -/
  | looping (frame : RawFrame)
  | gone
  deriving DecidableEq

structure InboundClient where
  unread : List UInt8
  closed : Bool
  stage : InboundStage
  deriving DecidableEq

def InboundClient.new : InboundClient := { unread := [], closed := false, stage := .reading }

/-- What is sent stands with the client that it comes from. -/
structure InputPort where
  device : List (ℕ × RawFrame)
  loopback : List (ℕ × RawFrame)
  writerGone : Bool
  pipelineGone : Bool
  claimAddr : Option UInt8
  clients : List InboundClient
  deriving DecidableEq

inductive InputEvent
  | connect
  | bytes (id : ℕ) (piece : List UInt8)
  | close (id : ℕ)
  /-- The read from the client fails. -/
  | fail (id : ℕ)
  /-- The client's thread has a turn. -/
  | turn (id : ℕ)
  | claim (addr : UInt8)
  | writerEnds
  | pipelineEnds

namespace InputPort

def new (claimAddr : Option UInt8) : InputPort where
  device := []
  loopback := []
  writerGone := false
  pipelineGone := false
  claimAddr := claimAddr
  clients := []

def setClient (s : InputPort) (id : ℕ) (c : InboundClient) : InputPort :=
  { s with clients := s.clients.set id c }

/-- A line is read, and its frame gets its source. -/
def readLine (s : InputPort) (c : InboundClient) : Option InboundClient :=
  match nextLine c.closed c.unread with
  -- the end of the stream
  | none => if c.closed = true then some { c with stage := .gone } else none
  | some (line, rest) =>
      match (fromUtf8 line).map plainFrame with
      | none => some { c with unread := rest, stage := .gone }
      | some (.error _) => some { c with unread := rest, stage := .gone }
      | some (.ok none) => some { c with unread := rest }
      | some (.ok (some frame)) =>
          some { c with unread := rest, stage := .sending (rewriteSrc s.claimAddr frame) }

/-- One turn of `run_inbound_reader`, `none` while it waits. -/
def turn (s : InputPort) (id : ℕ) (c : InboundClient) : Option InputPort :=
  match c.stage with
  | .reading => (s.readLine c).map (s.setClient id)
  | .sending frame =>
      if s.writerGone then some (s.setClient id { c with stage := .gone })
      else some { s.setClient id { c with stage := .looping frame } with
        device := s.device ++ [(id, frame)] }
  | .looping frame =>
      if s.pipelineGone then some (s.setClient id { c with stage := .gone })
      else some { s.setClient id { c with stage := .reading } with
        loopback := s.loopback ++ [(id, frame)] }
  | .gone => none

def step (s : InputPort) : InputEvent → Option InputPort
  | .connect => some { s with clients := s.clients ++ [.new] }
  | .bytes id piece =>
      s.clients[id]?.bind fun c =>
        if c.closed then none else some (s.setClient id { c with unread := c.unread ++ piece })
  | .close id => s.clients[id]?.map fun c => s.setClient id { c with closed := true }
  | .fail id =>
      s.clients[id]?.bind fun c =>
        if c.stage = .reading then some (s.setClient id { c with stage := .gone }) else none
  | .turn id => s.clients[id]?.bind (s.turn id)
  -- only some backends publish an address
  | .claim addr => s.claimAddr.map fun _ => { s with claimAddr := some addr }
  | .writerEnds => some { s with writerGone := true }
  | .pipelineEnds => some { s with pipelineGone := true }

def run (s : InputPort) : List InputEvent → Option InputPort
  | [] => some s
  | e :: es => (s.step e).bind (·.run es)

/-- What has come from a client. -/
def received (id : ℕ) (es : List InputEvent) : List UInt8 :=
  es.flatMap fun e => match e with
    | .bytes id' piece => if id' = id then piece else []
    | _ => []

/-- The addresses that were claimed since. -/
def claims (es : List InputEvent) : List (Option UInt8) :=
  es.filterMap fun e => match e with
    | .claim addr => some (some addr)
    | _ => none

/-- What is in a channel from a client. -/
def ofClient (id : ℕ) (channel : List (ℕ × RawFrame)) : List RawFrame :=
  (channel.filter (·.1 = id)).map (·.2)

variable {id id' : ℕ}

@[simp] theorem ofClient_nil : ofClient id [] = [] := rfl

theorem ofClient_self (channel : List (ℕ × RawFrame)) (frame : RawFrame) :
    ofClient id (channel ++ [(id, frame)]) = ofClient id channel ++ [frame] := by
  simp [ofClient, List.filter_append]

theorem ofClient_other (h : id' ≠ id) (channel : List (ℕ × RawFrame)) (frame : RawFrame) :
    ofClient id (channel ++ [(id', frame)]) = ofClient id channel := by
  simp [ofClient, List.filter_append, h]

end InputPort

/-! ## What has been read of a stream -/

/-- All lines of a stream. -/
def streamLines (closed : Bool) (bytes : List UInt8) : List (List UInt8) :=
  let d := lineReader.drain () bytes
  if closed = true ∧ d.2.2 ≠ [] then d.1 ++ [d.2.2] else d.1

/-- So many lines have been read, and this is unread. -/
inductive ReadLines (closed : Bool) (got unread : List UInt8) (done : List (List UInt8)) : Prop
  | running (h : lineReader.drain () got =
      (done ++ (lineReader.drain () unread).1, (lineReader.drain () unread).2))
  /-- The last line had no end. -/
  | ended (hclosed : closed = true) (hdone : done = streamLines closed got) (hunread : unread = [])

section

variable {closed : Bool} {got unread line rest : List UInt8} {done : List (List UInt8)}

theorem drain_begins_streamLines (closed : Bool) (bytes : List UInt8) :
    (lineReader.drain () bytes).1 <+: streamLines closed bytes := by
  rw [streamLines]
  split_ifs
  · exact List.prefix_append _ _
  · exact List.prefix_refl _

theorem streamLines_begins {bytes : List UInt8} (h : got <+: bytes) (closed : Bool) :
    streamLines false got <+: streamLines closed bytes :=
  (lineReader.drain_begins () h).trans (drain_begins_streamLines closed bytes)

theorem ReadLines.begins (h : ReadLines closed got unread done) : done <+: streamLines closed got := by
  cases h with
  | running h =>
      have hle := drain_begins_streamLines closed got
      rw [h] at hle
      exact (List.prefix_append _ _).trans hle
  | ended _ hdone _ => exact hdone ▸ List.prefix_refl _

/-- Nothing more to read. -/
theorem ReadLines.all (h : ReadLines closed got unread done) (hnone : nextLine closed unread = none) :
    done = streamLines closed got := by
  cases h with
  | running h =>
      rw [nextLine] at hnone
      cases hparse : lineReader.parse () unread with
      | some r =>
          rw [hparse] at hnone
          cases hnone
      | none =>
          rw [hparse] at hnone
          have hopen : ¬(closed = true ∧ unread ≠ []) := by
            intro hlast
            rw [if_pos hlast] at hnone
            cases hnone
          rw [Incremental.drain_of_parse_none hparse, List.append_nil] at h
          rw [streamLines, h]
          exact (if_neg hopen).symm
  | ended _ hdone _ => exact hdone

theorem ReadLines.next (h : ReadLines closed got unread done)
    (hnext : nextLine closed unread = some (line, rest)) :
    ReadLines closed got rest (done ++ [line]) := by
  cases h with
  | running h =>
      rw [nextLine] at hnext
      cases hparse : lineReader.parse () unread with
      | some r =>
          rw [hparse] at hnext
          cases hnext
          apply ReadLines.running
          rw [h, Incremental.drain_of_parse hparse, List.append_assoc]
          rfl
      | none =>
          rw [hparse] at hnext
          dsimp only at hnext
          split_ifs at hnext with hlast
          cases hnext
          rw [Incremental.drain_of_parse_none hparse, List.append_nil] at h
          refine .ended hlast.1 ?_ rfl
          rw [streamLines, h]
          exact (if_pos hlast).symm
  | ended _ _ hunread =>
      rw [hunread, nextLine, Incremental.parse_nil] at hnext
      dsimp only at hnext
      split_ifs at hnext with hlast
      exact absurd rfl hlast.2

theorem ReadLines.piece (h : ReadLines false got unread done) (piece : List UInt8) :
    ReadLines false (got ++ piece) (unread ++ piece) done := by
  cases h with
  | running h =>
      apply ReadLines.running
      rw [Incremental.drain_append, Incremental.drain_append, h, Incremental.read, Incremental.read,
        List.append_assoc]
  | ended hclosed _ _ => cases hclosed

theorem ReadLines.close (h : ReadLines closed got unread done) : ReadLines true got unread done := by
  cases h with
  | running h => exact .running h
  | ended hclosed hdone hunread => exact .ended rfl (hclosed ▸ hdone) hunread

end

/-! ## What has been sent of it -/

/-- The frame of a line as it was read. -/
def lineFrame (line : List UInt8) : Option RawFrame :=
  match (fromUtf8 line).map plainFrame with
  | some (.ok frame) => frame
  | _ => none

def framesOf (lines : List (List UInt8)) : List RawFrame := lines.filterMap lineFrame

/-- The frame with the source it had, or with one of the addresses. -/
def SendsAs (held : List (Option UInt8)) (frame sent : RawFrame) : Prop :=
  ∃ claimAddr ∈ held, sent = rewriteSrc claimAddr frame

/-- What has come of a client's stream: its frames are with the device in the order of its lines,
and with the pipeline in the same order, one of them at most on its way there. -/
inductive Accounts (held : List (Option UInt8)) (got : List UInt8) (device loopback : List RawFrame)
    (c : InboundClient) : Prop
  | reading {done : List (List UInt8)} (hstage : c.stage = .reading)
      (hreads : ReadLines c.closed got c.unread done)
      (hsent : List.Forall₂ (SendsAs held) (framesOf done) device) (hloop : loopback = device)
  | sending {done : List (List UInt8)} {frame : RawFrame} (hstage : c.stage = .sending frame)
      (hreads : ReadLines c.closed got c.unread done)
      (hsent : List.Forall₂ (SendsAs held) (framesOf done) (device ++ [frame]))
      (hloop : loopback = device)
  | looping {done : List (List UInt8)} {frame : RawFrame} (hstage : c.stage = .looping frame)
      (hreads : ReadLines c.closed got c.unread done)
      (hsent : List.Forall₂ (SendsAs held) (framesOf done) device)
      (hloop : device = loopback ++ [frame])
  | gone {sent : List RawFrame} (hstage : c.stage = .gone)
      (hbegins : sent <+: framesOf (streamLines c.closed got))
      (hsent : List.Forall₂ (SendsAs held) sent device) (hloop : loopback <+: device)
      (hlength : device.length ≤ loopback.length + 1)

theorem framesOf_begins {lines more : List (List UInt8)} (h : lines <+: more) :
    framesOf lines <+: framesOf more := by
  obtain ⟨rest, rfl⟩ := h
  rw [framesOf, framesOf, List.filterMap_append]
  exact List.prefix_append _ _

namespace Accounts

variable {held held' : List (Option UInt8)} {got : List UInt8} {device loopback : List RawFrame}
  {c : InboundClient}

theorem new (held : List (Option UInt8)) : Accounts held [] [] [] .new :=
  @reading _ _ _ _ _ [] rfl (.running rfl) .nil rfl

theorem mono (h : Accounts held got device loopback c) (hsub : ∀ a ∈ held, a ∈ held') :
    Accounts held' got device loopback c := by
  have hsends : ∀ f g, SendsAs held f g → SendsAs held' f g := by
    rintro f g ⟨a, ha, hg⟩
    exact ⟨a, hsub a ha, hg⟩
  cases h with
  | reading hstage hreads hsent hloop => exact .reading hstage hreads (hsent.imp hsends) hloop
  | sending hstage hreads hsent hloop => exact .sending hstage hreads (hsent.imp hsends) hloop
  | looping hstage hreads hsent hloop => exact .looping hstage hreads (hsent.imp hsends) hloop
  | gone hstage hbegins hsent hloop hlength =>
      exact .gone hstage hbegins (hsent.imp hsends) hloop hlength

/-- The channels hold what is to be held, whatever the stage. -/
theorem sent_begins (h : Accounts held got device loopback c) :
    ∃ sent, sent <+: framesOf (streamLines c.closed got) ∧
      List.Forall₂ (SendsAs held) sent device ∧ loopback <+: device ∧
      device.length ≤ loopback.length + 1 := by
  cases h with
  | reading _ hreads hsent hloop =>
      exact ⟨_, framesOf_begins hreads.begins, hsent, hloop ▸ List.prefix_refl _,
        hloop ▸ Nat.le_succ _⟩
  | @sending done frame _ hreads hsent hloop =>
      refine ⟨_, ?_, List.forall₂_take_append _ _ _ hsent, hloop ▸ List.prefix_refl _,
        hloop ▸ Nat.le_succ _⟩
      exact (List.take_prefix _ _).trans (framesOf_begins hreads.begins)
  | looping _ hreads hsent hloop =>
      refine ⟨_, framesOf_begins hreads.begins, hsent, hloop ▸ List.prefix_append _ _, ?_⟩
      rw [hloop, List.length_append, List.length_singleton]
  | gone _ hbegins hsent hloop hlength => exact ⟨_, hbegins, hsent, hloop, hlength⟩

/-- The thread ends. -/
theorem leave (h : Accounts held got device loopback c) (unread : List UInt8) :
    Accounts held got device loopback { c with unread, stage := .gone } := by
  obtain ⟨sent, hbegins, hsent, hloop, hlength⟩ := h.sent_begins
  exact .gone rfl hbegins hsent hloop hlength

theorem piece (h : Accounts held got device loopback c) (hopen : c.closed = false)
    (piece : List UInt8) :
    Accounts held (got ++ piece) device loopback { c with unread := c.unread ++ piece } := by
  cases h with
  | reading hstage hreads hsent hloop =>
      rw [hopen] at hreads
      exact .reading hstage (hopen ▸ hreads.piece piece) hsent hloop
  | sending hstage hreads hsent hloop =>
      rw [hopen] at hreads
      exact .sending hstage (hopen ▸ hreads.piece piece) hsent hloop
  | looping hstage hreads hsent hloop =>
      rw [hopen] at hreads
      exact .looping hstage (hopen ▸ hreads.piece piece) hsent hloop
  | gone hstage hbegins hsent hloop hlength =>
      rw [hopen] at hbegins
      have hmore := framesOf_begins (streamLines_begins (List.prefix_append got piece) c.closed)
      exact .gone hstage (hbegins.trans hmore) hsent hloop hlength

theorem close (h : Accounts held got device loopback c) :
    Accounts held got device loopback { c with closed := true } := by
  cases h with
  | reading hstage hreads hsent hloop => exact .reading hstage hreads.close hsent hloop
  | sending hstage hreads hsent hloop => exact .sending hstage hreads.close hsent hloop
  | looping hstage hreads hsent hloop => exact .looping hstage hreads.close hsent hloop
  | gone hstage hbegins hsent hloop hlength =>
      refine .gone hstage (hbegins.trans (framesOf_begins ?_)) hsent hloop hlength
      cases hclosed : c.closed with
      | false => exact streamLines_begins (List.prefix_refl got) true
      | true => exact List.prefix_refl _

/-- One line more, or the end of the stream. -/
theorem readLine {s : InputPort} {c' : InboundClient} (h : Accounts held got device loopback c)
    (hstage : c.stage = .reading) (hclaim : s.claimAddr ∈ held) (hc : s.readLine c = some c') :
    Accounts held got device loopback c' := by
  rw [InputPort.readLine] at hc
  cases hnext : nextLine c.closed c.unread with
  | none =>
      rw [hnext] at hc
      dsimp only at hc
      split_ifs at hc
      cases hc
      exact h.leave c.unread
  | some next =>
      obtain ⟨line, rest⟩ := next
      rw [hnext] at hc
      dsimp only at hc
      cases h with
      | @reading done _ hreads hsent hloop =>
          have hframes : framesOf (done ++ [line]) = framesOf done ++ (lineFrame line).toList := by
            rw [framesOf, List.filterMap_append]
            cases hframe : lineFrame line <;> simp [framesOf, hframe]
          have hnow := hreads.next hnext
          cases hplain : (fromUtf8 line).map plainFrame with
          | none =>
              rw [hplain] at hc
              cases hc
              exact (reading hstage hreads hsent hloop).leave rest
          | some frame =>
              rw [hplain] at hc
              rcases frame with e | - | frame
              · cases hc
                exact (reading hstage hreads hsent hloop).leave rest
              · cases hc
                rw [lineFrame, hplain, Option.toList_none, List.append_nil] at hframes
                exact .reading hstage hnow (hframes ▸ hsent) hloop
              · cases hc
                rw [lineFrame, hplain] at hframes
                refine .sending rfl hnow ?_ hloop
                rw [hframes]
                exact List.rel_append hsent (.cons ⟨_, hclaim, rfl⟩ .nil)
      | sending hother _ _ _ => cases hstage.symm.trans hother
      | looping hother _ _ _ => cases hstage.symm.trans hother
      | gone hother _ _ _ _ => cases hstage.symm.trans hother

/-- All that came has been sent. -/
theorem all (h : Accounts held got device loopback c) (hstage : c.stage = .reading)
    (hnone : nextLine c.closed c.unread = none) :
    List.Forall₂ (SendsAs held) (framesOf (streamLines c.closed got)) device ∧
      loopback = device := by
  cases h with
  | reading _ hreads hsent hloop =>
      rw [← hreads.all hnone]
      exact ⟨hsent, hloop⟩
  | sending hother _ _ _ => cases hstage.symm.trans hother
  | looping hother _ _ _ => cases hstage.symm.trans hother
  | gone hother _ _ _ _ => cases hstage.symm.trans hother

end Accounts

/-! ## Runs -/

namespace InputPort

/-- Every client's channels are accounted for, and a client to come has sent nothing. -/
structure Books (s : InputPort) (held : List (Option UInt8)) (got : ℕ → List UInt8) : Prop where
  claim : s.claimAddr ∈ held
  client : ∀ {id c}, s.clients[id]? = some c →
    Accounts held (got id) (ofClient id s.device) (ofClient id s.loopback) c
  fresh : ∀ {id}, s.clients.length ≤ id →
    got id = [] ∧ ofClient id s.device = [] ∧ ofClient id s.loopback = []

variable {s s' : InputPort} {held : List (Option UInt8)} {got : ℕ → List UInt8} {id : ℕ}
  {c c' : InboundClient}

theorem books_new (claimAddr : Option UInt8) : (new claimAddr).Books [claimAddr] fun _ => [] where
  claim := List.mem_singleton_self _
  client h := by cases h
  fresh _ := ⟨rfl, rfl, rfl⟩

/-- A client is in another state. What the others have sent stays. -/
theorem Books.setClient (hb : s.Books held got) (hc : s.clients[id]? = some c)
    (hclients : s'.clients = s.clients.set id c') (hclaim : s'.claimAddr = s.claimAddr)
    {got' : ℕ → List UInt8}
    (hothers : ∀ {id'}, id' ≠ id → got' id' = got id' ∧ ofClient id' s'.device = ofClient id' s.device ∧
      ofClient id' s'.loopback = ofClient id' s.loopback)
    (h : Accounts held (got' id) (ofClient id s'.device) (ofClient id s'.loopback) c') :
    s'.Books held got' := by
  have hlt : id < s.clients.length := (List.getElem?_eq_some_iff.mp hc).1
  constructor
  · exact hclaim ▸ hb.claim
  · intro id' c'' hc''
    rw [hclients] at hc''
    by_cases hid : id' = id
    · subst hid
      rw [List.getElem?_set_self hlt] at hc''
      cases hc''
      exact h
    · rw [List.getElem?_set_ne (Ne.symm hid)] at hc''
      obtain ⟨hgot, hdevice, hloop⟩ := hothers hid
      rw [hgot, hdevice, hloop]
      exact hb.client hc''
  · intro id' hlength
    rw [hclients, List.length_set] at hlength
    have hne : id' ≠ id := by omega
    obtain ⟨hgot, hdevice, hloop⟩ := hothers hne
    rw [hgot, hdevice, hloop]
    exact hb.fresh hlength

/-- Nothing is sent. -/
theorem Books.moved (hb : s.Books held got) (hc : s.clients[id]? = some c)
    (h : Accounts held (got id) (ofClient id s.device) (ofClient id s.loopback) c') :
    (s.setClient id c').Books held got := by
  apply hb.setClient hc
  · rfl
  · rfl
  · intro id' _
    exact ⟨rfl, rfl, rfl⟩
  · exact h

theorem Books.turn (hb : s.Books held got) (hc : s.clients[id]? = some c)
    (hs : s.turn id c = some s') : s'.Books held got := by
  have hnow := hb.client hc
  rw [InputPort.turn] at hs
  cases hstage : c.stage with
  | reading =>
      rw [hstage] at hs
      obtain ⟨c', hread, rfl⟩ := Option.map_eq_some_iff.mp hs
      exact hb.moved hc (hnow.readLine hstage hb.claim hread)
  | sending frame =>
      rw [hstage] at hs
      dsimp only at hs
      split_ifs at hs
      · cases hs
        exact hb.moved hc (hnow.leave c.unread)
      · cases hs
        apply hb.setClient hc
        · rfl
        · rfl
        · intro id' hid
          exact ⟨rfl, ofClient_other (Ne.symm hid) _ _, rfl⟩
        cases hnow with
        | sending hsame hreads hsent hloop =>
            cases hstage.symm.trans hsame
            refine .looping rfl hreads ?_ ?_
            · rw [ofClient_self]
              exact hsent
            · rw [ofClient_self, ← hloop]
              rfl
        | reading hother _ _ _ => cases hstage.symm.trans hother
        | looping hother _ _ _ => cases hstage.symm.trans hother
        | gone hother _ _ _ _ => cases hstage.symm.trans hother
  | looping frame =>
      rw [hstage] at hs
      dsimp only at hs
      split_ifs at hs
      · cases hs
        exact hb.moved hc (hnow.leave c.unread)
      · cases hs
        apply hb.setClient hc
        · rfl
        · rfl
        · intro id' hid
          exact ⟨rfl, rfl, ofClient_other (Ne.symm hid) _ _⟩
        cases hnow with
        | looping hsame hreads hsent hloop =>
            cases hstage.symm.trans hsame
            refine .reading rfl hreads hsent ?_
            rw [ofClient_self]
            exact hloop.symm
        | reading hother _ _ _ => cases hstage.symm.trans hother
        | sending hother _ _ _ => cases hstage.symm.trans hother
        | gone hother _ _ _ _ => cases hstage.symm.trans hother
  | gone =>
      rw [hstage] at hs
      cases hs

theorem Books.step (hb : s.Books held got) {e : InputEvent} (hs : s.step e = some s') :
    s'.Books (held ++ claims [e]) fun id => got id ++ received id [e] := by
  have hquiet : claims [e] = [] → (∀ id, received id [e] = []) → s'.Books held got →
      s'.Books (held ++ claims [e]) fun id => got id ++ received id [e] := by
    intro hclaims hpieces hbooks
    simpa only [hclaims, hpieces, List.append_nil] using hbooks
  cases e with
  | connect =>
      cases hs
      refine hquiet rfl (fun _ => rfl) ⟨hb.claim, ?_, ?_⟩
      · intro id c hc
        by_cases hold : id < s.clients.length
        · rw [List.getElem?_append_left hold] at hc
          exact hb.client hc
        · rw [List.getElem?_append_right (Nat.not_lt.mp hold)] at hc
          obtain ⟨hgot, hdevice, hloop⟩ := hb.fresh (Nat.not_lt.mp hold)
          obtain rfl := List.mem_singleton.mp (List.mem_of_getElem? hc)
          rw [hgot, hdevice, hloop]
          exact .new held
      · intro id hlength
        rw [List.length_append] at hlength
        exact hb.fresh (Nat.le_of_add_right_le hlength)
  | bytes id piece =>
      obtain ⟨c, hc, hs⟩ := Option.bind_eq_some_iff.mp hs
      split_ifs at hs with hclosed
      cases hs
      have hheld : held ++ claims [.bytes id piece] = held := List.append_nil held
      have hhere : received id [.bytes id piece] = piece := by simp [received]
      rw [hheld]
      apply hb.setClient hc
      · rfl
      · rfl
      · intro id' hid
        refine ⟨?_, rfl, rfl⟩
        have hother : received id' [.bytes id piece] = [] := by simp [received, Ne.symm hid]
        rw [hother, List.append_nil]
      · rw [hhere]
        exact (hb.client hc).piece (Bool.not_eq_true _ ▸ hclosed) piece
  | close id =>
      obtain ⟨c, hc, rfl⟩ := Option.map_eq_some_iff.mp hs
      exact hquiet rfl (fun _ => rfl) (hb.moved hc (hb.client hc).close)
  | fail id =>
      obtain ⟨c, hc, hs⟩ := Option.bind_eq_some_iff.mp hs
      split_ifs at hs
      cases hs
      exact hquiet rfl (fun _ => rfl) (hb.moved hc ((hb.client hc).leave c.unread))
  | turn id =>
      obtain ⟨c, hc, hs⟩ := Option.bind_eq_some_iff.mp hs
      exact hquiet rfl (fun _ => rfl) (hb.turn hc hs)
  | claim addr =>
      obtain ⟨old, -, rfl⟩ := Option.map_eq_some_iff.mp hs
      have hgot : (fun id => got id ++ received id [.claim addr]) = got :=
        funext fun id => List.append_nil (got id)
      rw [hgot]
      refine ⟨List.mem_append_right _ (List.mem_singleton_self _), fun hc => ?_, hb.fresh⟩
      exact (hb.client hc).mono fun a ha => List.mem_append_left _ ha
  | writerEnds =>
      cases hs
      exact hquiet rfl (fun _ => rfl) ⟨hb.claim, hb.client, hb.fresh⟩
  | pipelineEnds =>
      cases hs
      exact hquiet rfl (fun _ => rfl) ⟨hb.claim, hb.client, hb.fresh⟩

theorem run_cons_eq_some {e : InputEvent} {es : List InputEvent} :
    s.run (e :: es) = some s' ↔ ∃ mid, s.step e = some mid ∧ mid.run es = some s' :=
  Option.bind_eq_some_iff

theorem Books.run (hb : s.Books held got) {es : List InputEvent} (hs : s.run es = some s') :
    s'.Books (held ++ claims es) fun id => got id ++ received id es := by
  induction es generalizing s held got with
  | nil =>
      cases hs
      simpa [claims, received] using hb
  | cons e es ih =>
      obtain ⟨mid, hstep, hrest⟩ := run_cons_eq_some.mp hs
      have hlater := ih (hb.step hstep) hrest
      have hclaims : claims (e :: es) = claims [e] ++ claims es := by
        rw [claims, claims, claims, ← List.filterMap_append, List.singleton_append]
      have hreceived : ∀ id, received id (e :: es) = received id [e] ++ received id es := by
        intro id
        rw [received, received, received, ← List.flatMap_append, List.singleton_append]
      simp only [hclaims, hreceived]
      simpa only [List.append_assoc] using hlater

theorem accounts_of_run {claimAddr : Option UInt8} {es : List InputEvent}
    (hs : (new claimAddr).run es = some s) (hc : s.clients[id]? = some c) :
    Accounts (claimAddr :: claims es) (received id es) (ofClient id s.device)
      (ofClient id s.loopback) c :=
  ((books_new claimAddr).run hs).client hc

end InputPort

/-- What the clients of the input port inject, in every order of their threads, the claims and the
ends of the channels. The frames of each client's lines are with the device in their order, each with
its own source or an address that was claimed, and with the pipeline but for one on its way. A client
whose thread waits for more has all of them in both places. -/
theorem injected {claimAddr : Option UInt8} {es : List InputEvent} {s : InputPort} {id : ℕ}
    {c : InboundClient} (hs : (InputPort.new claimAddr).run es = some s)
    (hc : s.clients[id]? = some c) :
    (∃ sent, sent <+: framesOf (streamLines c.closed (InputPort.received id es)) ∧
      List.Forall₂ (SendsAs (claimAddr :: InputPort.claims es)) sent
        (InputPort.ofClient id s.device)) ∧
    InputPort.ofClient id s.loopback <+: InputPort.ofClient id s.device ∧
    (InputPort.ofClient id s.device).length ≤ (InputPort.ofClient id s.loopback).length + 1 ∧
    (c.stage = .reading → nextLine c.closed c.unread = none →
      List.Forall₂ (SendsAs (claimAddr :: InputPort.claims es))
          (framesOf (streamLines c.closed (InputPort.received id es)))
          (InputPort.ofClient id s.device) ∧
        InputPort.ofClient id s.loopback = InputPort.ofClient id s.device) := by
  have h := InputPort.accounts_of_run hs hc
  obtain ⟨sent, hbegins, hsent, hloop, hlength⟩ := h.sent_begins
  exact ⟨⟨sent, hbegins, hsent⟩, hloop, hlength, h.all⟩

/-- Two clients. The first is cut off in a line, and an address is claimed between its lines. -/
theorem injected_two :
    ∃ s c, (InputPort.new (some 254)).run
        [.connect, .connect,
          .bytes 0 (utf8Bytes "t,3,127250,0,255,1,0a\nt,3,127250,0,255,1,0b\nt,3,1272".toList),
          .bytes 1 (utf8Bytes "t,3,127250,9,255,1,0c\n".toList), .close 0,
          .turn 0, .turn 0, .turn 1, .turn 1, .turn 0, .claim 35, .turn 0, .turn 0, .turn 0,
          .turn 0] = some s ∧
      s.clients[0]? = some c ∧
      InputPort.ofClient 0 s.loopback = InputPort.ofClient 0 s.device := by
  obtain ⟨-, -, -, h⟩ := @injected (some 254)
    [.connect, .connect,
      .bytes 0 (utf8Bytes "t,3,127250,0,255,1,0a\nt,3,127250,0,255,1,0b\nt,3,1272".toList),
      .bytes 1 (utf8Bytes "t,3,127250,9,255,1,0c\n".toList), .close 0,
      .turn 0, .turn 0, .turn 1, .turn 1, .turn 0, .claim 35, .turn 0, .turn 0, .turn 0,
      .turn 0] _ 0 _ rfl rfl
  exact ⟨_, _, rfl, rfl, (h rfl rfl).2⟩

end Canboat
