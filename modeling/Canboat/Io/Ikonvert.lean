import Canboat.Format.Lines
import Canboat.Format.NetworkStatus
import Canboat.Lib.Replies
import Mathlib.Data.List.DropRight

/-!
# The iKonvert gateway

Bringing the device online: each command waits for the acknowledgement of the one before it, and
the banner that the device prints on a restart starts over.
-/

namespace Canboat

namespace Ikonvert

open Checked

/-! ## The handshake -/

structure Config where
  rxList : Option (List Char)
  txList : Option (List Char)
  rateLimitOff : Bool
  skipInit : Bool

def TX_ONLINE_ALL : List Char := "$PDGY,N2NET_INIT,ALL\r\n".toList

def TX_ONLINE_NORMAL : List Char := "$PDGY,N2NET_INIT,NORMAL\r\n".toList

def TX_OFFLINE : List Char := "$PDGY,N2NET_OFFLINE\r\n".toList

def TX_RESET : List Char := "$PDGY,N2NET_RESET\r\n".toList

def TX_LIMIT_OFF : List Char := "$PDGY,TX_LIMIT,OFF\r\n".toList

def rxListCommand (list : List Char) : List Char := "$PDGY,RX_LIST,".toList ++ list ++ ['\r', '\n']

def txListCommand (list : List Char) : List Char := "$PDGY,TX_LIST,".toList ++ list ++ ['\r', '\n']

/-! Even states are ready to send a command, odd ones wait for its acknowledgement. -/

def STATE_DONE : ℕ := 0

def STATE_MAYBE_LIMIT_OFF : ℕ := 2

def STATE_WAIT_INIT_ACK : ℕ := 3

def STATE_SEND_INIT : ℕ := 4

def STATE_MAYBE_SHOWLISTS : ℕ := 6

def STATE_WAIT_TX_LIST_ACK : ℕ := 7

def STATE_MAYBE_TX_LIST : ℕ := 8

def STATE_WAIT_RX_LIST_ACK : ℕ := 9

def STATE_MAYBE_RX_LIST : ℕ := 10

def STATE_WAIT_RESET_ACK : ℕ := 11

def STATE_SEND_RESET : ℕ := 12

def STATE_WAIT_OFFLINE_ACK : ℕ := 13

/-- The loop of `next_init_command`, for so many turns. -/
def nextInitCommandLoop (config : Config) : ℕ → ℕ → ℕ × Option (List Char)
  | 0, state => (state, none)
  | turns + 1, state =>
      if state = STATE_SEND_RESET then (STATE_WAIT_RESET_ACK, some TX_RESET)
      else if state = STATE_MAYBE_RX_LIST then
        match config.rxList with
        | some list => (STATE_WAIT_RX_LIST_ACK, some (rxListCommand list))
        | none => nextInitCommandLoop config turns STATE_MAYBE_TX_LIST
      else if state = STATE_MAYBE_TX_LIST then
        match config.txList with
        | some list => (STATE_WAIT_TX_LIST_ACK, some (txListCommand list))
        | none => nextInitCommandLoop config turns STATE_MAYBE_SHOWLISTS
      else if state = STATE_MAYBE_SHOWLISTS then nextInitCommandLoop config turns STATE_SEND_INIT
      else if state = STATE_SEND_INIT then
        (STATE_WAIT_INIT_ACK,
          some (if config.rxList.isSome then TX_ONLINE_NORMAL else TX_ONLINE_ALL))
      else if state = STATE_MAYBE_LIMIT_OFF then
        (STATE_DONE, if config.rateLimitOff then some TX_LIMIT_OFF else none)
      else (state, none)

/-- The state goes down in each turn. -/
def nextInitCommand (config : Config) (state : ℕ) : ℕ × Option (List Char) :=
  nextInitCommandLoop config (state + 1) state

inductive DeviceEvent
  | frame (f : RawFrame)
  | sendBytes (bytes : List UInt8)
  | error (e : ParseError)

/-- Reads the lines of the device and owns the handshake. -/
structure Decoder where
  /-- The line that has not ended. -/
  acc : List Char
  config : Config
  initState : ℕ

namespace Decoder

def new (config : Config) : Decoder where
  acc := []
  config
  initState := if config.skipInit then STATE_DONE else STATE_WAIT_OFFLINE_ACK

/-- Goes on from a state that is ready to send. -/
def sendNext (d : Decoder) (state : ℕ) : Decoder × List DeviceEvent :=
  let (state, cmd) := nextInitCommand d.config state
  ({ d with initState := state }, (cmd.map fun cmd => .sendBytes (utf8Bytes cmd)).toList)

def advanceAfterText (d : Decoder) : Decoder × List DeviceEvent :=
  if d.initState = STATE_WAIT_OFFLINE_ACK then d.sendNext STATE_SEND_RESET
  else if d.initState = STATE_DONE then d.sendNext STATE_SEND_RESET
  else (d, [])

def advanceAfterAck (d : Decoder) : Decoder × List DeviceEvent :=
  if d.initState = STATE_DONE ∨ d.initState = STATE_WAIT_OFFLINE_ACK ∨ d.initState % 2 = 0 then
    (d, [])
  else d.sendNext (d.initState - 1)

def maybeResendOffline (d : Decoder) : Decoder × List DeviceEvent :=
  if d.initState ≠ STATE_WAIT_OFFLINE_ACK then (d, [])
  else (d, [.sendBytes (utf8Bytes TX_OFFLINE)])

/-- What follows `$PDGY,` on a line. -/
def handleControl (d : Decoder) (now : String) (body : List Char) : Decoder × List DeviceEvent :=
  if "TEXT,".toList.isPrefixOf body then d.advanceAfterText
  else if "ACK,".toList.isPrefixOf body then d.advanceAfterAck
  else if "NAK,".toList.isPrefixOf body then (d, [])
  else if "000000,".toList.isPrefixOf body then
    let status := (synthesizeNetworkStatus body now).map DeviceEvent.frame
    let (d, events) := d.maybeResendOffline
    (d, status.toList ++ events)
  else d.maybeResendOffline

/-- One turn of the loop of `decode`. -/
def decodeLine (d : Decoder) (now : String) (line : List Char) :
    Except Fault (Decoder × List DeviceEvent) :=
  let trimmed := trimNewlines line
  if trimmed = [] then .ok (d, [])
  else do
    match ← (parseLine trimmed).run with
    | .ok (.frame f) => .ok (d, [.frame { f with timestamp := some now }])
    | .ok (.control c) => .ok (d.handleControl now c)
    | .ok .other => .ok (d, [])
    | .error e =>
        -- A restart may splice the banner onto a frame that has not ended.
        match splitOnceText "$PDGY,TEXT,".toList trimmed with
        | some (_, rest) => .ok (d.handleControl now ("TEXT,".toList ++ rest))
        | none => .ok (d, [.error e])

/-- The lines that have ended, and what is left. -/
def completeLines : List Char → List (List Char) × List Char
  | [] => ([], [])
  | c :: s =>
      let (lines, rest) := completeLines s
      if c = '\n' then ([c] :: lines, rest)
      else
        match lines with
        | [] => ([], c :: rest)
        | line :: lines => ((c :: line) :: lines, rest)

def decodeLines (now : String) : Decoder → List (List Char) →
    Except Fault (Decoder × List DeviceEvent)
  | d, [] => .ok (d, [])
  | d, line :: lines => do
      let (d, events) ← d.decodeLine now line
      let (d, later) ← decodeLines now d lines
      .ok (d, events ++ later)

def decode (d : Decoder) (now : String) (bytes : List UInt8) :
    Except Fault (Decoder × List DeviceEvent) :=
  let (lines, rest) := completeLines (d.acc ++ fromUtf8Lossy bytes)
  decodeLines now { d with acc := rest } lines

end Decoder

/-! ## What the device is to be told -/

/-- What a line of the device says of the handshake. -/
inductive Signal
  | banner
  | ack
  | control
  | silent
deriving DecidableEq, Repr

/-- A line that cannot be parsed. -/
def Corrupt (line : List Char) : Bool :=
  match (parseLine line).run with
  | .ok (.error _) => true
  | _ => false

def controlSignal (body : List Char) : Signal :=
  if "TEXT,".toList.isPrefixOf body then .banner
  else if "ACK,".toList.isPrefixOf body then .ack
  else if "NAK,".toList.isPrefixOf body then .silent
  else .control

def signal (line : List Char) : Signal :=
  let line := trimNewlines line
  match stripPrefix "$PDGY,".toList line with
  | some body => controlSignal body
  | none =>
      if Corrupt line ∧ (splitOnceText "$PDGY,TEXT,".toList line).isSome then .banner else .silent

/-- The commands that the device acknowledges. -/
def acknowledged (config : Config) : List (List Char) :=
  TX_RESET :: (config.rxList.map rxListCommand).toList ++
    (config.txList.map txListCommand).toList ++
    [if config.rxList.isSome then TX_ONLINE_NORMAL else TX_ONLINE_ALL]

/-- The commands that follow a banner. -/
def script (config : Config) : List (List Char) :=
  acknowledged config ++ if config.rateLimitOff then [TX_LIMIT_OFF] else []

/-- What is kept is whether there has been a banner, and how many acknowledgements came after the
last one. -/
def handshake (config : Config) : Protocol (Option ℕ) Signal (List (List UInt8)) where
  next acks s :=
    match s with
    | .banner => some 0
    | .ack => acks.map (· + 1)
    | .control | .silent => acks
  reply acks s :=
    (match s with
    | .banner => [TX_RESET]
    | .ack => (acks.bind fun n => (script config)[n + 1]?).toList
    | .control => if acks.isNone then [TX_OFFLINE] else []
    | .silent => []).map utf8Bytes

/-- A line that the device has ended, and the host's time when it came. -/
structure DeviceLine where
  now : String
  body : List UInt8
  complete : 0x0a ∉ body

def DeviceLine.text (l : DeviceLine) : List Char := fromUtf8Lossy l.body

def commands (events : List DeviceEvent) : List (List UInt8) :=
  events.filterMap fun event =>
    match event with
    | .sendBytes bytes => some bytes
    | _ => none

/-- The events of each line. -/
def eventsOf (config : Config) (lines : List DeviceLine) :
    Except Fault (List (List DeviceEvent)) :=
  answers (fun d l => d.decode l.now (l.body ++ [0x0a])) (Decoder.new config) lines

/-- The handshake by lines. -/
def lineHandshake (config : Config) : Protocol (Option ℕ) DeviceLine (List (List UInt8)) :=
  (handshake config).comap fun l => signal l.text

/-- Each line is answered with the commands that it calls for. -/
def FollowsHandshake (config : Config) (lines : List DeviceLine) : Prop :=
  ∃ events, eventsOf config lines = .ok events ∧
    events.map commands = (lineHandshake config).replies none lines

/-- A banner comes first, or after the last acknowledgement of the handshake before it. -/
def BannerInTime (config : Config) (acks : Option ℕ) (l : DeviceLine) : Prop :=
  signal l.text = .banner → ∀ n ∈ acks, (acknowledged config).length ≤ n

/-! ## The states of the handshake -/

/-- The states that wait for the acknowledgements. -/
def waitStates (config : Config) : List ℕ :=
  STATE_WAIT_RESET_ACK :: (config.rxList.map fun _ => STATE_WAIT_RX_LIST_ACK).toList ++
    (config.txList.map fun _ => STATE_WAIT_TX_LIST_ACK).toList ++ [STATE_WAIT_INIT_ACK]

/-- The state after so many acknowledgements. -/
def stateAt (config : Config) : Option ℕ → ℕ
  | none => STATE_WAIT_OFFLINE_ACK
  | some n => (waitStates config)[n]?.getD STATE_DONE

theorem length_waitStates (config : Config) :
    (waitStates config).length = (acknowledged config).length := by
  simp only [waitStates, acknowledged, List.length_append, List.length_cons, List.length_nil,
    Option.length_toList, Option.isSome_map]

theorem stateAt_done {config : Config} {n : ℕ} (h : (acknowledged config).length ≤ n) :
    stateAt config (some n) = STATE_DONE := by
  rw [← length_waitStates] at h
  rw [stateAt, List.getElem?_eq_none h, Option.getD_none]

theorem stateAt_mem {config : Config} {n : ℕ} (h : n < (acknowledged config).length) :
    stateAt config (some n) ∈ [STATE_WAIT_RESET_ACK, STATE_WAIT_RX_LIST_ACK,
      STATE_WAIT_TX_LIST_ACK, STATE_WAIT_INIT_ACK] := by
  rw [← length_waitStates] at h
  have hmem : stateAt config (some n) ∈ waitStates config := by
    rw [stateAt, List.getElem?_eq_getElem h]
    exact List.getElem_mem h
  rw [waitStates] at hmem
  cases hrx : config.rxList <;> cases htx : config.txList <;> rw [hrx, htx] at hmem <;>
    revert hmem <;> simp <;> tauto

theorem stateAt_ne_offline (config : Config) (n : ℕ) :
    stateAt config (some n) ≠ STATE_WAIT_OFFLINE_ACK := by
  by_cases hn : n < (acknowledged config).length
  · have hmem := stateAt_mem hn
    intro heq
    rw [heq] at hmem
    exact absurd hmem (by decide)
  · rw [stateAt_done (Nat.le_of_not_lt hn)]
    decide

/-- The first command of the script, and the one after each acknowledgement. -/
theorem nextInitCommand_reset (config : Config) :
    nextInitCommand config STATE_SEND_RESET = (stateAt config (some 0), some TX_RESET) := rfl

theorem nextInitCommand_ack {config : Config} {n : ℕ} (h : n < (acknowledged config).length) :
    nextInitCommand config (stateAt config (some n) - 1) =
      (stateAt config (some (n + 1)), (script config)[n + 1]?) := by
  obtain ⟨rx, tx, limitOff, skip⟩ := config
  cases rx with
  | none =>
      cases tx with
      | none =>
          match n, h with
          | 0, _ => rfl
          | 1, _ => cases limitOff <;> rfl
          | n + 2, h => exact absurd h (by simp [acknowledged])
      | some txList =>
          match n, h with
          | 0, _ => rfl
          | 1, _ => rfl
          | 2, _ => cases limitOff <;> rfl
          | n + 3, h => exact absurd h (by simp [acknowledged])
  | some rxList =>
      cases tx with
      | none =>
          match n, h with
          | 0, _ => rfl
          | 1, _ => rfl
          | 2, _ => cases limitOff <;> rfl
          | n + 3, h => exact absurd h (by simp [acknowledged])
      | some txList =>
          match n, h with
          | 0, _ => rfl
          | 1, _ => rfl
          | 2, _ => rfl
          | 3, _ => cases limitOff <;> rfl
          | n + 4, h => exact absurd h (by simp [acknowledged])

theorem script_end {config : Config} {n : ℕ} (h : (acknowledged config).length ≤ n) :
    (script config)[n + 1]? = none := by
  rw [List.getElem?_eq_none_iff, script, List.length_append]
  split_ifs <;> simp <;> omega

/-! ## A line and its signal -/

/-- What the decoder does on a signal. -/
def Decoder.respond (d : Decoder) : Signal → Decoder × List DeviceEvent
  | .banner => d.advanceAfterText
  | .ack => d.advanceAfterAck
  | .control => d.maybeResendOffline
  | .silent => (d, [])

theorem trimNewlines_trimNewlines (s : List Char) :
    trimNewlines (trimNewlines s) = trimNewlines s := by
  rw [trimNewlines, trimNewlines, trimEnd, trimEnd, List.reverse_reverse, List.dropWhile_idempotent]

theorem trimNewlines_append_newline (s : List Char) :
    trimNewlines (s ++ ['\n']) = trimNewlines s := by
  rw [trimNewlines, trimNewlines, trimEnd, trimEnd, List.reverse_append, List.reverse_singleton,
    List.singleton_append, List.dropWhile_cons_of_pos (by decide)]

/-- A control sentence is no frame. -/
theorem stripPrefix_frame_of_control {line body : List Char}
    (h : stripPrefix "$PDGY,".toList line = some body) : stripPrefix "!PDGY,".toList line = none := by
  cases line with
  | nil => rfl
  | cons c line =>
      rw [stripPrefix] at h ⊢
      split_ifs at h with hdollar
      rw [if_neg]
      intro hbang
      rw [show "$PDGY,".toList = '$' :: "PDGY,".toList from rfl, List.isPrefixOf_cons_cons] at hdollar
      rw [show "!PDGY,".toList = '!' :: "PDGY,".toList from rfl, List.isPrefixOf_cons_cons] at hbang
      simp only [Bool.and_eq_true, beq_iff_eq] at hdollar hbang
      cases hdollar.1.trans hbang.1.symm

theorem parseLine_control {line body : List Char} (hne : trimNewlines line ≠ [])
    (h : stripPrefix "$PDGY,".toList (trimNewlines line) = some body) :
    (parseLine line).run = .ok (.ok (.control body)) := by
  rw [parseLine, if_neg hne, stripPrefix_frame_of_control h, h]
  rfl

theorem parseLine_of_not_control {line : List Char} {c : List Char}
    (h : (parseLine line).run = .ok (.ok (.control c))) :
    stripPrefix "$PDGY,".toList (trimNewlines line) = some c := by
  rw [parseLine] at h
  split_ifs at h with hne
  · cases h
  · cases hframe : stripPrefix "!PDGY,".toList (trimNewlines line) with
    | some rest =>
        rw [hframe] at h
        dsimp only at h
        rw [ExceptT.run_bind] at h
        generalize (parseN2kLine rest).run = res at h
        rcases res with _ | _ | f <;> cases h
    | none =>
        rw [hframe] at h
        cases hcontrol : stripPrefix "$PDGY,".toList (trimNewlines line) with
        | none =>
            rw [hcontrol] at h
            cases h
        | some body =>
            rw [hcontrol] at h
            cases h
            rfl

theorem handleControl_signal (d : Decoder) (now : String) (body : List Char) :
    (d.handleControl now body).1 = (d.respond (controlSignal body)).1 ∧
      commands (d.handleControl now body).2 = commands (d.respond (controlSignal body)).2 := by
  rw [Decoder.handleControl, controlSignal]
  split_ifs
  · exact ⟨rfl, rfl⟩
  · exact ⟨rfl, rfl⟩
  · exact ⟨rfl, rfl⟩
  · refine ⟨rfl, ?_⟩
    cases synthesizeNetworkStatus body now <;> rfl
  · exact ⟨rfl, rfl⟩

/-- A line that can be parsed moves the decoder as its signal does. -/
theorem decodeLine_signal (d : Decoder) (now : String) {line : List Char} (h : Fits line) :
    ∃ events, d.decodeLine now line = .ok ((d.respond (signal line)).1, events) ∧
      commands events = commands (d.respond (signal line)).2 := by
  have htrim : Fits (trimNewlines line) := by
    rw [Fits, trimNewlines_trimNewlines]
    exact h
  obtain ⟨res, hres⟩ := (parseLine_returns_iff _).mpr htrim
  rw [Decoder.decodeLine, signal]
  by_cases hne : trimNewlines line = []
  · rw [if_pos hne, hne]
    exact ⟨[], rfl, rfl⟩
  · rw [if_neg hne]
    cases hcontrol : stripPrefix "$PDGY,".toList (trimNewlines line) with
    | some body =>
        have hparse : (parseLine (trimNewlines line)).run = .ok (.ok (.control body)) :=
          parseLine_control (by rwa [trimNewlines_trimNewlines]) (by rwa [trimNewlines_trimNewlines])
        rw [hparse]
        obtain ⟨hd, hcommands⟩ := handleControl_signal d now body
        exact ⟨(d.handleControl now body).2, by rw [← hd]; rfl, hcommands⟩
    | none =>
        rw [Corrupt, hres]
        rcases res with e | (f | c | _)
        · dsimp only [bind, Except.bind]
          cases hbanner : splitOnceText "$PDGY,TEXT,".toList (trimNewlines line) with
          | none => exact ⟨[.error e], rfl, rfl⟩
          | some parts =>
              have hbody : d.handleControl now ("TEXT,".toList ++ parts.2) = d.advanceAfterText :=
                if_pos rfl
              exact ⟨d.advanceAfterText.2, congrArg Except.ok hbody, rfl⟩
        · exact ⟨_, rfl, rfl⟩
        · have hsome := parseLine_of_not_control hres
          rw [trimNewlines_trimNewlines, hcontrol] at hsome
          cases hsome
        · exact ⟨_, rfl, rfl⟩

theorem Decoder.completeLines_line {s : List Char} (h : '\n' ∉ s) :
    completeLines (s ++ ['\n']) = ([s ++ ['\n']], []) := by
  induction s with
  | nil => rfl
  | cons c s ih =>
      rw [List.mem_cons, not_or] at h
      rw [List.cons_append, completeLines, ih h.2]
      dsimp only
      rw [if_neg (Ne.symm h.1)]

theorem decode_line {d : Decoder} (hacc : d.acc = []) (l : DeviceLine) :
    d.decode l.now (l.body ++ [0x0a]) = d.decodeLine l.now l.text := by
  obtain ⟨htext, hnewline⟩ := fromUtf8Lossy_line l.complete
  have hempty : { d with acc := [] } = d := by rw [← hacc]
  have htrim : d.decodeLine l.now (l.text ++ ['\n']) = d.decodeLine l.now l.text := by
    rw [Decoder.decodeLine, Decoder.decodeLine, trimNewlines_append_newline]
  rw [Decoder.decode, hacc, List.nil_append, htext, Decoder.completeLines_line hnewline]
  dsimp only
  rw [hempty, Decoder.decodeLines, ← DeviceLine.text, htrim]
  cases d.decodeLine l.now l.text with
  | error e => rfl
  | ok out =>
      dsimp only [bind, Except.bind]
      rw [Decoder.decodeLines]
      dsimp only
      rw [List.append_nil]

theorem fits_of_decodeLine {d : Decoder} {now : String} {line : List Char}
    {out : Decoder × List DeviceEvent} (h : d.decodeLine now line = .ok out) : Fits line := by
  rw [Decoder.decodeLine] at h
  split_ifs at h with hne
  · rw [Fits, hne]
    rintro _ ⟨⟩
  · rw [Fits, ← trimNewlines_trimNewlines, ← Fits, ← parseLine_returns_iff]
    generalize hres : (parseLine (trimNewlines line)).run = res at h
    cases res with
    | error e => cases h
    | ok res => exact ⟨res, hres⟩

/-! ## Following the handshake -/

/-- The decoder stands between two lines, as far as the protocol is. -/
structure Stands (config : Config) (d : Decoder) (acks : Option ℕ) : Prop where
  between : d.acc = []
  configured : d.config = config
  state : d.initState = stateAt config acks

theorem commands_sendNext (d : Decoder) (state : ℕ) :
    commands (d.sendNext state).2 = ((nextInitCommand d.config state).2.map utf8Bytes).toList := by
  rw [Decoder.sendNext]
  dsimp only
  cases (nextInitCommand d.config state).2 <;> rfl

/-- The step lemma: signals move the decoder along the protocol, but for a banner before the
last acknowledgement. -/
theorem respond_stands {config : Config} {d : Decoder} {acks : Option ℕ} {s : Signal}
    (h : Stands config d acks)
    (hbanner : s = .banner → ∀ n ∈ acks, (acknowledged config).length ≤ n) :
    commands (d.respond s).2 = (handshake config).reply acks s ∧
      Stands config (d.respond s).1 ((handshake config).next acks s) := by
  obtain ⟨hacc, rfl, hstate⟩ := h
  have hreset : commands (d.sendNext STATE_SEND_RESET).2 = [utf8Bytes TX_RESET] ∧
      Stands d.config (d.sendNext STATE_SEND_RESET).1 (some 0) := by
    rw [commands_sendNext]
    exact ⟨rfl, hacc, rfl, rfl⟩
  cases s with
  | banner =>
      rw [Decoder.respond, Decoder.advanceAfterText]
      cases acks with
      | none =>
          have hoffline : d.initState = STATE_WAIT_OFFLINE_ACK := hstate
          rw [if_pos hoffline]
          exact hreset
      | some n =>
          rw [stateAt_done (hbanner rfl n rfl)] at hstate
          rw [if_neg (by rw [hstate]; decide), if_pos hstate]
          exact hreset
  | ack =>
      rw [Decoder.respond, Decoder.advanceAfterAck]
      cases acks with
      | none =>
          have hoffline : d.initState = STATE_WAIT_OFFLINE_ACK := hstate
          rw [if_pos (Or.inr (Or.inl hoffline))]
          exact ⟨rfl, hacc, rfl, hstate⟩
      | some n =>
          by_cases hn : n < (acknowledged d.config).length
          · have hwaits := stateAt_mem hn
            rw [← hstate] at hwaits
            have hodd : ¬(d.initState = STATE_DONE ∨ d.initState = STATE_WAIT_OFFLINE_ACK ∨
                d.initState % 2 = 0) := by
              revert hwaits
              generalize d.initState = state
              simp only [List.mem_cons, List.not_mem_nil, or_false]
              rintro (rfl | rfl | rfl | rfl) <;> decide
            have hnext := nextInitCommand_ack hn
            rw [← hstate] at hnext
            rw [if_neg hodd]
            refine ⟨?_, hacc, rfl, ?_⟩
            · rw [commands_sendNext, hnext]
              show _ = (((script d.config)[n + 1]?).toList).map utf8Bytes
              cases (script d.config)[n + 1]? <;> rfl
            · exact congrArg Prod.fst hnext
          · have hn := Nat.le_of_not_lt hn
            rw [stateAt_done hn] at hstate
            rw [if_pos (Or.inl hstate)]
            refine ⟨?_, hacc, rfl, ?_⟩
            · show [] = (((script d.config)[n + 1]?).toList).map utf8Bytes
              rw [script_end hn]
              rfl
            · exact hstate.trans (stateAt_done (Nat.le_succ_of_le hn)).symm
  | control =>
      rw [Decoder.respond, Decoder.maybeResendOffline]
      cases acks with
      | none =>
          have hoffline : d.initState = STATE_WAIT_OFFLINE_ACK := hstate
          rw [if_neg (not_not.mpr hoffline)]
          exact ⟨rfl, hacc, rfl, hstate⟩
      | some n =>
          rw [if_pos (hstate.trans_ne (stateAt_ne_offline d.config n))]
          exact ⟨rfl, hacc, rfl, hstate⟩
  | silent => exact ⟨rfl, hacc, rfl, hstate⟩

/-- A banner while the device still has commands to acknowledge is answered with nothing. -/
theorem advanceAfterText_waiting {config : Config} {d : Decoder} {n : ℕ}
    (h : Stands config d (some n)) (hn : n < (acknowledged config).length) :
    d.advanceAfterText = (d, []) := by
  have hmem := stateAt_mem hn
  rw [Decoder.advanceAfterText, h.state, if_neg (stateAt_ne_offline config n), if_neg]
  intro heq
  rw [heq] at hmem
  exact absurd hmem (by decide)

theorem followsHandshake_along {config : Config} (hinit : config.skipInit = false)
    (lines : List DeviceLine) :
    FollowsHandshake config lines ↔
      Along (lineHandshake config).next
        (fun acks l => Fits l.text ∧ BannerInTime config acks l) none lines := by
  have hnew : Stands config (Decoder.new config) none :=
    ⟨rfl, rfl, by rw [Decoder.new, hinit]; rfl⟩
  refine Protocol.answers_eq_replies_iff (Stands config) ?_ ?_ hnew lines
  · intro d acks l hd hgood
    obtain ⟨events, hline, hcommands⟩ := decodeLine_signal d l.now hgood.1
    obtain ⟨hreply, hstands⟩ := respond_stands hd hgood.2
    exact ⟨_, events, (decode_line hd.between l).trans hline, hcommands.trans hreply, hstands⟩
  · intro d acks l hd hbad d' events hdecode
    rw [decode_line hd.between] at hdecode
    have hfits := fits_of_decodeLine hdecode
    rw [not_and, BannerInTime, Classical.not_imp] at hbad
    obtain ⟨hsignal, hacks⟩ := hbad hfits
    obtain ⟨events', hline, hcommands⟩ := decodeLine_signal d l.now hfits
    cases hdecode.symm.trans hline
    rw [hsignal] at hcommands
    show commands events ≠ (handshake config).reply acks (signal l.text)
    rw [hsignal, hcommands]
    push Not at hacks
    obtain ⟨n, rfl, hn⟩ := hacks
    rw [Decoder.respond, advanceAfterText_waiting hd hn]
    nofun

/-- The handshake is followed in the runs whose lines can all be parsed without a fault and whose
banners all come in time, and in no other. -/
theorem followsHandshake_iff (config : Config) (hinit : config.skipInit = false)
    (lines : List DeviceLine) :
    FollowsHandshake config lines ↔
      (∀ l ∈ lines, Fits l.text) ∧
        Along (lineHandshake config).next (BannerInTime config) none lines := by
  rw [followsHandshake_along hinit, Along.and_iff, Along.forall_iff]

/-- All of the handshake with a receive list. -/
def receiving : Config where
  rxList := some "129025".toList
  txList := none
  rateLimitOff := true
  skipInit := false

def bannerLine : DeviceLine where
  now := "2026-01-01T00:00:00.000"
  body := utf8Bytes "$PDGY,TEXT,iKonvert\r".toList
  complete := by decide +kernel

def ackLine : DeviceLine where
  now := "2026-01-01T00:00:00.000"
  body := utf8Bytes "$PDGY,ACK,ok\r".toList
  complete := by decide +kernel

theorem signal_bannerLine : signal bannerLine.text = .banner := by decide +kernel

theorem signal_ackLine : signal ackLine.text = .ack := by decide +kernel

theorem next_bannerLine (config : Config) (acks : Option ℕ) :
    (lineHandshake config).next acks bannerLine = some 0 := by
  show (handshake config).next acks (signal bannerLine.text) = some 0
  rw [signal_bannerLine]
  rfl

theorem next_ackLine (config : Config) (n : ℕ) :
    (lineHandshake config).next (some n) ackLine = some (n + 1) := by
  show (handshake config).next (some n) (signal ackLine.text) = some (n + 1)
  rw [signal_ackLine]
  rfl

/-- A restart when the handshake has ended. -/
theorem receiving_followsHandshake :
    FollowsHandshake receiving [bannerLine, ackLine, ackLine, ackLine, bannerLine] := by
  have hack : ∀ acks, BannerInTime receiving acks ackLine := by
    intro acks hbanner
    cases signal_ackLine.symm.trans hbanner
  refine (followsHandshake_iff receiving rfl _).mpr ⟨?_, ?_⟩
  · have hfits : Fits bannerLine.text ∧ Fits ackLine.text := by
      rw [Fits, Fits, show stripPrefix _ (trimNewlines bannerLine.text) = none by decide +kernel,
        show stripPrefix _ (trimNewlines ackLine.text) = none by decide +kernel]
      exact ⟨by rintro _ ⟨⟩, by rintro _ ⟨⟩⟩
    simp [hfits]
  · simp only [Along.cons_iff, next_bannerLine, next_ackLine]
    refine ⟨by rintro _ n ⟨⟩, hack _, hack _, hack _, ?_, Along.nil⟩
    rintro _ n ⟨⟩
    decide

/-- A banner after a banner is answered with nothing. -/
theorem not_followsHandshake : ¬FollowsHandshake receiving [bannerLine, bannerLine] := by
  rw [followsHandshake_along rfl]
  intro h
  have hlast := (h [bannerLine] bannerLine [] rfl).2 signal_bannerLine 0 (next_bannerLine _ _)
  exact absurd hlast (by decide)

end Ikonvert

end Canboat
