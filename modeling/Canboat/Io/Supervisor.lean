import Canboat.Io.Ikonvert
import Canboat.Io.NmeaDevice

/-!
# The supervisor of a device

One session after the other, for as long as the device can be opened. Each session has a reader, a
writer and a forwarder, and the supervisor pumps the frames of the session into a channel that
outlasts it. The threads take their steps in any order. Times are in milliseconds.
-/

namespace Canboat

open Ikonvert (DeviceEvent)

def INITIAL_BACKOFF : ℕ := 500

def MAX_BACKOFF : ℕ := 30000

/-- Where the forwarder is: before its look at the flags, before its look into the channel. -/
inductive Forwarder
  | checking
  | receiving
  | gone
  deriving DecidableEq

/-- One opening of the device. `taken` is what the writer has taken of the program's frames, and
`lost` a frame that the forwarder found no writer for. Both are for the record only. -/
structure DeviceSession where
  /-- From the reader to the pump. -/
  frames : List RawFrame
  reading : Bool
  /-- From the reader and the forwarder to the writer. -/
  commands : List WriterCmd
  writing : Bool
  forwarder : Forwarder
  /-- The supervisor has not dropped the handle yet. -/
  held : Bool
  taken : List RawFrame
  lost : Option RawFrame

namespace DeviceSession

def new : DeviceSession where
  frames := []
  reading := true
  commands := []
  writing := true
  forwarder := .checking
  held := true
  taken := []
  lost := none

/-- What the reader makes of the events of one read. A send to a channel whose receiver is gone ends
the thread. -/
def pass (x : DeviceSession) : List DeviceEvent → DeviceSession
  | [] => x
  | .frame f :: events =>
      if x.held then { x with frames := x.frames ++ [f] }.pass events else { x with reading := false }
  | .sendBytes b :: events =>
      if x.writing then { x with commands := x.commands ++ [WriterCmd.bytes b] }.pass events
      else { x with reading := false }
  | .error _ :: events => x.pass events

/-- Everyone who could send to the writer is gone. -/
def Disconnected (x : DeviceSession) : Prop := ¬ x.held ∧ ¬ x.reading ∧ x.forwarder = .gone

instance (x : DeviceSession) : Decidable x.Disconnected := inferInstanceAs (Decidable (_ ∧ _))

/-- The writer's next command. It skips a frame that the device has no bytes for. -/
def write (encode : RawFrame → Option (List UInt8)) (x : DeviceSession) (ok : Bool) : Option DeviceSession :=
  if x.writing then
    match x.commands with
    | [] => if x.Disconnected then some { x with writing := false } else none
    | .bytes _ :: commands => some { x with commands, writing := ok }
    | .frame f :: commands =>
        some { x with commands, taken := x.taken ++ [f], writing := (encode f).isNone || ok }
  else none

/-- The write of the opening bytes or of a keepalive fails. -/
def breakOff (x : DeviceSession) : Option DeviceSession :=
  if x.writing then some { x with writing := false } else none

end DeviceSession

/-- Where the supervisor's thread is. `greedy` is for a pump that does not wait. -/
inductive Manager
  | opening
  | asleep (remaining : ℕ)
  | pumping (greedy : Bool)
  | joining
  | stopped
  deriving DecidableEq

/-- The session is given up. -/
def Manager.closing : Manager → Bool
  | .joining | .stopped => true
  | _ => false

/-- Of the sessions before the last only the writers may still be at work. -/
structure Supervisor where
  stop : Bool
  backoff : ℕ
  manager : Manager
  past : List DeviceSession
  session : Option DeviceSession
  /-- From the program. -/
  commands : List RawFrame
  /-- To the program. -/
  frames : List RawFrame

inductive SupervisorEvent
  | send (f : RawFrame)
  | shutdown
  /-- The factory's answer. -/
  | openDevice (ok : Bool)
  /-- Fifty milliseconds, or what is left of the sleep. -/
  | tick
  | read (events : List DeviceEvent)
  | readerEnds
  | pump
  | forward
  | join
  | write (ok : Bool)
  | breakOff
  /-- The writer of a session before the last. -/
  | writePast (id : ℕ) (ok : Bool)
  | breakOffPast (id : ℕ)

namespace Supervisor

def new : Supervisor where
  stop := false
  backoff := INITIAL_BACKOFF
  manager := .opening
  past := []
  session := none
  commands := []
  frames := []

/-- The loop looks at the flag before it opens the device. -/
def openDevice (s : Supervisor) (ok : Bool) : Supervisor :=
  if s.stop then { s with manager := .stopped }
  else if ok then
    { s with
      backoff := INITIAL_BACKOFF, manager := .pumping false
      past := s.past ++ s.session.toList, session := some .new }
  else { s with backoff := min (s.backoff * 2) MAX_BACKOFF, manager := .asleep s.backoff }

def tick (s : Supervisor) (remaining : ℕ) : Supervisor :=
  if remaining = 0 ∨ s.stop then { s with manager := .opening }
  else { s with manager := .asleep (remaining - min 50 remaining) }

/-- The session is over: the forwarder is told, and the handle dropped. -/
def release (s : Supervisor) (x : DeviceSession) : Supervisor :=
  { s with manager := .joining, session := some { x with held := false } }

def pump (s : Supervisor) (greedy : Bool) (x : DeviceSession) : Option Supervisor :=
  match x.frames with
  | f :: frames =>
      if ¬greedy ∧ s.stop then some (s.release { x with frames })
      else some { s with
        manager := .pumping true, session := some { x with frames }, frames := s.frames ++ [f] }
  | [] =>
      if x.reading then if greedy then some { s with manager := .pumping false } else none
      else some (s.release x)

def forward (s : Supervisor) (x : DeviceSession) : Option Supervisor :=
  match x.forwarder, s.commands with
  | .checking, _ =>
      let forwarder := if s.stop ∨ ¬x.held then .gone else .receiving
      some { s with session := some { x with forwarder } }
  | .receiving, [] => some { s with session := some { x with forwarder := .checking } }
  | .receiving, f :: commands =>
      let x := if x.writing then
          { x with commands := x.commands ++ [WriterCmd.frame f], forwarder := .checking }
        else { x with lost := some f, forwarder := .gone }
      some { s with commands, session := some x }
  | .gone, _ => none

def join (s : Supervisor) (x : DeviceSession) : Option Supervisor :=
  if x.forwarder = .gone then
    some { s with manager := if s.stop then .stopped else .asleep 500 }
  else none

variable (encode : RawFrame → Option (List UInt8))

/-- `none` for a thread that is not there, or waits. -/
def step (s : Supervisor) : SupervisorEvent → Option Supervisor
  | .send f => some { s with commands := s.commands ++ [f] }
  | .shutdown => some { s with stop := true }
  | .openDevice ok => match s.manager with
      | .opening => some (s.openDevice ok)
      | _ => none
  | .tick => match s.manager with
      | .asleep remaining => some (s.tick remaining)
      | _ => none
  | .read events => s.session.bind fun x =>
      if x.reading then some { s with session := some (x.pass events) } else none
  | .readerEnds => s.session.bind fun x =>
      if x.reading then some { s with session := some { x with reading := false } } else none
  | .pump => match s.manager with
      | .pumping greedy => s.session.bind (s.pump greedy)
      | _ => none
  | .forward => s.session.bind s.forward
  | .join => match s.manager with
      | .joining => s.session.bind s.join
      | _ => none
  | .write ok => s.session.bind fun x =>
      (x.write encode ok).map fun x => { s with session := some x }
  | .breakOff => s.session.bind fun x => x.breakOff.map fun x => { s with session := some x }
  | .writePast id ok => s.past[id]?.bind fun x =>
      (x.write encode ok).map fun x => { s with past := s.past.set id x }
  | .breakOffPast id => s.past[id]?.bind fun x =>
      x.breakOff.map fun x => { s with past := s.past.set id x }

def run (s : Supervisor) : List SupervisorEvent → Option Supervisor
  | [] => some s
  | e :: es => (s.step encode e).bind (·.run es)

/-! ## What the threads of a session leave as it is -/

end Supervisor

namespace DeviceSession

/-- What a thread of the session, other than the pump, never undoes. -/
structure Keeps (x x' : DeviceSession) : Prop where
  held : x'.held = x.held
  gone : x.forwarder = .gone → x'.forwarder = .gone
  ended : x.reading = false → x'.reading = false ∧ x'.frames = x.frames

/-- What the forwarder has taken from the program. -/
def frameOf : WriterCmd → Option RawFrame
  | .frame f => some f
  | .bytes _ => none

def account (x : DeviceSession) : List RawFrame :=
  x.taken ++ x.commands.filterMap frameOf ++ x.lost.toList

/-- A frame is lost to a dead writer only, and ends the forwarder. -/
def Excused (x : DeviceSession) : Prop := x.lost ≠ none → x.forwarder = .gone ∧ x.writing = false

/-- The frames of one read that reach the channel. -/
def passed (x : DeviceSession) : List DeviceEvent → List RawFrame
  | [] => []
  | .frame f :: events => if x.held then f :: x.passed events else []
  | .sendBytes _ :: events => if x.writing then x.passed events else []
  | .error _ :: events => x.passed events

variable {encode : RawFrame → Option (List UInt8)} {x x' : DeviceSession}

theorem excused_new : new.Excused := fun h => absurd rfl h

theorem passed_congr (hheld : x'.held = x.held) (hwriting : x'.writing = x.writing)
    (events : List DeviceEvent) : x'.passed events = x.passed events := by
  induction events with
  | nil => rfl
  | cons e events ih =>
      cases e with
      | frame f => rw [passed, passed, ih, hheld]
      | sendBytes b => rw [passed, passed, ih, hwriting]
      | error e => rw [passed, passed, ih]

/-- What a reader does in one turn. -/
structure Passes (x x' : DeviceSession) (out : List RawFrame) : Prop where
  frames : x'.frames = x.frames ++ out
  account : x'.account = x.account
  held : x'.held = x.held
  forwarder : x'.forwarder = x.forwarder
  writing : x'.writing = x.writing
  lost : x'.lost = x.lost

theorem pass_passes (x : DeviceSession) (events : List DeviceEvent) :
    Passes x (x.pass events) (x.passed events) := by
  induction events generalizing x with
  | nil => exact ⟨(List.append_nil _).symm, rfl, rfl, rfl, rfl, rfl⟩
  | cons e events ih =>
      cases e with
      | frame f =>
          rw [pass, passed]
          by_cases hheld : x.held
          · rw [if_pos hheld, if_pos hheld]
            have h := ih { x with frames := x.frames ++ [f] }
            refine ⟨?_, h.account, h.held, h.forwarder, h.writing, h.lost⟩
            have hsame : passed { x with frames := x.frames ++ [f] } events = x.passed events := by
              apply passed_congr
              · rfl
              · rfl
            rw [h.frames, hsame, List.append_assoc, List.singleton_append]
          · rw [if_neg hheld, if_neg hheld]
            exact ⟨(List.append_nil _).symm, rfl, rfl, rfl, rfl, rfl⟩
      | sendBytes b =>
          rw [pass, passed]
          by_cases hwriting : x.writing
          · rw [if_pos hwriting, if_pos hwriting]
            have h := ih { x with commands := x.commands ++ [WriterCmd.bytes b] }
            refine ⟨?_, h.account.trans ?_, h.held, h.forwarder, h.writing, h.lost⟩
            · rw [h.frames]
              congr 1
              apply passed_congr
              · rfl
              · rfl
            · simp [DeviceSession.account, List.filterMap_cons, frameOf]
          · rw [if_neg hwriting, if_neg hwriting]
            exact ⟨(List.append_nil _).symm, rfl, rfl, rfl, rfl, rfl⟩
      | error e =>
          rw [pass, passed]
          exact ih x

/-- What a writer does in one turn. -/
structure Writes (x x' : DeviceSession) : Prop where
  frames : x'.frames = x.frames
  account : x'.account = x.account
  held : x'.held = x.held
  forwarder : x'.forwarder = x.forwarder
  reading : x'.reading = x.reading
  writing : x.writing = false → x'.writing = false
  lost : x'.lost = x.lost

theorem write_writes {ok : Bool} (h : x.write encode ok = some x') : Writes x x' := by
  rw [write] at h
  split at h
  · next hwriting =>
    have habsurd : ∀ {p : Prop}, x.writing = false → p := by
      intro p hfalse
      rw [hfalse] at hwriting
      cases hwriting
    split at h
    · split at h
      · cases h
        exact ⟨rfl, rfl, rfl, rfl, rfl, fun _ => rfl, rfl⟩
      · cases h
    · next b commands hcommands =>
      cases h
      refine ⟨rfl, ?_, rfl, rfl, rfl, habsurd, rfl⟩
      simp [account, hcommands, List.filterMap_cons, frameOf]
    · next f commands hcommands =>
      cases h
      refine ⟨rfl, ?_, rfl, rfl, rfl, habsurd, rfl⟩
      simp [account, hcommands, frameOf]
  · cases h

theorem breakOff_writes (h : x.breakOff = some x') : Writes x x' := by
  rw [breakOff] at h
  split at h
  · cases h
    exact ⟨rfl, rfl, rfl, rfl, rfl, fun _ => rfl, rfl⟩
  · cases h

theorem Writes.keeps (h : Writes x x') : Keeps x x' := by
  refine ⟨h.held, fun hgone => h.forwarder.trans hgone, fun hended => ?_⟩
  exact ⟨h.reading.trans hended, h.frames⟩

theorem Writes.excused (h : Writes x x') (hx : x.Excused) : x'.Excused := by
  intro hlost
  rw [h.lost] at hlost
  obtain ⟨hgone, hdead⟩ := hx hlost
  exact ⟨h.forwarder.trans hgone, h.writing hdead⟩

end DeviceSession

namespace Supervisor

variable (encode : RawFrame → Option (List UInt8))

/-! ## The books -/

/-- What the program has handed over. -/
def sent (es : List SupervisorEvent) : List RawFrame :=
  es.filterMap fun e => match e with
    | .send f => some f
    | _ => none

/-- What the reader passes on in one event. -/
def heardNow (s : Supervisor) : SupervisorEvent → List RawFrame
  | .read events => match s.session with
      | some x => x.passed events
      | none => []
  | _ => []

/-- What the readers pass on in a run: the frames that they decode, but for those of a read behind
an answer that no writer takes any more. -/
def heard (s : Supervisor) : List SupervisorEvent → List RawFrame
  | [] => []
  | e :: es => s.heardNow e ++ match s.step encode e with
      | some s' => s'.heard es
      | none => []

/-- On their way from the reader to the program. -/
def pending (s : Supervisor) : List RawFrame :=
  match s.session with
  | some x => x.frames
  | none => []

def sessions (s : Supervisor) : List DeviceSession := s.past ++ s.session.toList

/-- The session as each part of the supervisor's loop finds it. -/
def Phase (stop : Bool) (session : Option DeviceSession) : Manager → Prop
  | .opening | .asleep _ =>
      ∀ x, session = some x → x.reading = false ∧ x.frames = [] ∧ x.forwarder = .gone
  | .pumping _ => ∀ x, session = some x → x.held = true
  | .joining =>
      ∀ x, session = some x → x.held = false ∧ (stop = true ∨ x.reading = false ∧ x.frames = [])
  | .stopped => stop = true

/-- Everything heard is delivered or on its way, unless the supervisor was told to stop. -/
inductive Arrived (s : Supervisor) (heard : List RawFrame) : Prop
  | all (h : s.frames ++ s.pending = heard)
  | cut (hstop : s.stop = true) (hm : s.manager.closing = true) (h : s.frames <+: heard)

/-- Where the frames of both directions are. -/
structure Books (s : Supervisor) (heard sent : List RawFrame) : Prop where
  phase : Phase s.stop s.session s.manager
  delivered : Arrived s heard
  sent_eq : sent = s.sessions.flatMap DeviceSession.account ++ s.commands
  excused : ∀ x ∈ s.sessions, x.Excused

variable {encode} {s s' : Supervisor} {h c : List RawFrame} {x x' : DeviceSession}

theorem books_new : Books new [] [] := ⟨nofun, .all rfl, rfl, nofun⟩

theorem Phase.keeps {stop : Bool} {m : Manager} (hphase : Phase stop (some x) m)
    (hx : x.Keeps x') : Phase stop (some x') m := by
  have hended : x.reading = false ∧ x.frames = [] → x'.reading = false ∧ x'.frames = [] := by
    rintro ⟨hreading, hframes⟩
    obtain ⟨hreading', hframes'⟩ := hx.ended hreading
    exact ⟨hreading', hframes'.trans hframes⟩
  have hrests : x.reading = false ∧ x.frames = [] ∧ x.forwarder = .gone →
      x'.reading = false ∧ x'.frames = [] ∧ x'.forwarder = .gone := by
    rintro ⟨hreading, hframes, hgone⟩
    obtain ⟨hreading', hframes'⟩ := hended ⟨hreading, hframes⟩
    exact ⟨hreading', hframes', hx.gone hgone⟩
  cases m with
  | opening =>
      rintro _ ⟨⟩
      exact hrests (hphase x rfl)
  | asleep n =>
      rintro _ ⟨⟩
      exact hrests (hphase x rfl)
  | pumping greedy =>
      rintro _ ⟨⟩
      exact hx.held.trans (hphase x rfl)
  | joining =>
      rintro _ ⟨⟩
      obtain ⟨hheld, h⟩ := hphase x rfl
      exact ⟨hx.held.trans hheld, h.imp_right hended⟩
  | stopped => exact hphase

theorem Phase.told {stop : Bool} {session : Option DeviceSession} {m : Manager}
    (hphase : Phase stop session m) : Phase true session m := by
  cases m with
  | opening => exact hphase
  | asleep n => exact hphase
  | pumping greedy => exact hphase
  | joining => exact fun x hx => ⟨(hphase x hx).1, .inl rfl⟩
  | stopped => rfl

theorem Arrived.frames_begin (hd : Arrived s h) : s.frames <+: h := by
  cases hd with
  | all h =>
      rw [← h]
      exact List.prefix_append _ _
  | cut hstop hm h => exact h

/-! ### The threads of the current session -/

/-- A turn that leaves the two queues of the program alone. -/
theorem Books.session (hb : Books s h c) (hx : s.session = some x) (hkeeps : x.Keeps x')
    (haccount : x'.account = x.account) (hexcused : x'.Excused) {out : List RawFrame}
    (hframes : x'.frames = x.frames ++ out) :
    Books { s with session := some x' } (h ++ out) c := by
  constructor
  · have hphase := hb.phase
    rw [hx] at hphase
    exact hphase.keeps hkeeps
  · cases hb.delivered with
    | all hall =>
        refine .all ?_
        rw [← hall, pending, pending, hx]
        dsimp only
        rw [hframes, List.append_assoc]
    | cut hstop hm hcut => exact .cut hstop hm (hcut.trans (List.prefix_append h out))
  · rw [hb.sent_eq, sessions, sessions, hx]
    simp [haccount]
  · intro y hy
    rcases List.mem_append.mp hy with hy | hy
    · exact hb.excused y (List.mem_append_left _ hy)
    · obtain rfl : y = x' := by simpa using hy
      exact hexcused

theorem mem_sessions (hx : s.session = some x) : x ∈ s.sessions := by
  rw [sessions, hx]
  simp

theorem Books.writes (hb : Books s h c) (hx : s.session = some x) (hw : x.Writes x') :
    Books { s with session := some x' } h c := by
  have hall := hb.session hx hw.keeps hw.account (hw.excused (hb.excused x (mem_sessions hx)))
    (hw.frames.trans (List.append_nil _).symm)
  rwa [List.append_nil] at hall

theorem Books.read (hb : Books s h c) (hx : s.session = some x) (hreading : x.reading = true)
    (events : List DeviceEvent) :
    Books { s with session := some (x.pass events) } (h ++ x.passed events) c := by
  have hp := x.pass_passes events
  refine hb.session hx ⟨hp.held, fun hgone => hp.forwarder.trans hgone, fun hended => ?_⟩ hp.account
    (fun hlost => ?_) hp.frames
  · rw [hreading] at hended
    cases hended
  · rw [hp.lost] at hlost
    obtain ⟨hgone, hdead⟩ := hb.excused x (mem_sessions hx) hlost
    exact ⟨hp.forwarder.trans hgone, hp.writing.trans hdead⟩

theorem Books.readerEnds (hb : Books s h c) (hx : s.session = some x) :
    Books { s with session := some { x with reading := false } } h c := by
  have hall := @Books.session _ _ _ _ { x with reading := false } hb hx
    ⟨rfl, fun hgone => hgone, fun _ => ⟨rfl, rfl⟩⟩ rfl (hb.excused x (mem_sessions hx)) []
    (List.append_nil _).symm
  rwa [List.append_nil] at hall

/-- The forwarder moves on without a command. -/
theorem Books.forwarderMoves (hb : Books s h c) (hx : s.session = some x) {forwarder : Forwarder}
    (hthere : x.forwarder ≠ .gone) :
    Books { s with session := some { x with forwarder } } h c := by
  have hall := @Books.session _ _ _ _ { x with forwarder } hb hx
    ⟨rfl, fun hgone => absurd hgone hthere, fun hended => ⟨hended, rfl⟩⟩ rfl
    (fun hlost => absurd (hb.excused x (mem_sessions hx) hlost).1 hthere) []
    (List.append_nil _).symm
  rwa [List.append_nil] at hall

/-- The forwarder takes a command, for the writer or in vain. -/
theorem Books.forwards (hb : Books s h c) (hx : s.session = some x) {f : RawFrame}
    {commands : List RawFrame} (hcommands : s.commands = f :: commands) (hkeeps : x.Keeps x')
    (haccount : x'.account = x.account ++ [f]) (hframes : x'.frames = x.frames)
    (hexcused : x'.Excused) : Books { s with commands, session := some x' } h c := by
  constructor
  · have hphase := hb.phase
    rw [hx] at hphase
    exact hphase.keeps hkeeps
  · cases hb.delivered with
    | all hall =>
        refine .all ?_
        rw [← hall, pending, pending, hx]
        dsimp only
        rw [hframes]
    | cut hstop hm hcut => exact .cut hstop hm hcut
  · rw [hb.sent_eq, sessions, sessions, hx, hcommands]
    simp [haccount]
  · intro y hy
    rcases List.mem_append.mp hy with hy | hy
    · exact hb.excused y (List.mem_append_left _ hy)
    · obtain rfl : y = x' := by simpa using hy
      exact hexcused

theorem Books.forward (hb : Books s h c) (hx : s.session = some x) (hs : s.forward x = some s') :
    Books s' h c := by
  have hlost : x.forwarder ≠ .gone → x.lost = none := by
    intro hthere
    by_contra hsome
    exact hthere (hb.excused x (mem_sessions hx) hsome).1
  rw [Supervisor.forward] at hs
  split at hs
  · next hchecking =>
    cases hs
    exact hb.forwarderMoves hx (by rw [hchecking]; nofun)
  · next hreceiving _ =>
    cases hs
    exact hb.forwarderMoves hx (by rw [hreceiving]; nofun)
  · next f commands hreceiving hcommands =>
    have hthere : x.forwarder ≠ .gone := by
      rw [hreceiving]
      nofun
    cases hs
    by_cases hwriting : x.writing
    · rw [if_pos hwriting]
      refine hb.forwards hx hcommands
        ⟨rfl, fun hgone => absurd hgone hthere, fun hended => ⟨hended, rfl⟩⟩ ?_ rfl ?_
      · simp [DeviceSession.account, hlost hthere, DeviceSession.frameOf]
      · exact fun hsome => absurd (hlost hthere) hsome
    · rw [if_neg hwriting]
      refine hb.forwards hx hcommands ⟨rfl, fun _ => rfl, fun hended => ⟨hended, rfl⟩⟩ ?_ rfl ?_
      · simp [DeviceSession.account, hlost hthere]
      · exact fun _ => ⟨rfl, Bool.eq_false_iff.mpr hwriting⟩
  · cases hs

/-! ### The loop of the supervisor -/

/-- Whoever does not close has heard everything. -/
theorem Books.arrived (hb : Books s h c) (hm : s.manager.closing = false) :
    s.frames ++ s.pending = h := by
  cases hb.delivered with
  | all hall => exact hall
  | cut _ hclosing _ =>
      rw [hm] at hclosing
      cases hclosing

theorem Books.pumping (hb : Books s h c) (hx : s.session = some x) {greedy : Bool}
    (hm : s.manager = .pumping greedy) : x.held = true ∧ s.frames ++ x.frames = h := by
  have hphase := hb.phase
  rw [hm] at hphase
  have hall := hb.arrived (by rw [hm]; rfl)
  rw [pending, hx] at hall
  exact ⟨hphase x hx, hall⟩

/-- The supervisor's own turn, which is about the frames of the session. -/
theorem Books.managed (hb : Books s h c) (hx : s.session = some x)
    (hphase : Phase s'.stop s'.session s'.manager) (harrived : Arrived s' h)
    (hpast : s'.past = s.past) (hx' : s'.session = some x') (hcommands : s'.commands = s.commands)
    (haccount : x'.account = x.account) (hexcused : x.Excused → x'.Excused) : Books s' h c := by
  refine ⟨hphase, harrived, ?_, ?_⟩
  · rw [hb.sent_eq, sessions, sessions, hx, hx', hpast, hcommands]
    simp [haccount]
  · intro y hy
    rw [sessions, hpast, hx'] at hy
    rcases List.mem_append.mp hy with hy | hy
    · exact hb.excused y (List.mem_append_left _ hy)
    · obtain rfl : y = x' := by simpa using hy
      exact hexcused (hb.excused x (mem_sessions hx))

theorem Books.pump (hb : Books s h c) (hx : s.session = some x) {greedy : Bool}
    (hm : s.manager = .pumping greedy) (hs : s.pump greedy x = some s') : Books s' h c := by
  obtain ⟨hheld, hall⟩ := hb.pumping hx hm
  rw [Supervisor.pump] at hs
  split at hs
  · next f frames hframes =>
    rw [hframes] at hall
    split at hs
    · next hstop =>
      cases hs
      have hcut : s.frames <+: h := by
        rw [← hall]
        exact List.prefix_append _ _
      refine hb.managed hx ?_ (.cut hstop.2 rfl hcut) rfl rfl rfl rfl fun hexcused => hexcused
      rintro _ ⟨⟩
      exact ⟨rfl, .inl hstop.2⟩
    · cases hs
      have harrived : s.frames ++ [f] ++ frames = h := by
        rw [← hall, List.append_assoc, List.singleton_append]
      refine hb.managed hx ?_ (.all harrived) rfl rfl rfl rfl fun hexcused => hexcused
      rintro _ ⟨⟩
      exact hheld
  · next hframes =>
    split at hs
    · split at hs
      · cases hs
        refine hb.managed hx ?_ ?_ rfl hx rfl rfl fun hexcused => hexcused
        · intro y hy
          obtain rfl : x = y := Option.some_inj.mp (hx.symm.trans hy)
          exact hheld
        · exact .all (hb.arrived (by rw [hm]; rfl))
      · cases hs
    · next hreading =>
      cases hs
      refine hb.managed hx ?_ (.all hall) rfl rfl rfl rfl fun hexcused => hexcused
      rintro _ ⟨⟩
      exact ⟨rfl, .inr ⟨Bool.eq_false_iff.mpr hreading, hframes⟩⟩

theorem Books.join (hb : Books s h c) (hx : s.session = some x) (hm : s.manager = .joining)
    (hs : s.join x = some s') : Books s' h c := by
  rw [Supervisor.join] at hs
  split at hs
  · next hgone =>
    cases hs
    have hphase := hb.phase
    rw [hm] at hphase
    by_cases hstop : s.stop
    · refine hb.managed hx ?_ ?_ rfl hx rfl rfl fun hexcused => hexcused
      · rw [if_pos hstop]
        exact hstop
      · rw [if_pos hstop]
        exact .cut hstop rfl hb.delivered.frames_begin
    · obtain ⟨hreading, hframes⟩ := (hphase x hx).2.resolve_left hstop
      rw [if_neg hstop]
      refine hb.managed hx ?_ ?_ rfl hx rfl rfl fun hexcused => hexcused
      · intro y hy
        obtain rfl : x = y := Option.some_inj.mp (hx.symm.trans hy)
        exact ⟨hreading, hframes, hgone⟩
      · cases hb.delivered with
        | all hall => exact .all hall
        | cut hstop' _ _ => exact absurd hstop' hstop
  · cases hs

/-- A turn of the supervisor between two sessions, or before the first. -/
theorem Books.rest (hb : Books s h c) (hm : s.manager.closing = false) (backoff : ℕ) (m : Manager)
    (hphase : Phase s.stop s.session m) :
    Books { s with backoff, manager := m } h c :=
  ⟨hphase, .all (hb.arrived hm), hb.sent_eq, hb.excused⟩

theorem Books.openDevice (hb : Books s h c) (hm : s.manager = .opening) (ok : Bool) :
    Books (s.openDevice ok) h c := by
  have hphase := hb.phase
  rw [hm] at hphase
  have hclosing : s.manager.closing = false := by
    rw [hm]
    rfl
  rw [Supervisor.openDevice]
  split
  · next hstop => exact hb.rest hclosing _ _ hstop
  · split
    · refine ⟨?_, .all ?_, ?_, ?_⟩
      · rintro _ ⟨⟩
        rfl
      · rw [← hb.arrived hclosing, pending, pending]
        cases hx : s.session with
        | none => rfl
        | some x =>
            dsimp only
            rw [(hphase x hx).2.1]
            rfl
      · rw [hb.sent_eq]
        simp [sessions, DeviceSession.account, DeviceSession.new]
      · intro y hy
        rcases List.mem_append.mp hy with hy | hy
        · exact hb.excused y hy
        · obtain rfl : y = .new := by simpa using hy
          exact DeviceSession.excused_new
    · exact hb.rest hclosing _ _ hphase

theorem Books.tick (hb : Books s h c) {remaining : ℕ} (hm : s.manager = .asleep remaining) :
    Books (s.tick remaining) h c := by
  have hphase := hb.phase
  rw [hm] at hphase
  have hclosing : s.manager.closing = false := by
    rw [hm]
    rfl
  rw [Supervisor.tick]
  split
  · exact hb.rest hclosing _ _ hphase
  · exact hb.rest hclosing _ _ hphase

/-! ### The program, and writers of old -/

theorem Books.send (hb : Books s h c) (f : RawFrame) :
    Books { s with commands := s.commands ++ [f] } h (c ++ [f]) := by
  refine ⟨hb.phase, ?_, ?_, hb.excused⟩
  · cases hb.delivered with
    | all hall => exact .all hall
    | cut hstop hm hcut => exact .cut hstop hm hcut
  · rw [hb.sent_eq, List.append_assoc]
    rfl

theorem Books.shutdown (hb : Books s h c) : Books { s with stop := true } h c := by
  refine ⟨?_, ?_, hb.sent_eq, hb.excused⟩
  · exact hb.phase.told
  · cases hb.delivered with
    | all hall => exact .all hall
    | cut _ hm hcut => exact .cut rfl hm hcut

theorem Books.past (hb : Books s h c) {id : ℕ} (hx : s.past[id]? = some x) (hw : x.Writes x') :
    Books { s with past := s.past.set id x' } h c := by
  obtain ⟨hlt, hget⟩ := List.getElem?_eq_some_iff.mp hx
  have hsplit : s.past = s.past.take id ++ x :: s.past.drop (id + 1) := by
    rw [← hget, List.cons_getElem_drop_succ, List.take_append_drop]
  refine ⟨hb.phase, ?_, ?_, ?_⟩
  · cases hb.delivered with
    | all hall => exact .all hall
    | cut hstop hm hcut => exact .cut hstop hm hcut
  · rw [hb.sent_eq, sessions, sessions, List.set_eq_take_append_cons_drop, if_pos hlt]
    nth_rewrite 1 [hsplit]
    simp [hw.account]
  · intro y hy
    rcases List.mem_append.mp hy with hy | hy
    · rcases List.mem_or_eq_of_mem_set hy with hy | rfl
      · exact hb.excused y (List.mem_append_left _ hy)
      · exact hw.excused (hb.excused x (List.mem_append_left _ (List.mem_of_getElem? hx)))
    · exact hb.excused y (List.mem_append_right _ hy)

/-! ### Runs -/

/-- Each event enters the books. -/
theorem Books.step (hb : Books s h c) {e : SupervisorEvent} (hs : s.step encode e = some s') :
    Books s' (h ++ s.heardNow e) (c ++ sent [e]) := by
  have hquiet : ∀ {s' : Supervisor}, Books s' h c → Books s' (h ++ []) (c ++ []) := by
    intro s' hb'
    rwa [List.append_nil, List.append_nil]
  cases e with
  | send f =>
      cases hs
      have hall := hb.send f
      rwa [← List.append_nil h] at hall
  | shutdown =>
      cases hs
      exact hquiet hb.shutdown
  | openDevice ok =>
      rw [Supervisor.step] at hs
      split at hs
      · next hm =>
        cases hs
        exact hquiet (hb.openDevice hm ok)
      · cases hs
  | tick =>
      rw [Supervisor.step] at hs
      split at hs
      · next hm =>
        cases hs
        exact hquiet (hb.tick hm)
      · cases hs
  | read events =>
      rw [Supervisor.step, Option.bind_eq_some_iff] at hs
      obtain ⟨x, hx, hs⟩ := hs
      split at hs
      · next hreading =>
        cases hs
        have hall := hb.read hx hreading events
        rw [heardNow, hx]
        rwa [← List.append_nil c] at hall
      · cases hs
  | readerEnds =>
      rw [Supervisor.step, Option.bind_eq_some_iff] at hs
      obtain ⟨x, hx, hs⟩ := hs
      split at hs
      · cases hs
        exact hquiet (hb.readerEnds hx)
      · cases hs
  | pump =>
      rw [Supervisor.step] at hs
      split at hs
      · next hm =>
        obtain ⟨x, hx, hs⟩ := Option.bind_eq_some_iff.mp hs
        exact hquiet (hb.pump hx hm hs)
      · cases hs
  | forward =>
      obtain ⟨x, hx, hs⟩ := Option.bind_eq_some_iff.mp hs
      exact hquiet (hb.forward hx hs)
  | join =>
      rw [Supervisor.step] at hs
      split at hs
      · next hm =>
        obtain ⟨x, hx, hs⟩ := Option.bind_eq_some_iff.mp hs
        exact hquiet (hb.join hx hm hs)
      · cases hs
  | write ok =>
      obtain ⟨x, hx, hs⟩ := Option.bind_eq_some_iff.mp hs
      obtain ⟨x', hx', rfl⟩ := Option.map_eq_some_iff.mp hs
      exact hquiet (hb.writes hx (DeviceSession.write_writes hx'))
  | breakOff =>
      obtain ⟨x, hx, hs⟩ := Option.bind_eq_some_iff.mp hs
      obtain ⟨x', hx', rfl⟩ := Option.map_eq_some_iff.mp hs
      exact hquiet (hb.writes hx (DeviceSession.breakOff_writes hx'))
  | writePast id ok =>
      obtain ⟨x, hx, hs⟩ := Option.bind_eq_some_iff.mp hs
      obtain ⟨x', hx', rfl⟩ := Option.map_eq_some_iff.mp hs
      exact hquiet (hb.past hx (DeviceSession.write_writes hx'))
  | breakOffPast id =>
      obtain ⟨x, hx, hs⟩ := Option.bind_eq_some_iff.mp hs
      obtain ⟨x', hx', rfl⟩ := Option.map_eq_some_iff.mp hs
      exact hquiet (hb.past hx (DeviceSession.breakOff_writes hx'))

theorem run_cons_eq_some {e : SupervisorEvent} {es : List SupervisorEvent} :
    s.run encode (e :: es) = some s' ↔
      ∃ mid, s.step encode e = some mid ∧ mid.run encode es = some s' := by
  rw [run, Option.bind_eq_some_iff]

theorem Books.run (hb : Books s h c) {es : List SupervisorEvent} (hs : s.run encode es = some s') :
    Books s' (h ++ s.heard encode es) (c ++ sent es) := by
  induction es generalizing s h c with
  | nil =>
      cases hs
      rw [heard, sent, List.filterMap_nil, List.append_nil, List.append_nil]
      exact hb
  | cons e es ih =>
      obtain ⟨mid, hstep, hrun⟩ := run_cons_eq_some.mp hs
      have hall := ih (hb.step hstep) hrun
      rw [heard, hstep]
      dsimp only
      rwa [List.append_assoc, List.append_assoc, sent, sent, ← List.filterMap_append,
        List.singleton_append] at hall

theorem taken_sublist (sessions : List DeviceSession) :
    (sessions.flatMap DeviceSession.taken).Sublist (sessions.flatMap DeviceSession.account) := by
  induction sessions with
  | nil => exact List.Sublist.refl []
  | cons x sessions ih =>
      rw [List.flatMap_cons, List.flatMap_cons]
      refine List.Sublist.append ?_ ih
      rw [DeviceSession.account, List.append_assoc]
      exact List.sublist_append_left _ _

/-- The books of a whole run. -/
theorem books_of_run {es : List SupervisorEvent} (hs : new.run encode es = some s) :
    Books s (new.heard encode es) (sent es) := by
  have hall := books_new.run hs
  rwa [List.nil_append, List.nil_append] at hall

/-! ### Attempts in a row -/

/-- How often the device has failed to open since it was last open. -/
def failures (es : List SupervisorEvent) : ℕ :=
  es.foldl (fun k e => match e with
    | .openDevice true => 0
    | .openDevice false => k + 1
    | _ => k) 0

/-- A turn that is no attempt. The flag is never taken back. -/
structure NoAttempt (s s' : Supervisor) : Prop where
  backoff : s'.backoff = s.backoff
  stop : s'.stop = false → s.stop = false

theorem NoAttempt.of_same (hbackoff : s'.backoff = s.backoff) (hstop : s'.stop = s.stop) :
    NoAttempt s s' :=
  ⟨hbackoff, fun h => hstop.symm.trans h⟩

theorem tick_noAttempt (s : Supervisor) (remaining : ℕ) : NoAttempt s (s.tick remaining) := by
  rw [tick]
  split
  · exact .of_same rfl rfl
  · exact .of_same rfl rfl

theorem pump_noAttempt {greedy : Bool} (hs : s.pump greedy x = some s') : NoAttempt s s' := by
  rw [pump] at hs
  split at hs
  · split at hs
    · cases hs
      exact .of_same rfl rfl
    · cases hs
      exact .of_same rfl rfl
  · split at hs
    · split at hs
      · cases hs
        exact .of_same rfl rfl
      · cases hs
    · cases hs
      exact .of_same rfl rfl

theorem forward_noAttempt (hs : s.forward x = some s') : NoAttempt s s' := by
  rw [forward] at hs
  split at hs
  · cases hs
    exact .of_same rfl rfl
  · cases hs
    exact .of_same rfl rfl
  · cases hs
    exact .of_same rfl rfl
  · cases hs

theorem join_noAttempt (hs : s.join x = some s') : NoAttempt s s' := by
  rw [join] at hs
  split at hs
  · cases hs
    exact .of_same rfl rfl
  · cases hs

/-- What an event is to the attempts. -/
theorem step_openDevice {e : SupervisorEvent} (hs : s.step encode e = some s') :
    (∃ ok, e = .openDevice ok ∧ s' = s.openDevice ok) ∨
      (∀ ok, e ≠ .openDevice ok) ∧ NoAttempt s s' := by
  cases e with
  | openDevice ok =>
      rw [Supervisor.step] at hs
      split at hs
      · cases hs
        exact .inl ⟨ok, rfl, rfl⟩
      · cases hs
  | send f =>
      cases hs
      exact .inr ⟨nofun, .of_same rfl rfl⟩
  | shutdown =>
      cases hs
      exact .inr ⟨nofun, rfl, nofun⟩
  | tick =>
      rw [Supervisor.step] at hs
      split at hs
      · cases hs
        exact .inr ⟨nofun, tick_noAttempt s _⟩
      · cases hs
  | read events =>
      obtain ⟨x, hx, hs⟩ := Option.bind_eq_some_iff.mp hs
      split at hs
      · cases hs
        exact .inr ⟨nofun, .of_same rfl rfl⟩
      · cases hs
  | readerEnds =>
      obtain ⟨x, hx, hs⟩ := Option.bind_eq_some_iff.mp hs
      split at hs
      · cases hs
        exact .inr ⟨nofun, .of_same rfl rfl⟩
      · cases hs
  | pump =>
      rw [Supervisor.step] at hs
      split at hs
      · obtain ⟨x, hx, hs⟩ := Option.bind_eq_some_iff.mp hs
        exact .inr ⟨nofun, pump_noAttempt hs⟩
      · cases hs
  | forward =>
      obtain ⟨x, hx, hs⟩ := Option.bind_eq_some_iff.mp hs
      exact .inr ⟨nofun, forward_noAttempt hs⟩
  | join =>
      rw [Supervisor.step] at hs
      split at hs
      · obtain ⟨x, hx, hs⟩ := Option.bind_eq_some_iff.mp hs
        exact .inr ⟨nofun, join_noAttempt hs⟩
      · cases hs
  | write ok =>
      obtain ⟨x, hx, hs⟩ := Option.bind_eq_some_iff.mp hs
      obtain ⟨x', hx', rfl⟩ := Option.map_eq_some_iff.mp hs
      exact .inr ⟨nofun, .of_same rfl rfl⟩
  | breakOff =>
      obtain ⟨x, hx, hs⟩ := Option.bind_eq_some_iff.mp hs
      obtain ⟨x', hx', rfl⟩ := Option.map_eq_some_iff.mp hs
      exact .inr ⟨nofun, .of_same rfl rfl⟩
  | writePast id ok =>
      obtain ⟨x, hx, hs⟩ := Option.bind_eq_some_iff.mp hs
      obtain ⟨x', hx', rfl⟩ := Option.map_eq_some_iff.mp hs
      exact .inr ⟨nofun, .of_same rfl rfl⟩
  | breakOffPast id =>
      obtain ⟨x, hx, hs⟩ := Option.bind_eq_some_iff.mp hs
      obtain ⟨x', hx', rfl⟩ := Option.map_eq_some_iff.mp hs
      exact .inr ⟨nofun, .of_same rfl rfl⟩

theorem failures_append_quiet {es : List SupervisorEvent} {e : SupervisorEvent}
    (he : ∀ ok, e ≠ .openDevice ok) : failures (es ++ [e]) = failures es := by
  rw [failures, List.foldl_append, List.foldl_cons, List.foldl_nil]
  split
  · exact absurd rfl (he true)
  · exact absurd rfl (he false)
  · rfl

theorem openDevice_stop (s : Supervisor) (ok : Bool) : (s.openDevice ok).stop = s.stop := by
  rw [openDevice]
  split
  · rfl
  · split
    · rfl
    · rfl

/-- Each failure doubles the pause, up to half a minute. -/
theorem backoff_double (k : ℕ) :
    min (min (INITIAL_BACKOFF * 2 ^ k) MAX_BACKOFF * 2) MAX_BACKOFF =
      min (INITIAL_BACKOFF * 2 ^ (k + 1)) MAX_BACKOFF := by
  rw [Nat.pow_succ, ← Nat.mul_assoc]
  omega

theorem run_append {es later : List SupervisorEvent} :
    s.run encode (es ++ later) = (s.run encode es).bind (·.run encode later) := by
  induction es generalizing s with
  | nil => rfl
  | cons e es ih =>
      rw [List.cons_append, run, run, Option.bind_assoc]
      simp only [ih]

theorem backoff_of_run {es : List SupervisorEvent} (hs : new.run encode es = some s)
    (hstop : s.stop = false) : s.backoff = min (INITIAL_BACKOFF * 2 ^ failures es) MAX_BACKOFF := by
  induction es using List.reverseRecOn generalizing s with
  | nil =>
      cases hs
      rfl
  | append_singleton es e ih =>
      rw [run_append] at hs
      obtain ⟨mid, hmid, hs⟩ := Option.bind_eq_some_iff.mp hs
      obtain ⟨_, hstep, hend⟩ := run_cons_eq_some.mp hs
      cases hend
      obtain ⟨ok, rfl, rfl⟩ | ⟨hquiet, hsame⟩ := step_openDevice hstep
      · have hgoes : mid.stop = false := (openDevice_stop mid ok).symm.trans hstop
        rw [failures, List.foldl_append, ← failures, openDevice, hgoes]
        cases ok with
        | true => rfl
        | false =>
            have hbefore := ih hmid hgoes
            dsimp only [List.foldl_cons, List.foldl_nil]
            rw [if_neg Bool.false_ne_true, if_neg Bool.false_ne_true, hbefore]
            exact backoff_double _
      · rw [failures_append_quiet hquiet, hsame.backoff]
        exact ih hmid (hsame.stop hstop)

end Supervisor

variable {encode : RawFrame → Option (List UInt8)}

/-- The program gets the frames of all sessions in the order in which the readers pass them on, none
of them twice. What is not there yet waits in the channel of the session, unless the supervisor was
told to stop. -/
theorem supervised_frames {es : List SupervisorEvent} {s : Supervisor}
    (hs : Supervisor.new.run encode es = some s) :
    s.frames <+: Supervisor.new.heard encode es ∧
      (s.stop = false → s.frames ++ s.pending = Supervisor.new.heard encode es) := by
  have hb := Supervisor.books_of_run hs
  refine ⟨hb.delivered.frames_begin, fun hstop => ?_⟩
  cases hb.delivered with
  | all hall => exact hall
  | cut hstop' _ _ =>
      rw [hstop] at hstop'
      cases hstop'

theorem supervised_frames_one :
    ∃ s, Supervisor.new.run (fun _ => none)
        [.openDevice true, .read [.frame ⟨none, 6, 60928, 33, 255, []⟩], .readerEnds, .pump] =
          some s ∧
      s.frames ++ s.pending = [⟨none, 6, 60928, 33, 255, []⟩] := by
  obtain ⟨-, h⟩ := @supervised_frames (fun _ => none)
    [.openDevice true, .read [.frame ⟨none, 6, 60928, 33, 255, []⟩], .readerEnds, .pump] _ rfl
  exact ⟨_, rfl, h rfl⟩

/-- The pause after a failure. -/
theorem supervised_pause {es : List SupervisorEvent} {s : Supervisor}
    (hs : Supervisor.new.run encode (es ++ [.openDevice false]) = some s) (hstop : s.stop = false) :
    s.manager = .asleep (min (INITIAL_BACKOFF * 2 ^ Supervisor.failures es) MAX_BACKOFF) := by
  rw [Supervisor.run_append] at hs
  obtain ⟨mid, hmid, hs⟩ := Option.bind_eq_some_iff.mp hs
  obtain ⟨_, hstep, hend⟩ := Supervisor.run_cons_eq_some.mp hs
  cases hend
  obtain ⟨ok, hok, rfl⟩ | ⟨hquiet, -⟩ := Supervisor.step_openDevice hstep
  · cases hok
    have hgoes : mid.stop = false := (Supervisor.openDevice_stop mid false).symm.trans hstop
    rw [Supervisor.openDevice, hgoes, if_neg Bool.false_ne_true, if_neg Bool.false_ne_true,
      Supervisor.backoff_of_run hmid hgoes]
  · exact absurd rfl (hquiet false)

/-- The second failure since the start. -/
theorem supervised_pause_second :
    ∃ s, Supervisor.new.run (fun _ => none)
        ([.openDevice false] ++ List.replicate 11 .tick ++ [.openDevice false]) = some s ∧
      s.manager = .asleep 1000 := by
  have h := @supervised_pause (fun _ => none) ([.openDevice false] ++ List.replicate 11 .tick) _ rfl rfl
  exact ⟨_, rfl, h⟩

end Canboat
