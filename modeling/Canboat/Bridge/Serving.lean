import Mathlib.Data.List.Nodup
import Mathlib.Data.List.Infix
import Mathlib.Data.Nat.Notation

/-!
# The broadcast streams of the daemons

Lines go from the pipeline's batcher through a hub to the threads of the connected clients. The
pipeline and the threads take their steps in any order. Times are in milliseconds, and text is
bytes.
-/

namespace Canboat

def BATCH_MAX_AGE : ℕ := 25

def BATCH_MAX_BYTES : ℕ := 16 * 1024

/-- How much a thread gathers for one write. -/
def MAX_BATCH : ℕ := 64 * 1024

/-- Subscribers are the numbers of the clients' threads. -/
structure Hub where
  subscribers : List ℕ
  count : ℕ
  deriving DecidableEq

def Hub.new : Hub := { subscribers := [], count := 0 }

def Hub.hasSubscribers (h : Hub) : Bool := 0 < h.count

def Hub.subscribe (h : Hub) (client : ℕ) : Hub :=
  let subscribers := h.subscribers ++ [client]
  { subscribers, count := subscribers.length }

/-- `sent` says where the send succeeds, which is where the receiver still is. -/
def Hub.broadcast (h : Hub) (sent : ℕ → Bool) : Hub :=
  let subscribers := h.subscribers.filter sent
  { subscribers, count := subscribers.length }

/-- What a server sends a client before it subscribes, what it sends after that, and how much it
gathers for one write. -/
structure StreamServer where
  hello : List UInt8
  header : Option (List UInt8)
  maxBatch : ℕ

/-- The read-only ports for text. -/
def streamServer (header : Option (List UInt8)) : StreamServer :=
  { hello := [], header, maxBatch := MAX_BATCH }

/-- The port for whole frames forwards each chunk as it is. -/
def binaryServer (hello : List UInt8) : StreamServer :=
  { hello, header := none, maxBatch := 0 }

/-- Where a client's thread is. A thread that is gone has dropped its receiver. -/
inductive ClientStage
  | greeting
  | waiting
  | filling (batch : List UInt8)
  | writing (batch : List UInt8)
  | gone
  deriving DecidableEq

structure StreamClient where
  stage : ClientStage
  rx : List (List UInt8)
  written : List UInt8
  deriving DecidableEq

namespace StreamClient

variable (server : StreamServer)

/-- The thread right after it has subscribed. -/
def new : StreamClient := { stage := .greeting, rx := [], written := server.hello }

def Listens (c : StreamClient) : Prop := c.stage ≠ .gone

instance (c : StreamClient) : Decidable c.Listens := inferInstanceAs (Decidable (_ ≠ _))

/-- A write that fails may have sent some of the bytes. -/
def writeAll (c : StreamClient) (bytes : List UInt8) : Option ℕ → StreamClient
  | none => { c with stage := .waiting, written := c.written ++ bytes }
  | some sent => { c with stage := .gone, written := c.written ++ bytes.take sent }

/-- What the thread does next. `failure` is about the write, if there is one. -/
def step (failure : Option ℕ) (c : StreamClient) : StreamClient :=
  match c.stage, c.rx with
  | .greeting, _ =>
      match server.header with
      | none => { c with stage := .waiting }
      | some bytes => c.writeAll bytes failure
  | .waiting, [] => c
  | .waiting, line :: rx => { c with stage := .filling line, rx }
  | .filling batch, [] => { c with stage := .writing batch }
  | .filling batch, line :: rx =>
      if batch.length < server.maxBatch then { c with stage := .filling (batch ++ line), rx }
      else { c with stage := .writing batch }
  | .writing batch, _ => c.writeAll batch failure
  | .gone, _ => c

def receive (c : StreamClient) (chunk : List UInt8) : StreamClient :=
  { c with rx := c.rx ++ [chunk] }

end StreamClient

structure OutputBatcher where
  hub : Hub
  pending : List UInt8
  oldest : ℕ
  deriving DecidableEq

/-- The batcher of one stream with the clients of the stream. `offered` is a line for which the
pipeline has found subscribers, before it is in the batch. -/
structure Serving where
  batcher : OutputBatcher
  clients : List StreamClient
  offered : Option (List UInt8)
  deriving DecidableEq

inductive ServingEvent
  | connect
  | client (id : ℕ) (failure : Option ℕ)
  /-- The pipeline has a line and asks for subscribers. -/
  | gate (line : List UInt8)
  /-- Some streams ask a second time. -/
  | gateAgain
  | push (now : ℕ)
  | flushDue (now : ℕ)
  | flush

namespace Serving

variable (server : StreamServer)

def new (now : ℕ) : Serving :=
  { batcher := { hub := .new, pending := [], oldest := now }, clients := [], offered := none }

/-- A send to the client's channel would succeed. -/
def listens (s : Serving) (id : ℕ) : Bool :=
  match s.clients[id]? with
  | some c => c.Listens
  | none => false

def broadcast (s : Serving) (chunk : List UInt8) : Serving :=
  let hub := s.batcher.hub.broadcast s.listens
  { s with
    batcher := { s.batcher with hub }
    clients := s.clients.mapIdx fun id c => if id ∈ hub.subscribers then c.receive chunk else c }

def flush (s : Serving) : Serving :=
  let s' := s.broadcast s.batcher.pending
  { s' with batcher := { s'.batcher with pending := [] } }

def flushDue (s : Serving) (now : ℕ) : Serving :=
  if s.batcher.pending ≠ [] ∧ BATCH_MAX_AGE ≤ now - s.batcher.oldest then s.flush else s

def push (s : Serving) (line : List UInt8) (now : ℕ) : Serving :=
  let oldest := if s.batcher.pending = [] then now else s.batcher.oldest
  let pending := s.batcher.pending ++ line
  let s := { s with batcher := { s.batcher with pending, oldest } }
  if BATCH_MAX_BYTES ≤ pending.length then s.flush else s

/-- A line is in the pipeline's hands until it is pushed or dropped, so there is at most one. -/
def step (s : Serving) : ServingEvent → Option Serving
  | .connect =>
      some { s with
        batcher := { s.batcher with hub := s.batcher.hub.subscribe s.clients.length }
        clients := s.clients ++ [.new server] }
  | .client id failure => some { s with clients := s.clients.modify id (·.step server failure) }
  | .gate line =>
      match s.offered with
      | none => some (if s.batcher.hub.hasSubscribers then { s with offered := some line } else s)
      | some _ => none
  | .gateAgain => some (if s.batcher.hub.hasSubscribers then s else { s with offered := none })
  | .push now =>
      match s.offered with
      | none => none
      | some line => some ({ s with offered := none }.push line now)
  | .flushDue now => if s.offered = none then some (s.flushDue now) else none
  | .flush => if s.offered = none then some s.flush else none

def run (s : Serving) : List ServingEvent → Option Serving
  | [] => some s
  | e :: es => (s.step server e).bind (·.run es)

/-- The lines that the pipeline came up with. -/
def lines (es : List ServingEvent) : List (List UInt8) :=
  es.filterMap fun e => match e with
    | .gate line => some line
    | _ => none

theorem lines_append (es later : List ServingEvent) : lines (es ++ later) = lines es ++ lines later :=
  List.filterMap_append

/-! ## Who is subscribed -/

/-- The hub knows every client that still listens, and counts those it knows. -/
structure Sound (s : Serving) : Prop where
  count : s.batcher.hub.count = s.batcher.hub.subscribers.length
  nodup : s.batcher.hub.subscribers.Nodup
  fresh : ∀ id ∈ s.batcher.hub.subscribers, id < s.clients.length
  known : ∀ id c, s.clients[id]? = some c → c.Listens → id ∈ s.batcher.hub.subscribers

variable {server} {s s' : Serving}

theorem sound_new (now : ℕ) : (new now).Sound :=
  ⟨rfl, List.nodup_nil, nofun, nofun⟩

theorem listens_eq_true {id : ℕ} :
    s.listens id = true ↔ ∃ c, s.clients[id]? = some c ∧ c.Listens := by
  unfold listens
  cases h : s.clients[id]? with
  | none => simp
  | some c => simp

theorem listens_of_step {failure : Option ℕ} {c : StreamClient}
    (h : (c.step server failure).Listens) : c.Listens := by
  intro hgone
  apply h
  rcases c with ⟨stage, rx, written⟩
  cases hgone
  rfl

@[simp] theorem receive_stage (c : StreamClient) (chunk : List UInt8) :
    (c.receive chunk).stage = c.stage := rfl

theorem Sound.hasSubscribers (hs : s.Sound) {id : ℕ} {c : StreamClient}
    (hc : s.clients[id]? = some c) (hl : c.Listens) : s.batcher.hub.hasSubscribers = true := by
  have hmem := hs.known id c hc hl
  rw [Hub.hasSubscribers, hs.count]
  exact decide_eq_true (List.length_pos_of_mem hmem)

@[simp] theorem clients_broadcast (s : Serving) (chunk : List UInt8) (id : ℕ) :
    (s.broadcast chunk).clients[id]? = s.clients[id]?.map fun c =>
      if id ∈ s.batcher.hub.subscribers ∧ s.listens id then c.receive chunk else c := by
  simp only [broadcast, Hub.broadcast, List.getElem?_mapIdx, List.mem_filter]

theorem Sound.client_broadcast (hs : s.Sound) {chunk : List UInt8} {id : ℕ} {c : StreamClient}
    (hc : s.clients[id]? = some c) :
    (s.broadcast chunk).clients[id]? = some (if c.Listens then c.receive chunk else c) := by
  rw [clients_broadcast, hc, Option.map_some]
  congr 1
  refine if_congr ?_ rfl rfl
  constructor
  · rintro ⟨-, hl⟩
    obtain ⟨c', hc', hl⟩ := listens_eq_true.mp hl
    rw [hc] at hc'
    cases hc'
    exact hl
  · intro hl
    exact ⟨hs.known id c hc hl, listens_eq_true.mpr ⟨c, hc, hl⟩⟩

theorem Sound.broadcast (hs : s.Sound) (chunk : List UInt8) : (s.broadcast chunk).Sound := by
  refine ⟨rfl, hs.nodup.filter _, ?_, ?_⟩
  · intro id hid
    have hlt := hs.fresh id (List.mem_of_mem_filter hid)
    simpa [Serving.broadcast] using hlt
  · intro id c' hc' hl
    obtain ⟨c, hc⟩ : ∃ c, s.clients[id]? = some c := by
      rw [clients_broadcast] at hc'
      cases hc : s.clients[id]? with
      | none => simp [hc] at hc'
      | some c => exact ⟨c, rfl⟩
    rw [hs.client_broadcast hc] at hc'
    have hlc : c.Listens := by
      by_contra hgone
      rw [if_neg hgone] at hc'
      cases hc'
      exact hgone hl
    exact List.mem_filter.mpr ⟨hs.known id c hc hlc, listens_eq_true.mpr ⟨c, hc, hlc⟩⟩

/-- What is in the batch is none of the hub's business. -/
theorem Sound.congr (hs : s.Sound) (hhub : s'.batcher.hub = s.batcher.hub)
    (hclients : s'.clients = s.clients) : s'.Sound := by
  constructor
  · rw [hhub]
    exact hs.count
  · rw [hhub]
    exact hs.nodup
  · rw [hhub, hclients]
    exact hs.fresh
  · rw [hhub, hclients]
    exact hs.known

theorem Sound.flush (hs : s.Sound) : s.flush.Sound :=
  (hs.broadcast s.batcher.pending).congr rfl rfl

theorem Sound.flushDue (hs : s.Sound) (now : ℕ) : (s.flushDue now).Sound := by
  unfold Serving.flushDue
  split
  · exact hs.flush
  · exact hs

theorem Sound.push (hs : s.Sound) (line : List UInt8) (now : ℕ) : (s.push line now).Sound := by
  unfold Serving.push
  dsimp only
  split
  · exact Sound.flush (hs.congr rfl rfl)
  · exact hs.congr rfl rfl

theorem Sound.connect (hs : s.Sound) (h : s.step server .connect = some s') : s'.Sound := by
  cases h
  refine ⟨rfl, ?_, ?_, ?_⟩
  · refine List.nodup_append.mpr ⟨hs.nodup, List.nodup_singleton _, ?_⟩
    rintro id hid _ hid' rfl
    have hlt := hs.fresh id hid
    rw [List.mem_singleton.mp hid'] at hlt
    exact Nat.lt_irrefl _ hlt
  · intro id hid
    rw [List.length_append, List.length_singleton]
    rcases List.mem_append.mp hid with hid | hid
    · exact Nat.lt_succ_of_lt (hs.fresh id hid)
    · rw [List.mem_singleton.mp hid]
      exact Nat.lt_succ_self _
  · intro id c hc hl
    rw [List.getElem?_append] at hc
    apply List.mem_append.mpr
    split at hc
    · exact .inl (hs.known id c hc hl)
    · next hge =>
      have hid : id = s.clients.length := by
        have hlt := (List.getElem?_eq_some_iff.mp hc).1
        rw [List.length_singleton] at hlt
        omega
      exact .inr (List.mem_singleton.mpr hid)

theorem Sound.client (hs : s.Sound) (id : ℕ) (failure : Option ℕ) :
    Sound { s with clients := s.clients.modify id (·.step server failure) } := by
  refine ⟨hs.count, hs.nodup, ?_, ?_⟩
  · intro id' hid
    rw [List.length_modify]
    exact hs.fresh id' hid
  · intro id' c hc hl
    rw [List.getElem?_modify] at hc
    cases hold : s.clients[id']? with
    | none => simp [hold] at hc
    | some old =>
        simp only [hold, Option.map_eq_map, Option.map_some, Option.some_inj] at hc
        refine hs.known id' old hold ?_
        split at hc
        · rw [← hc] at hl
          exact listens_of_step hl
        · rw [hc]
          exact hl

theorem Sound.step (hs : s.Sound) {e : ServingEvent} (h : s.step server e = some s') :
    s'.Sound := by
  cases e with
  | connect => exact hs.connect h
  | client id failure =>
      cases h
      exact hs.client id failure
  | gate line =>
      rw [Serving.step] at h
      split at h
      · cases h
        split
        · exact hs.congr rfl rfl
        · exact hs
      · cases h
  | gateAgain =>
      cases h
      split
      · exact hs
      · exact hs.congr rfl rfl
  | push now =>
      rw [Serving.step] at h
      split at h
      · cases h
      · cases h
        have hmid : Sound { s with offered := none } := hs.congr rfl rfl
        exact hmid.push _ now
  | flushDue now =>
      rw [Serving.step] at h
      split at h
      · cases h
        exact hs.flushDue now
      · cases h
  | flush =>
      rw [Serving.step] at h
      split at h
      · cases h
        exact hs.flush
      · cases h

theorem run_cons_eq_some {e : ServingEvent} {es : List ServingEvent} :
    s.run server (e :: es) = some s' ↔
      ∃ mid, s.step server e = some mid ∧ mid.run server es = some s' := by
  rw [run, Option.bind_eq_some_iff]

theorem Sound.run (hs : s.Sound) {es : List ServingEvent} (h : s.run server es = some s') :
    s'.Sound := by
  induction es generalizing s with
  | nil =>
      cases h
      exact hs
  | cons e es ih =>
      obtain ⟨mid, hstep, hrun⟩ := run_cons_eq_some.mp h
      exact ih (hs.step hstep) hrun

end Serving

/-! ## What the batch is made of -/

/-- The batch, and the line on its way there, are lines of a kind. -/
structure Serving.Holds (P : List UInt8 → Prop) (s : Serving) : Prop where
  pending : ∃ ls : List (List UInt8), (∀ line ∈ ls, P line) ∧ s.batcher.pending = ls.flatten
  offered : ∀ line, s.offered = some line → P line

namespace Serving.Holds

variable {P : List UInt8 → Prop} {server : StreamServer} {s s' : Serving}

theorem new (now : ℕ) : (Serving.new now).Holds P := ⟨⟨[], nofun, rfl⟩, nofun⟩

theorem congr (h : s.Holds P) (hpending : s'.batcher.pending = s.batcher.pending)
    (hoffered : s'.offered = s.offered) : s'.Holds P := by
  constructor
  · rw [hpending]
    exact h.pending
  · rw [hoffered]
    exact h.offered

theorem flush (h : s.Holds P) : s.flush.Holds P := ⟨⟨[], nofun, rfl⟩, h.offered⟩

theorem push (h : s.Holds P) {line : List UInt8} (hline : P line) (now : ℕ) :
    ({ s with offered := none }.push line now).Holds P := by
  obtain ⟨ls, hls, hpending⟩ := h.pending
  have hmid : ∀ s' : Serving, s'.batcher.pending = s.batcher.pending ++ line → s'.offered = none →
      s'.Holds P := by
    intro s' hp ho
    refine ⟨⟨ls ++ [line], ?_, ?_⟩, ?_⟩
    · intro l hl
      rcases List.mem_append.mp hl with hl | hl
      · exact hls l hl
      · rw [List.mem_singleton.mp hl]
        exact hline
    · rw [hp, hpending]
      simp
    · rw [ho]
      exact nofun
  unfold Serving.push
  dsimp only
  split
  · exact flush (hmid _ rfl rfl)
  · exact hmid _ rfl rfl

theorem step (h : s.Holds P) {e : ServingEvent} (he : ∀ line ∈ lines [e], P line)
    (hstep : s.step server e = some s') : s'.Holds P := by
  cases e with
  | connect =>
      cases hstep
      exact h.congr rfl rfl
  | client id failure =>
      cases hstep
      exact h.congr rfl rfl
  | gate line =>
      rw [Serving.step] at hstep
      split at hstep
      · cases hstep
        split
        · refine ⟨h.pending, ?_⟩
          rintro _ ⟨⟩
          exact he line List.mem_cons_self
        · exact h
      · cases hstep
  | gateAgain =>
      cases hstep
      split
      · exact h
      · exact ⟨h.pending, nofun⟩
  | push now =>
      rw [Serving.step] at hstep
      split at hstep
      · cases hstep
      · next line hline =>
        cases hstep
        exact h.push (h.offered line hline) now
  | flushDue now =>
      rw [Serving.step] at hstep
      split at hstep
      · cases hstep
        unfold Serving.flushDue
        split
        · exact h.flush
        · exact h
      · cases hstep
  | flush =>
      rw [Serving.step] at hstep
      split at hstep
      · cases hstep
        exact h.flush
      · cases hstep

theorem run (h : s.Holds P) {es : List ServingEvent} (hes : ∀ line ∈ lines es, P line)
    (hrun : s.run server es = some s') : s'.Holds P := by
  induction es generalizing s with
  | nil =>
      cases hrun
      exact h
  | cons e es ih =>
      obtain ⟨mid, hstep, hrest⟩ := run_cons_eq_some.mp hrun
      rw [← List.singleton_append, lines_append] at hes
      refine ih (h.step (fun line hline => ?_) hstep) (fun line hline => ?_) hrest
      · exact hes line (List.mem_append_left _ hline)
      · exact hes line (List.mem_append_right _ hline)

/-- Whole lines are with the pipeline. -/
theorem backlog (h : s.Holds P) : ∃ ls : List (List UInt8),
    (∀ line ∈ ls, P line) ∧ ls.flatten = s.batcher.pending ++ s.offered.getD [] := by
  obtain ⟨ls, hls, hpending⟩ := h.pending
  cases hoffered : s.offered with
  | none => exact ⟨ls, hls, by rw [hpending, Option.getD_none, List.append_nil]⟩
  | some line =>
      refine ⟨ls ++ [line], ?_, ?_⟩
      · rw [List.forall_mem_append, List.forall_mem_singleton]
        exact ⟨hls, h.offered line hoffered⟩
      · rw [List.flatten_append, hpending, List.flatten_singleton, Option.getD_some]

end Serving.Holds

/-! ## What a client gets -/

/-- What a client reads before the first line. -/
def StreamServer.opening (server : StreamServer) : List UInt8 :=
  server.hello ++ server.header.getD []

/-- A client has been handed these lines, in chunks of whole lines: it has written the first ones,
has more in its batch, and finds the others in its channel. -/
inductive Taken (server : StreamServer) (ls : List (List UInt8)) : StreamClient → Prop
  | greeting {queued : List (List (List UInt8))} (hls : ls = queued.flatten) :
      Taken server ls ⟨.greeting, queued.map List.flatten, server.hello⟩
  | waiting {sent : List (List UInt8)} {queued : List (List (List UInt8))}
      (hls : ls = sent ++ queued.flatten) :
      Taken server ls ⟨.waiting, queued.map List.flatten, server.opening ++ sent.flatten⟩
  | filling {sent kept : List (List UInt8)} {queued : List (List (List UInt8))}
      (hls : ls = sent ++ kept ++ queued.flatten) :
      Taken server ls
        ⟨.filling kept.flatten, queued.map List.flatten, server.opening ++ sent.flatten⟩
  | writing {sent kept : List (List UInt8)} {queued : List (List (List UInt8))}
      (hls : ls = sent ++ kept ++ queued.flatten) :
      Taken server ls
        ⟨.writing kept.flatten, queued.map List.flatten, server.opening ++ sent.flatten⟩
  | gone {rx : List (List UInt8)} {written : List UInt8}
      (h : written <+: server.opening ++ ls.flatten) : Taken server ls ⟨.gone, rx, written⟩

namespace Taken

variable {server : StreamServer} {ls : List (List UInt8)} {c : StreamClient}

/-- A write of what comes next, whether it succeeds or not. -/
theorem writeAll_gone {rx : List (List UInt8)} {stage : ClientStage} {done bytes rest : List UInt8}
    (sent : ℕ) (h : server.opening ++ ls.flatten = done ++ bytes ++ rest) :
    Taken server ls (StreamClient.writeAll ⟨stage, rx, done⟩ bytes (some sent)) := by
  apply gone
  rw [h, List.append_assoc]
  exact (List.prefix_append_right_inj done).mpr
    ((List.take_prefix sent bytes).trans (List.prefix_append bytes rest))

theorem step (h : Taken server ls c) (failure : Option ℕ) :
    Taken server ls (c.step server failure) := by
  cases h with
  | @greeting queued hls =>
      rw [StreamClient.step]
      cases hheader : server.header with
      | none =>
          have hopening : server.hello = server.opening ++ ([] : List (List UInt8)).flatten := by
            simp [StreamServer.opening, hheader]
          dsimp only
          rw [hopening]
          exact .waiting (by simpa using hls)
      | some bytes =>
          have hopening : server.hello ++ bytes = server.opening := by
            simp [StreamServer.opening, hheader]
          cases failure with
          | none =>
              dsimp only [StreamClient.writeAll]
              rw [hopening, ← List.append_nil server.opening, ← List.flatten_nil]
              exact .waiting (by simpa using hls)
          | some sent =>
              have hrest : server.opening ++ ls.flatten = server.hello ++ bytes ++ ls.flatten := by
                rw [hopening]
              exact writeAll_gone sent hrest
  | @waiting sent queued hls =>
      cases queued with
      | nil => exact .waiting hls
      | cons chunk queued =>
          refine .filling ?_
          rw [hls, List.flatten_cons, List.append_assoc]
  | @filling sent kept queued hls =>
      cases queued with
      | nil => exact .writing hls
      | cons chunk queued =>
          by_cases hroom : kept.flatten.length < server.maxBatch
          · simp only [List.map_cons, StreamClient.step, if_pos hroom, ← List.flatten_append]
            refine .filling ?_
            rw [hls, List.flatten_cons]
            simp only [List.append_assoc]
          · simp only [List.map_cons, StreamClient.step, if_neg hroom]
            exact .writing hls
  | @writing sent kept queued hls =>
      rw [StreamClient.step]
      cases failure with
      | none =>
          dsimp only [StreamClient.writeAll]
          rw [List.append_assoc, ← List.flatten_append]
          exact .waiting hls
      | some n =>
          have hrest : server.opening ++ ls.flatten =
              server.opening ++ sent.flatten ++ kept.flatten ++ queued.flatten.flatten := by
            rw [hls, List.flatten_append, List.flatten_append]
            simp only [List.append_assoc]
          exact writeAll_gone n hrest
  | gone h => exact .gone h

/-- A chunk of whole lines comes in. -/
theorem receive (h : Taken server ls c) (hl : c.Listens) (chunk : List (List UInt8)) :
    Taken server (ls ++ chunk) (c.receive chunk.flatten) := by
  cases h with
  | @greeting queued hls =>
      have := @greeting server (ls ++ chunk) (queued ++ [chunk]) (by simp [hls])
      simpa [StreamClient.receive] using this
  | @waiting sent queued hls =>
      have := @waiting server (ls ++ chunk) sent (queued ++ [chunk]) (by simp [hls])
      simpa [StreamClient.receive] using this
  | @filling sent kept queued hls =>
      have := @filling server (ls ++ chunk) sent kept (queued ++ [chunk]) (by simp [hls])
      simpa [StreamClient.receive] using this
  | @writing sent kept queued hls =>
      have := @writing server (ls ++ chunk) sent kept (queued ++ [chunk]) (by simp [hls])
      simpa [StreamClient.receive] using this
  | gone h => exact absurd rfl hl

theorem written_begins (h : Taken server ls c) : c.written <+: server.opening ++ ls.flatten := by
  cases h with
  | greeting hls =>
      rw [StreamServer.opening, List.append_assoc]
      exact List.prefix_append _ _
  | waiting hls =>
      rw [hls, List.flatten_append, ← List.append_assoc]
      exact List.prefix_append _ _
  | filling hls =>
      rw [hls, List.append_assoc, List.flatten_append, ← List.append_assoc]
      exact List.prefix_append _ _
  | writing hls =>
      rw [hls, List.append_assoc, List.flatten_append, ← List.append_assoc]
      exact List.prefix_append _ _
  | gone h => exact h

end Taken

/-- Of all the lines since its subscription, a client that listens has been handed the first ones.
The next are in the batch, and the last one may be in the pipeline's hands. -/
inductive Served (server : StreamServer) (heard : List (List UInt8)) (s : Serving)
    (c : StreamClient) : Prop
  | listening {ls pending : List (List UInt8)} (taken : Taken server ls c) (hl : c.Listens)
      (hheard : heard = ls ++ pending ++ s.offered.toList)
      (hpending : s.batcher.pending = pending.flatten)
  | gone (hgone : ¬ c.Listens) (h : c.written <+: server.opening ++ heard.flatten)

namespace Served

variable {server : StreamServer} {heard : List (List UInt8)} {s s' : Serving} {c : StreamClient}
  {id : ℕ}

theorem of_same (h : Served server heard s c) (hpending : s'.batcher.pending = s.batcher.pending)
    (hoffered : s'.offered = s.offered) : Served server heard s' c := by
  cases h with
  | listening taken hl hheard hp =>
      exact .listening taken hl (by rw [hheard, hoffered]) (hpending.trans hp)
  | gone hgone h => exact .gone hgone h

theorem written_begins (h : Served server heard s c) :
    c.written <+: server.opening ++ heard.flatten := by
  cases h with
  | listening taken hl hheard hp =>
      refine taken.written_begins.trans ?_
      rw [hheard, List.append_assoc, List.flatten_append, ← List.append_assoc]
      exact List.prefix_append _ _
  | gone hgone h => exact h

/-- A line more. A client that is gone has nothing of it. -/
theorem later (h : Served server heard s c) (hgone : ¬ c.Listens) (more : List (List UInt8)) :
    Served server (heard ++ more) s' c := by
  refine .gone hgone (h.written_begins.trans ?_)
  rw [List.flatten_append, ← List.append_assoc]
  exact List.prefix_append _ _

/-- A new client has a claim to what is in the batch. -/
theorem subscribed (hstep : s.step server .connect = some s') :
    s'.clients[s.clients.length]? = some (StreamClient.new server) ∧
      Served server (s.batcher.pending :: s.offered.toList) s' (StreamClient.new server) := by
  cases hstep
  have htaken : Taken server [] (StreamClient.new server) := @Taken.greeting _ _ [] rfl
  have hpending : s.batcher.pending = [s.batcher.pending].flatten := by simp
  exact ⟨by simp, .listening htaken nofun rfl hpending⟩

theorem client (h : Served server heard s c) (failure : Option ℕ) :
    Served server heard s (c.step server failure) := by
  cases h with
  | listening taken hl hheard hp =>
      by_cases hl' : (c.step server failure).Listens
      · exact .listening (taken.step failure) hl' hheard hp
      · refine .gone hl' ((taken.step failure).written_begins.trans ?_)
        rw [hheard, List.append_assoc, List.flatten_append, ← List.append_assoc]
        exact List.prefix_append _ _
  | gone hgone h =>
      rcases c with ⟨stage, rx, written⟩
      obtain rfl : stage = .gone := not_not.mp hgone
      exact .gone hgone h

theorem flush (h : Served server heard s c) (hs : s.Sound) (hc : s.clients[id]? = some c) :
    ∃ c', s.flush.clients[id]? = some c' ∧ Served server heard s.flush c' := by
  refine ⟨_, hs.client_broadcast hc, ?_⟩
  cases h with
  | @listening ls pending taken hl hheard hp =>
      rw [if_pos hl, hp]
      have hall : heard = ls ++ pending ++ [] ++ s.offered.toList := by
        rw [List.append_nil]
        exact hheard
      exact .listening (taken.receive hl pending) hl hall rfl
  | gone hgone h =>
      rw [if_neg hgone]
      exact .gone hgone h

theorem push (h : Served server heard s c) (hs : s.Sound) (hc : s.clients[id]? = some c)
    {line : List UInt8} (hline : s.offered = some line) (now : ℕ) :
    ∃ c', ({ s with offered := none }.push line now).clients[id]? = some c' ∧
      Served server heard ({ s with offered := none }.push line now) c' := by
  unfold Serving.push
  dsimp only
  have hmid : ∀ s' : Serving, s'.batcher.pending = s.batcher.pending ++ line → s'.offered = none →
      Served server heard s' c := by
    intro s' hpending hoffered
    cases h with
    | @listening ls pending taken hl hheard hp =>
        have hall : heard = ls ++ (pending ++ [line]) ++ s'.offered.toList := by
          rw [hheard, hline, hoffered]
          simp
        refine .listening taken hl hall ?_
        rw [hpending, hp]
        simp
    | gone hgone h => exact .gone hgone h
  split
  · exact (hmid _ rfl rfl).flush (hs.congr rfl rfl) hc
  · exact ⟨c, hc, hmid _ rfl rfl⟩

/-- Each event leaves the client with what it should have. -/
theorem step (h : Served server heard s c) (hs : s.Sound) (hc : s.clients[id]? = some c)
    {e : ServingEvent} (hstep : s.step server e = some s') :
    ∃ c', s'.clients[id]? = some c' ∧ Served server (heard ++ Serving.lines [e]) s' c' := by
  cases e with
  | connect =>
      cases hstep
      refine ⟨c, ?_, ?_⟩
      · rw [List.getElem?_append_left (List.getElem?_eq_some_iff.mp hc).1]
        exact hc
      · rw [show Serving.lines [.connect] = [] from rfl, List.append_nil]
        exact h.of_same rfl rfl
  | client id' failure =>
      cases hstep
      rw [show Serving.lines [.client id' failure] = [] from rfl, List.append_nil]
      dsimp only
      rw [List.getElem?_modify, hc]
      by_cases hid : id' = id
      · refine ⟨c.step server failure, ?_, (h.client failure).of_same rfl rfl⟩
        simp [hid]
      · refine ⟨c, ?_, h.of_same rfl rfl⟩
        simp [hid]
  | gate line =>
      rw [Serving.step] at hstep
      split at hstep
      · next hoffered =>
        cases hstep
        rw [show Serving.lines [.gate line] = [line] from rfl]
        by_cases hl : c.Listens
        · rw [if_pos (hs.hasSubscribers hc hl)]
          refine ⟨c, hc, ?_⟩
          cases h with
          | listening taken hl hheard hp =>
              refine .listening taken hl ?_ hp
              rw [hheard, hoffered]
              simp
          | gone hgone h => exact absurd hl hgone
        · refine ⟨c, ?_, h.later hl [line]⟩
          split
          · exact hc
          · exact hc
      · cases hstep
  | gateAgain =>
      cases hstep
      rw [show Serving.lines [.gateAgain] = [] from rfl, List.append_nil]
      by_cases hl : c.Listens
      · rw [if_pos (hs.hasSubscribers hc hl)]
        exact ⟨c, hc, h⟩
      · refine ⟨c, ?_, ?_⟩
        · split
          · exact hc
          · exact hc
        · exact .gone hl h.written_begins
  | push now =>
      rw [show Serving.lines [.push now] = [] from rfl, List.append_nil]
      rw [Serving.step] at hstep
      split at hstep
      · cases hstep
      · next line hline =>
        cases hstep
        exact h.push hs hc hline now
  | flushDue now =>
      rw [show Serving.lines [.flushDue now] = [] from rfl, List.append_nil]
      rw [Serving.step] at hstep
      split at hstep
      · cases hstep
        unfold Serving.flushDue
        split
        · exact h.flush hs hc
        · exact ⟨c, hc, h⟩
      · cases hstep
  | flush =>
      rw [show Serving.lines [.flush] = [] from rfl, List.append_nil]
      rw [Serving.step] at hstep
      split at hstep
      · cases hstep
        exact h.flush hs hc
      · cases hstep

theorem run (h : Served server heard s c) (hs : s.Sound) (hc : s.clients[id]? = some c)
    {es : List ServingEvent} (hrun : s.run server es = some s') :
    ∃ c', s'.clients[id]? = some c' ∧ Served server (heard ++ Serving.lines es) s' c' := by
  induction es generalizing s c heard with
  | nil =>
      cases hrun
      exact ⟨c, hc, by simpa [Serving.lines] using h⟩
  | cons e es ih =>
      obtain ⟨mid, hstep, hrest⟩ := Serving.run_cons_eq_some.mp hrun
      obtain ⟨c₁, hc₁, h₁⟩ := h.step hs hc hstep
      obtain ⟨c', hc', h'⟩ := ih h₁ (hs.step hstep) hc₁ hrest
      refine ⟨c', hc', ?_⟩
      rwa [List.append_assoc, ← Serving.lines_append] at h'

/-- A client from its subscription on. -/
theorem of_connect {start : ℕ} {before es : List ServingEvent}
    (hbefore : (Serving.new start).run server before = some s)
    (hrun : s.run server (.connect :: es) = some s') :
    ∃ c, s'.clients[s.clients.length]? = some c ∧
      Served server (s.batcher.pending :: s.offered.toList ++ Serving.lines es) s' c := by
  have hs := (Serving.sound_new start).run hbefore
  obtain ⟨mid, hstep, hrest⟩ := Serving.run_cons_eq_some.mp hrun
  obtain ⟨hc, hserved⟩ := Served.subscribed hstep
  exact hserved.run (hs.step hstep) hc hrest

end Served

/-- What the thread is about to write before it looks into its channel again. -/
def StreamClient.held (server : StreamServer) (c : StreamClient) : List UInt8 :=
  match c.stage with
  | .greeting => server.header.getD []
  | .filling batch => batch
  | .writing batch => batch
  | _ => []

namespace Taken

variable {server : StreamServer} {ls : List (List UInt8)} {c : StreamClient}

/-- Nothing is lost on the way. -/
theorem text (h : Taken server ls c) (hl : c.Listens) :
    c.written ++ c.held server ++ c.rx.flatten = server.opening ++ ls.flatten := by
  cases h with
  | greeting hls =>
      simp [StreamClient.held, StreamServer.opening, hls, List.flatten_flatten]
  | waiting hls => simp [StreamClient.held, hls, List.flatten_flatten]
  | filling hls => simp [StreamClient.held, hls, List.flatten_flatten]
  | writing hls => simp [StreamClient.held, hls, List.flatten_flatten]
  | gone h => exact absurd rfl hl

/-- Each write ends with a line. -/
theorem written_eq (h : Taken server ls c) (hl : c.Listens) (hgreeted : c.stage ≠ .greeting) :
    ∃ sent rest, ls = sent ++ rest ∧ c.written = server.opening ++ sent.flatten := by
  cases h with
  | greeting hls => exact absurd rfl hgreeted
  | waiting hls => exact ⟨_, _, hls, rfl⟩
  | filling hls => exact ⟨_, _, hls.trans (List.append_assoc ..), rfl⟩
  | writing hls => exact ⟨_, _, hls.trans (List.append_assoc ..), rfl⟩
  | gone h => exact absurd rfl hl

end Taken

/-- All of a listening client's lines, wherever they are. -/
theorem Served.text {server : StreamServer} {heard : List (List UInt8)} {s : Serving}
    {c : StreamClient} (h : Served server heard s c) (hl : c.Listens) :
    c.written ++ c.held server ++ c.rx.flatten ++ s.batcher.pending ++ s.offered.getD [] =
      server.opening ++ heard.flatten := by
  cases h with
  | listening taken _ hheard hp =>
      rw [hheard, taken.text hl, hp]
      cases s.offered with
      | none => simp
      | some line => simp
  | gone hgone h => exact absurd hl hgone

/-- Nothing is on its way to the client. -/
structure Serving.Settled (s : Serving) (c : StreamClient) : Prop where
  waiting : c.stage = .waiting
  channel : c.rx = []
  batch : s.batcher.pending = []
  pipeline : s.offered = none

theorem Served.written_of_settled {server : StreamServer} {heard : List (List UInt8)} {s : Serving}
    {c : StreamClient} (h : Served server heard s c) (hs : s.Settled c) :
    c.written = server.opening ++ heard.flatten := by
  have hl : c.Listens := by
    intro hgone
    rw [hs.waiting] at hgone
    cases hgone
  rw [← h.text hl, hs.channel, hs.batch, hs.pipeline, StreamClient.held, hs.waiting]
  simp

variable {server : StreamServer}

/-- A client's stream, from its subscription on: the opening, what was in the batch already, and
every line from then on for as long as the client listens, in their order. What is sent is always a
beginning of that, which ends with a line unless a write fails. The rest is on its way. -/
theorem stream_delivered {start : ℕ} {before es : List ServingEvent} {s s' : Serving}
    (hbefore : (Serving.new start).run server before = some s)
    (hrun : s.run server (.connect :: es) = some s') :
    ∃ c, s'.clients[s.clients.length]? = some c ∧
      c.written <+: server.opening ++
        (s.batcher.pending :: s.offered.toList ++ Serving.lines es).flatten ∧
      (c.Listens → c.stage ≠ .greeting → ∃ n, c.written = server.opening ++
        ((s.batcher.pending :: s.offered.toList ++ Serving.lines es).take n).flatten) ∧
      (c.Listens → c.written ++ c.held server ++ c.rx.flatten ++ s'.batcher.pending ++
          s'.offered.getD [] =
        server.opening ++ (s.batcher.pending :: s.offered.toList ++ Serving.lines es).flatten) := by
  obtain ⟨c, hc, h⟩ := Served.of_connect hbefore hrun
  refine ⟨c, hc, h.written_begins, fun hl hgreeted => ?_, fun hl => ?_⟩
  · cases h with
    | listening taken hl hheard hp =>
        obtain ⟨sent, rest, hsplit, hwritten⟩ := taken.written_eq hl hgreeted
        refine ⟨sent.length, ?_⟩
        rw [hheard, hsplit, hwritten]
        simp
    | gone hgone h => exact absurd hl hgone
  · exact h.text hl

/-- A client that comes while a line is in the batch. -/
theorem stream_delivered_backlog :
    ∃ s' c, (Serving.new 0).run (streamServer (some [35, 10]))
        [.connect, .gate [97, 10], .push 1, .connect, .flush, .client 1 none, .client 1 none] =
          some s' ∧
      s'.clients[1]? = some c ∧ c.written <+: [35, 10, 97, 10] := by
  obtain ⟨c, hc, h, -⟩ := @stream_delivered (streamServer (some [35, 10])) 0
    [.connect, .gate [97, 10], .push 1] [.flush, .client 1 none, .client 1 none] _ _ rfl rfl
  exact ⟨_, c, rfl, hc, h⟩

/-! ## Catching up -/

namespace StreamClient

/-- How many turns a client needs for what is in its channel. -/
def work (c : StreamClient) : ℕ :=
  match c.stage with
  | .greeting => 3 * c.rx.length + 1
  | .waiting => 3 * c.rx.length
  | .filling _ => 3 * c.rx.length + 2
  | .writing _ => 3 * c.rx.length + 1
  | .gone => 0

/-- A turn in which no write fails. -/
theorem step_none {c : StreamClient} (hl : c.Listens) :
    (c.step server none).Listens ∧ (c.step server none).work ≤ c.work - 1 := by
  rcases c with ⟨stage, rx, written⟩
  cases stage with
  | greeting =>
      rw [step]
      dsimp only
      cases server.header with
      | none => exact ⟨nofun, Nat.le_refl _⟩
      | some bytes => exact ⟨nofun, Nat.le_refl _⟩
  | waiting =>
      cases rx with
      | nil => exact ⟨nofun, Nat.le_refl _⟩
      | cons chunk rx =>
          refine ⟨nofun, ?_⟩
          simp only [step, work, List.length_cons]
          omega
  | filling batch =>
      cases rx with
      | nil => exact ⟨nofun, Nat.le_refl _⟩
      | cons chunk rx =>
          by_cases hroom : batch.length < server.maxBatch
          · simp only [step, if_pos hroom, work, List.length_cons]
            exact ⟨nofun, by omega⟩
          · simp only [step, if_neg hroom, work, List.length_cons]
            exact ⟨nofun, by omega⟩
  | writing batch => exact ⟨nofun, Nat.le_refl _⟩
  | gone => exact absurd rfl hl

theorem held_of_idle {c : StreamClient} (hl : c.Listens) (h : c.work = 0) :
    c.held server = [] ∧ c.rx = [] := by
  rcases c with ⟨stage, rx, written⟩
  cases stage with
  | waiting =>
      have hzero : 3 * rx.length = 0 := h
      rcases Nat.mul_eq_zero.mp hzero with hthree | hlength
      · cases hthree
      · exact ⟨rfl, List.length_eq_zero_iff.mp hlength⟩
  | greeting => cases h
  | filling batch => cases h
  | writing batch => cases h
  | gone => exact absurd rfl hl

theorem work_le (c : StreamClient) : c.work ≤ 3 * c.rx.length + 2 := by
  rcases c with ⟨stage, rx, written⟩
  cases stage <;> simp [work]

end StreamClient

namespace Serving

/-- Turns of the clients' threads alone, in which no write of this client fails. -/
def Quiet (id : ℕ) (e : ServingEvent) : Prop :=
  ∃ other failure, e = .client other failure ∧ (other = id → failure = none)

/-- How many turns of a run are the client's. -/
def turns (id : ℕ) : List ServingEvent → ℕ
  | [] => 0
  | .client other _ :: es => if other = id then turns id es + 1 else turns id es
  | _ :: es => turns id es

theorem run_quiet {s s' : Serving} {id : ℕ} {c : StreamClient} {es : List ServingEvent}
    (hquiet : ∀ e ∈ es, Quiet id e) (hc : s.clients[id]? = some c) (hl : c.Listens)
    (hrun : s.run server es = some s') :
    s'.batcher = s.batcher ∧ s'.offered = s.offered ∧ lines es = [] ∧
      ∃ c', s'.clients[id]? = some c' ∧ c'.Listens ∧ c'.work ≤ c.work - turns id es := by
  induction es generalizing s c with
  | nil =>
      cases hrun
      exact ⟨rfl, rfl, rfl, c, hc, hl, Nat.le_refl _⟩
  | cons e es ih =>
      obtain ⟨mid, hstep, hrest⟩ := run_cons_eq_some.mp hrun
      obtain ⟨hhead, htail⟩ := List.forall_mem_cons.mp hquiet
      obtain ⟨other, failure, rfl, hok⟩ := hhead
      cases hstep
      by_cases hid : other = id
      · obtain rfl := hok hid
        have hc' : (s.clients.modify other (·.step server none))[id]? =
            some (c.step server none) := by
          rw [List.getElem?_modify, hc]
          simp [hid]
        obtain ⟨hl', hwork⟩ := @StreamClient.step_none server _ hl
        obtain ⟨hb, ho, hlines, c', hc'', hl'', hle⟩ := ih htail hc' hl' hrest
        refine ⟨hb, ho, hlines, c', hc'', hl'', hle.trans ?_⟩
        rw [turns, if_pos hid]
        omega
      · have hc' : (s.clients.modify other (·.step server failure))[id]? = some c := by
          rw [List.getElem?_modify, hc]
          simp [hid]
        obtain ⟨hb, ho, hlines, c', hc'', hl'', hle⟩ := ih htail hc' hl hrest
        refine ⟨hb, ho, hlines, c', hc'', hl'', ?_⟩
        rw [turns, if_neg hid]
        exact hle

theorem run_append {s : Serving} {es later : List ServingEvent} :
    s.run server (es ++ later) = (s.run server es).bind (·.run server later) := by
  induction es generalizing s with
  | nil => rfl
  | cons e es ih =>
      rw [List.cons_append, run, run, Option.bind_assoc]
      simp only [ih]

end Serving

end Canboat
