import Canboat.Decode.Fields
import Canboat.Format.ParseLine
import Canboat.Reassembly.Model

/-!
# The analyzer's and the server's loops

`decode_stream` and `pipeline::run` over the frames of a reader: reassembly, the lock-in to
coalesced input, and decoding. They make the same records of the same frames unless an ISO TP
frame comes after the lock-in: the analyzer passes every frame through the reassembler, the
server none.

Warnings are left out, and so are the server's outputs behind the decoded record and its
quirks.
-/

namespace Canboat

structure Config where
  pgnFilter : Option UInt32
  srcFilter : Option UInt8
  dstFilter : Option UInt8
  suppressStartupRecord : Bool
deriving DecidableEq, Repr

def CANBOAT_BEM : UInt32 := 0x40010

/-- The frame to decode, where a push brings one. -/
def Reassembled.message : Reassembled → Option RawFrame
  | .PassThrough f => some f
  | .Complete f => some f
  | .Partial => none
  | .Error _ => none

variable {F : Type} [Float64 F]

namespace PgnDatabase

variable (db : PgnDatabase F)

/-- How the reassembler is to take frames of the PGN. -/
def framePacketType (pgn : UInt32) : FramePacketType :=
  match ((db.firstPgn pgn).or (db.fallbackPgn pgn)).map PgnInfo.packetType with
  | some .fast => .Fast
  | some .single => .Single
  | _ => .Other

/-- A frame that does not decode brings no record. -/
def decode? (frame : RawFrame) : Option (DecodedPgn F) := (db.decode frame).toOption

end PgnDatabase

/-- What either loop keeps from frame to frame. -/
structure Driver where
  coalesced : Bool
  reasm : Reassembler
deriving DecidableEq, Repr

def Driver.start (coalesced : Bool) : Driver := ⟨coalesced, .new⟩

/-- Each record in order, through the state. -/
def records {S I O : Type} (step : S → I → S × Option O) : S → List I → List O
  | _, [] => []
  | s, i :: input => (step s i).2.toList ++ records step (step s i).1 input

/-! ## The analyzer -/

def Config.admits (cfg : Config) (frame : RawFrame) : Bool :=
  !(cfg.suppressStartupRecord && frame.pgn == CANBOAT_BEM) &&
    cfg.pgnFilter.all (frame.pgn == ·) && cfg.srcFilter.all (frame.src == ·) &&
    cfg.dstFilter.all (frame.dst == ·)

/-- The reassembler is asked for every frame, also for those already coalesced. -/
def decodeStreamStep (db : PgnDatabase F) (cfg : Config) (d : Driver) (r : ReadFrame) :
    Driver × Option (DecodedPgn F) :=
  let headed := d.coalesced || r.headerCoalesced
  if cfg.admits r.frame then
    let coalesced := headed ||
      (decide (8 < r.frame.data.length) && r.activeFormat != some .plainMixFast)
    let packetType := if coalesced then .Other else db.framePacketType r.frame.pgn
    let (reasm, out) := d.reasm.push r.frame packetType
    ({ coalesced, reasm }, out.message.bind db.decode?)
  else ({ d with coalesced := headed }, none)

def decodeStream (db : PgnDatabase F) (cfg : Config) (input : List ReadFrame) :
    List (DecodedPgn F) :=
  records (decodeStreamStep db cfg) (.start false) input

/-! ## The server -/

/-- The reassembler is asked for no frame once the input is known to be coalesced. -/
def pipelineStep (db : PgnDatabase F) (d : Driver) (frame : RawFrame) :
    Driver × Option (DecodedPgn F) :=
  let coalesced := d.coalesced || decide (8 < frame.data.length)
  if coalesced then ({ d with coalesced }, db.decode? frame)
  else
    let (reasm, out) := d.reasm.push frame (db.framePacketType frame.pgn)
    ({ coalesced, reasm }, out.message.bind db.decode?)

def pipelineRun (db : PgnDatabase F) (preCoalesced : Bool) (frames : List RawFrame) :
    List (DecodedPgn F) :=
  records (pipelineStep db) (.start preCoalesced) frames

/-! ## The same input -/

/-- An ISO TP frame. -/
def RawFrame.IsTp (f : RawFrame) : Prop := f.pgn = PGN_ISO_TP_CM ∨ f.pgn = PGN_ISO_TP_DT

instance : DecidablePred RawFrame.IsTp := fun f =>
  inferInstanceAs (Decidable (f.pgn = PGN_ISO_TP_CM ∨ f.pgn = PGN_ISO_TP_DT))

/-- Frames of the PLAIN reader under a header that is coalesced or not. -/
def plainInput (header : Bool) (frames : List RawFrame) : List ReadFrame :=
  frames.map fun f => ⟨f, header, some .plain⟩

def Config.all : Config := ⟨none, none, none, false⟩

theorem records_map {S I I' O : Type} (step : S → I → S × Option O) (g : I' → I) (s : S)
    (input : List I') :
    records step s (input.map g) = records (fun s i => step s (g i)) s input := by
  induction input generalizing s with
  | nil => rfl
  | cons i input ih => rw [List.map_cons, records, records, ih]

theorem push_of_not_tp {f : RawFrame} (hf : ¬f.IsTp) (r : Reassembler) :
    r.push f .Other = (r, .PassThrough f) := by
  rw [Reassembler.push, if_neg fun h => hf (Or.inl h), if_neg fun h => hf (Or.inr h),
    if_pos (Or.inr (by decide))]

/-- A decoded record holds the frame it comes from. -/
theorem frame_of_decode {db : PgnDatabase F} {f g : RawFrame} {pgn : DecodedPgn F}
    (hf : db.decode? f = some pgn) (hg : db.decode? g = some pgn) : f = g := by
  have hframe : ∀ {f : RawFrame}, db.decode? f = some pgn →
      f = ⟨pgn.timestamp, pgn.prio, pgn.pgn, pgn.src, pgn.dst, pgn.data⟩ := by
    intro f hf
    unfold PgnDatabase.decode? PgnDatabase.decode at hf
    split at hf
    · cases hf
    · cases hf
      rfl
  rw [hframe hf, hframe hg]

/-- The analyzer's step on a frame of the PLAIN reader. -/
def analyzerStep (db : PgnDatabase F) (header : Bool) (d : Driver) (f : RawFrame) :
    Driver × Option (DecodedPgn F) :=
  decodeStreamStep db .all d ⟨f, header, some .plain⟩

/-- The analyzer's state after the frames. -/
def analyzerAfter (db : PgnDatabase F) (header : Bool) (d : Driver) (frames : List RawFrame) :
    Driver :=
  frames.foldl (fun d f => (analyzerStep db header d f).1) d

section Same

variable (db : PgnDatabase F)

theorem analyzerStep_eq (header : Bool) (d : Driver) (f : RawFrame) :
    analyzerStep db header d f =
      let coalesced := d.coalesced || header || decide (8 < f.data.length)
      let pushed := d.reasm.push f (if coalesced then .Other else db.framePacketType f.pgn)
      ({ coalesced, reasm := pushed.1 }, pushed.2.message.bind db.decode?) := by
  have hadmits : Config.all.admits f = true := by simp [Config.admits, Config.all]
  rw [analyzerStep, decodeStreamStep]
  simp only
  have hformat : (some InputFormat.plain != some .plainMixFast) = true := rfl
  rw [if_pos hadmits, hformat, Bool.and_true]

/-- The states at one place of the input; behind the lock-in the server's reassembler is at
rest. -/
structure Sync (header : Bool) (a p : Driver) : Prop where
  coalesced : (a.coalesced || header) = p.coalesced
  reasm : p.coalesced = false → a.reasm = p.reasm

/-- A frame that comes after the lock-in, or brings it. -/
def Late (header : Bool) (a : Driver) (f : RawFrame) : Bool :=
  a.coalesced || header || decide (8 < f.data.length)

theorem Sync.late {header : Bool} {a p : Driver} (h : Sync header a p) (f : RawFrame) :
    (p.coalesced || decide (8 < f.data.length)) = Late header a f := by
  rw [Late, h.coalesced]

theorem Sync.step {header : Bool} {a p : Driver} (h : Sync header a p) (f : RawFrame) :
    Sync header (analyzerStep db header a f).1 (pipelineStep db p f).1 := by
  have hlate := h.late f
  rw [analyzerStep_eq, pipelineStep]
  simp only
  rw [hlate, ← Late]
  cases hf : Late header a f with
  | true => exact ⟨rfl, fun hfalse => Bool.noConfusion hfalse⟩
  | false =>
      rw [← hlate, Bool.or_eq_false_iff] at hf
      have hheader := h.coalesced.trans hf.1
      rw [Bool.or_eq_false_iff] at hheader
      exact ⟨hheader.2, fun _ => by rw [h.reasm hf.1]; rfl⟩

/-- A frame that is early or no ISO TP frame brings the same record. -/
theorem Sync.same {header : Bool} {a p : Driver} (h : Sync header a p) {f : RawFrame}
    (hf : Late header a f = true → ¬f.IsTp) :
    (analyzerStep db header a f).2 = (pipelineStep db p f).2 := by
  have hlate := h.late f
  rw [analyzerStep_eq, pipelineStep]
  simp only
  rw [hlate, ← Late]
  cases hcase : Late header a f with
  | true =>
      rw [if_pos rfl, if_pos rfl, push_of_not_tp (hf hcase)]
      rfl
  | false =>
      rw [← hlate, Bool.or_eq_false_iff] at hcase
      rw [h.reasm hcase.1]
      rfl

/-- A late ISO TP frame brings what the analyzer's reassembler makes of it, and itself. -/
theorem Sync.late_tp {header : Bool} {a p : Driver} (h : Sync header a p) {f : RawFrame}
    (hf : Late header a f = true) :
    (analyzerStep db header a f).2 = (a.reasm.push f .Other).2.message.bind db.decode? ∧
      (pipelineStep db p f).2 = db.decode? f := by
  have hlate := h.late f
  rw [analyzerStep_eq, pipelineStep]
  simp only
  rw [hlate, ← Late, hf]
  exact ⟨rfl, rfl⟩

/-- The reassembler hands on every late ISO TP frame as it is. -/
def HandsOn (header : Bool) : Driver → List RawFrame → Prop
  | _, [] => True
  | a, f :: frames =>
      (f.IsTp → Late header a f = true → (a.reasm.push f .Other).2.message = some f) ∧
        HandsOn header (analyzerStep db header a f).1 frames

theorem records_eq_of_handsOn {header : Bool} {a p : Driver} (h : Sync header a p)
    {frames : List RawFrame} (hframes : HandsOn db header a frames) :
    records (analyzerStep db header) a frames = records (pipelineStep db) p frames := by
  induction frames generalizing a p with
  | nil => rfl
  | cons f frames ih =>
      obtain ⟨hf, hrest⟩ := hframes
      have hout : (analyzerStep db header a f).2 = (pipelineStep db p f).2 := by
        by_cases htp : f.IsTp ∧ Late header a f = true
        · obtain ⟨ha, hp⟩ := h.late_tp db htp.2
          rw [ha, hp, hf htp.1 htp.2]
          rfl
        · exact h.same db fun hlate htp' => htp ⟨htp', hlate⟩
      rw [records, records, hout, ih (h.step db f) hrest]

/-- The server makes no fewer records, where every ISO TP frame decodes. -/
theorem length_records_le (hdb : ∀ f : RawFrame, f.IsTp → (db.decode? f).isSome) {header : Bool}
    {a p : Driver} (h : Sync header a p) (frames : List RawFrame) :
    (records (analyzerStep db header) a frames).length ≤
      (records (pipelineStep db) p frames).length := by
  induction frames generalizing a p with
  | nil => exact Nat.le_refl _
  | cons f frames ih =>
      have hout : (analyzerStep db header a f).2.toList.length ≤
          (pipelineStep db p f).2.toList.length := by
        by_cases htp : f.IsTp ∧ Late header a f = true
        · obtain ⟨-, hp⟩ := h.late_tp db htp.2
          obtain ⟨d, hd⟩ := Option.isSome_iff_exists.mp (hdb f htp.1)
          rw [hp, hd]
          exact Option.length_toList_le
        · rw [h.same db fun hlate htp' => htp ⟨htp', hlate⟩]
      rw [records, records, List.length_append, List.length_append]
      exact Nat.add_le_add hout (ih (h.step db f))

theorem handsOn_of_records_eq (hdb : ∀ f : RawFrame, f.IsTp → (db.decode? f).isSome)
    {header : Bool} {a p : Driver} (h : Sync header a p) {frames : List RawFrame}
    (heq : records (analyzerStep db header) a frames = records (pipelineStep db) p frames) :
    HandsOn db header a frames := by
  induction frames generalizing a p with
  | nil => trivial
  | cons f frames ih =>
      rw [records, records] at heq
      by_cases htp : f.IsTp ∧ Late header a f = true
      · obtain ⟨ha, hp⟩ := h.late_tp db htp.2
        obtain ⟨d, hd⟩ := Option.isSome_iff_exists.mp (hdb f htp.1)
        have hle := length_records_le db hdb (h.step db f) frames
        rw [hp, hd] at heq
        cases hmessage : (a.reasm.push f .Other).2.message.bind db.decode? with
        | none =>
            -- one record less from here on
            rw [ha, hmessage] at heq
            have hlen := congrArg List.length heq
            simp only [Option.toList, List.nil_append, List.length_append, List.length_cons,
              List.length_nil] at hlen
            omega
        | some d' =>
            rw [ha, hmessage] at heq
            obtain ⟨hd', hrest⟩ := List.cons.inj heq
            refine ⟨fun _ _ => ?_, ih (h.step db f) hrest⟩
            obtain ⟨g, hg, hdecode⟩ := Option.bind_eq_some_iff.mp hmessage
            rw [hd'] at hdecode
            rw [hg, frame_of_decode hdecode hd]
      · have hout := h.same db fun hlate htp' => htp ⟨htp', hlate⟩
        rw [hout] at heq
        exact ⟨fun htp' hlate => absurd ⟨htp', hlate⟩ htp,
          ih (h.step db f) (List.append_cancel_left heq)⟩

theorem handsOn_iff (header : Bool) (a : Driver) (frames : List RawFrame) :
    HandsOn db header a frames ↔ ∀ pre f post, frames = pre ++ f :: post → f.IsTp →
      Late header (analyzerAfter db header a pre) f = true →
      ((analyzerAfter db header a pre).reasm.push f .Other).2.message = some f := by
  induction frames generalizing a with
  | nil => simp [HandsOn]
  | cons g frames ih =>
      rw [HandsOn, ih]
      constructor
      · rintro ⟨hg, hrest⟩ pre f post hframes
        cases pre with
        | nil =>
            obtain ⟨rfl, -⟩ := List.cons.inj hframes
            exact hg
        | cons _ pre =>
            obtain ⟨rfl, htail⟩ := List.cons.inj hframes
            exact hrest pre f post htail
      · intro h
        exact ⟨h [] g frames rfl, fun pre f post hframes => h (g :: pre) f post (by rw [hframes]; rfl)⟩

/-- The lock-in is the header's, or the first wide frame's. -/
theorem late_analyzerAfter (header : Bool) (a : Driver) (pre : List RawFrame) (f : RawFrame) :
    Late header (analyzerAfter db header a pre) f =
      (a.coalesced || header || (pre ++ [f]).any fun g => decide (8 < g.data.length)) := by
  induction pre generalizing a with
  | nil => simp [Late, analyzerAfter]
  | cons g pre ih =>
      have hstep : analyzerAfter db header a (g :: pre) =
          analyzerAfter db header (analyzerStep db header a g).1 pre := rfl
      rw [hstep, ih, analyzerStep_eq, List.cons_append, List.any_cons]
      cases header <;> cases a.coalesced <;> simp

/-- Every ISO TP frame under a coalesced header, or not before the first frame of more than
eight bytes, completes a session whose message is the frame itself. -/
def TpHandedOn (header : Bool) (frames : List RawFrame) : Prop :=
  ∀ pre f post, frames = pre ++ f :: post → f.IsTp →
    header = true ∨ (∃ g ∈ pre ++ [f], 8 < g.data.length) →
    ((analyzerAfter db header (.start false) pre).reasm.push f .Other).2.message = some f

theorem handsOn_start_iff (header : Bool) (frames : List RawFrame) :
    HandsOn db header (.start false) frames ↔ TpHandedOn db header frames := by
  rw [handsOn_iff]
  simp only [late_analyzerAfter, Driver.start, Bool.false_or, Bool.or_eq_true, List.any_eq_true,
    decide_eq_true_eq]
  rfl

theorem decodeStream_plain (header : Bool) (frames : List RawFrame) :
    decodeStream db .all (plainInput header frames) =
      records (analyzerStep db header) (.start false) frames := by
  rw [decodeStream, plainInput, records_map]
  rfl

theorem Sync.start (header : Bool) : Sync header (.start false) (.start header) :=
  ⟨Bool.false_or header, fun _ => rfl⟩

/-- The analyzer and the server make the same records where every such ISO TP frame is handed on,
and, with a database that decodes ISO TP frames, nowhere else. -/
theorem decodeStream_eq_pipelineRun_iff (header : Bool) (frames : List RawFrame) :
    (TpHandedOn db header frames →
      decodeStream db .all (plainInput header frames) = pipelineRun db header frames) ∧
    ((∀ f : RawFrame, f.IsTp → (db.decode? f).isSome) →
      decodeStream db .all (plainInput header frames) = pipelineRun db header frames →
      TpHandedOn db header frames) := by
  rw [decodeStream_plain, ← handsOn_start_iff]
  exact ⟨records_eq_of_handsOn db (.start header),
    fun hdb => handsOn_of_records_eq db hdb (.start header)⟩

end Same

/-! ## A database with the connection management -/

def connectionManagement : PgnInfo Binary64 where
  pgn := 60416
  id := ⟨"isoTransportProtocolConnectionManagement", by decide⟩
  description := "ISO Transport Protocol, Connection Management"
  packetType := .single
  fallback := none
  priority := none
  length := none
  fields := [.number (Float64.ofInt 0) 1 ⟨"groupFunctionCode", by decide⟩ 8]
  repeatingFieldSet1 := .none
  repeatingFieldSet2 := .none
  idIsPinned := false

def dataTransfer : PgnInfo Binary64 where
  pgn := 60160
  id := ⟨"isoTransportProtocolDataTransfer", by decide⟩
  description := "ISO Transport Protocol, Data Transfer"
  packetType := .single
  fallback := none
  priority := none
  length := none
  fields := [.number (Float64.ofInt 0) 1 ⟨"sid", by decide⟩ 8]
  repeatingFieldSet1 := .none
  repeatingFieldSet2 := .none
  idIsPinned := false

def transportDatabase : PgnDatabase Binary64 where
  units := .si
  pgns := [connectionManagement, dataTransfer]
  lookups := []
  bitLookups := []
  indirectLookups := []
  fieldTypeLookups := []
  claimFlat := by simp [connectionManagement, dataTransfer]

/-- A clear-to-send in a stream of wide frames. -/
def clearToSend : RawFrame := ⟨none, 7, 60416, 1, 2, [17, 1, 1, 0xff, 0xff, 0, 0xee, 0]⟩

theorem transportDatabase_decodes (f : RawFrame) (hf : f.IsTp) :
    (transportDatabase.decode? f).isSome := by
  have hpick : (transportDatabase.pickVariant f).isSome := by
    obtain ⟨ts, prio, pgn, src, dst, data⟩ := f
    rcases hf with rfl | rfl
    · rfl
    · rfl
  unfold PgnDatabase.decode? PgnDatabase.decode
  cases hvariant : transportDatabase.pickVariant f with
  | none => rw [hvariant] at hpick; cases hpick
  | some info => rfl

/-- A session before the lock-in is no difference. -/
theorem decodeStream_eq_pipelineRun_early :
    decodeStream transportDatabase .all (plainInput false [clearToSend]) =
        pipelineRun transportDatabase false [clearToSend] ∧
      TpHandedOn transportDatabase false [clearToSend] := by
  have hearly : TpHandedOn transportDatabase false [clearToSend] := by
    rintro pre f post hframes - (hheader | ⟨g, hg, hwide⟩)
    · cases hheader
    · have hmem : g ∈ [clearToSend] := by
        rw [hframes]
        rcases List.mem_append.mp hg with hg | hg
        · exact List.mem_append_left _ hg
        · rw [List.mem_singleton.mp hg]
          exact List.mem_append_right _ List.mem_cons_self
      rw [List.mem_singleton.mp hmem] at hwide
      exact absurd hwide (by decide)
  have hsame := (decodeStream_eq_pipelineRun_iff transportDatabase false [clearToSend]).1 hearly
  exact ⟨hsame, (decodeStream_eq_pipelineRun_iff transportDatabase false [clearToSend]).2
    transportDatabase_decodes hsame⟩

/-- Under a coalesced header the server makes a record of the frame, the analyzer none. -/
theorem decodeStream_ne_pipelineRun :
    decodeStream transportDatabase .all (plainInput true [clearToSend]) ≠
      pipelineRun transportDatabase true [clearToSend] := by
  intro h
  have hlength := congrArg List.length h
  revert hlength
  decide +kernel

end Canboat
