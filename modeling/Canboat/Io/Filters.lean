import Canboat.Io.AnalyzerLog
import Canboat.Reassembly.Restrict

/-!
# Filters

`decode_stream` drops the frames that do not match its filters before it reassembles them. What
is left is decoded as a stream of its own; the records are those of the whole stream that match
as long as the frames of a message are kept or dropped together, no dropped frame brings the
lock-in, and no table is full when a message begins.
-/

namespace Canboat

open Reassembler

variable {F : Type} [Float64 F]

namespace Config

/-- The filters match. -/
def selects (cfg : Config) (pgn : UInt32) (src dst : UInt8) : Bool :=
  cfg.pgnFilter.all (pgn == ·) && cfg.srcFilter.all (src == ·) && cfg.dstFilter.all (dst == ·)

def selectsFrame (cfg : Config) (f : RawFrame) : Bool := cfg.selects f.pgn f.src f.dst

omit [Float64 F] in
def keeps (cfg : Config) (d : DecodedPgn F) : Bool := cfg.selects d.pgn d.src d.dst

/-- The same run without filters. -/
def unfiltered (cfg : Config) : Config :=
  { cfg with pgnFilter := none, srcFilter := none, dstFilter := none }

theorem admits_eq (cfg : Config) (f : RawFrame) :
    cfg.admits f = (cfg.unfiltered.admits f && cfg.selectsFrame f) := by
  simp only [admits, unfiltered, selectsFrame, selects, Option.all_none, Bool.and_true,
    Bool.and_assoc]

end Config

/-! ## Frames -/

/-- Once a header has said that frames are whole messages, every later frame knows. -/
def HeaderSticks (input : List ReadFrame) : Prop :=
  input.Pairwise fun r s => r.headerCoalesced = true → s.headerCoalesced = true

theorem LineFrameReader.headerCoalesced_readLine {r : LineFrameReader} {l : LineRead}
    {out : LineFrameReader × Option ReadFrame} (h : r.readLine l = .ok out) :
    (r.headerCoalesced = true → out.1.headerCoalesced = true) ∧
      ∀ f ∈ out.2, f.headerCoalesced = out.1.headerCoalesced := by
  rw [readLine] at h
  dsimp only at h
  split_ifs at h
  · cases h
    exact ⟨id, by rintro _ ⟨⟩⟩
  · cases hfmt : parseFormatHeader (trimNewlines l.text) with
    | none =>
        rw [hfmt] at h
        cases h
        exact ⟨id, by rintro _ ⟨⟩⟩
    | some fmt =>
        rw [hfmt] at h
        cases h
        exact ⟨fun hr => by rw [hr, Bool.true_or], by rintro _ ⟨⟩⟩
  · rw [formatFor_eq] at h
    dsimp only [bind, Except.bind] at h
    cases hrun : (parseWith l.clock (formatOf r.active (trimNewlines l.text))
        (trimNewlines l.text)).run with
    | error e =>
        rw [hrun] at h
        cases h
    | ok res =>
        rw [hrun] at h
        cases res with
        | error e =>
            cases h
            exact ⟨id, by rintro _ ⟨⟩⟩
        | ok frame =>
            cases h
            refine ⟨id, fun f hf => ?_⟩
            obtain ⟨g, -, rfl⟩ := Option.map_eq_some_iff.mp hf
            rfl

theorem LineFrameReader.headerSticks_readAll {r : LineFrameReader} {lines : List LineRead}
    {out : LineFrameReader × List ReadFrame} (h : r.readAll lines = .ok out) :
    HeaderSticks out.2 ∧
      ∀ f ∈ out.2, r.headerCoalesced = true → f.headerCoalesced = true := by
  induction lines generalizing r out with
  | nil =>
      cases h
      exact ⟨.nil, nofun⟩
  | cons l lines ih =>
      rw [readAll] at h
      dsimp only [bind, Except.bind] at h
      cases hfirst : r.readLine l with
      | error e =>
          rw [hfirst] at h
          cases h
      | ok first =>
      rw [hfirst] at h
      dsimp only at h
      cases hrest : first.1.readAll lines with
      | error e =>
          rw [hrest] at h
          cases h
      | ok rest =>
      rw [hrest] at h
      cases h
      obtain ⟨hkept, hframe⟩ := headerCoalesced_readLine hfirst
      obtain ⟨hsticks, hall⟩ := ih hrest
      constructor
      · refine List.pairwise_append.mpr ⟨?_, hsticks, ?_⟩
        · cases first.2 with
          | none => exact .nil
          | some f => exact List.pairwise_singleton _ _
        · intro f hf g hg hheader
          rw [hframe f (Option.mem_toList.mp hf)] at hheader
          exact hall g hg hheader
      · intro f hf hheader
        rcases List.mem_append.mp hf with hf | hf
        · rw [hframe f (Option.mem_toList.mp hf)]
          exact hkept hheader
        · exact hall f hf (hkept hheader)

section

variable (db : PgnDatabase F) (cfg : Config)

/-- The frames that the filters leave. -/
def selected (input : List ReadFrame) : List ReadFrame :=
  input.filter fun r => cfg.selectsFrame r.frame

omit [Float64 F] in
/-- A flag that a dropped frame has brought comes with the next frame anyway. -/
theorem pushesOf_header {coalesced coalesced' : Bool} {input : List ReadFrame}
    (h : ∀ r ∈ input,
      (coalesced || r.headerCoalesced) = (coalesced' || r.headerCoalesced)) :
    pushesOf db cfg coalesced input = pushesOf db cfg coalesced' input := by
  cases input with
  | nil => rfl
  | cons r input =>
      rw [pushesOf, pushesOf]
      dsimp only
      rw [h r List.mem_cons_self]

omit [Float64 F] in
/-- What is dropped leaves no trace but the flag of a header. -/
theorem pushesOf_selected {coalesced : Bool} {input : List ReadFrame}
    (hsticks : HeaderSticks input) :
    pushesOf db cfg coalesced input = pushesOf db cfg.unfiltered coalesced (selected cfg input) := by
  induction input generalizing coalesced with
  | nil => rfl
  | cons r input ih =>
      obtain ⟨hr, hrest⟩ := List.pairwise_cons.mp hsticks
      rw [pushesOf, selected, List.filter_cons, Config.admits_eq]
      dsimp only
      by_cases hselects : cfg.selectsFrame r.frame = true
      · rw [hselects, Bool.and_true, if_pos rfl, pushesOf]
        dsimp only
        by_cases hadmits : cfg.unfiltered.admits r.frame = true
        · rw [if_pos hadmits, if_pos hadmits, ih hrest]
          rfl
        · rw [if_neg hadmits, if_neg hadmits]
          exact ih hrest
      · rw [Bool.not_eq_true] at hselects
        rw [hselects, Bool.and_false, if_neg Bool.false_ne_true, if_neg Bool.false_ne_true,
          ih hrest]
        refine pushesOf_header db cfg.unfiltered fun s hs => ?_
        have hflag := hr s (List.mem_of_mem_filter hs)
        cases hheader : r.headerCoalesced with
        | false => rw [Bool.or_false]
        | true => rw [hflag hheader, Bool.or_true, Bool.or_true]

/-- A run with filters is a run without over the frames they leave. -/
theorem decodeStream_selected {input : List ReadFrame} (hsticks : HeaderSticks input) :
    decodeStream db cfg input = decodeStream db cfg.unfiltered (selected cfg input) := by
  rw [decodeStream_eq_decodeLog, decodeStream_eq_decodeLog, pushesOf_selected db cfg hsticks]

/-! ## Records -/

/-- No frame that the filters drop brings the lock-in. -/
def NoDroppedLock : Bool → List ReadFrame → Prop
  | _, [] => True
  | coalesced, r :: input =>
      let headed := coalesced || r.headerCoalesced
      let locked := headed ||
        (cfg.unfiltered.admits r.frame &&
          (decide (8 < r.frame.data.length) && r.activeFormat != some .plainMixFast))
      (cfg.selectsFrame r.frame = false → locked = headed) ∧ NoDroppedLock locked input

omit [Float64 F] in
theorem pushesOf_filter {coalesced : Bool} {input : List ReadFrame}
    (h : NoDroppedLock cfg coalesced input) :
    pushesOf db cfg coalesced input =
      (pushesOf db cfg.unfiltered coalesced input).filter fun e => cfg.selectsFrame e.1 := by
  induction input generalizing coalesced with
  | nil => rfl
  | cons r input ih =>
      obtain ⟨hlock, hrest⟩ := h
      rw [pushesOf, pushesOf, Config.admits_eq]
      dsimp only at hlock hrest ⊢
      cases hadmits : cfg.unfiltered.admits r.frame with
      | false =>
          rw [hadmits, Bool.false_and, Bool.or_false] at hrest
          rw [Bool.false_and, if_neg Bool.false_ne_true, if_neg Bool.false_ne_true]
          exact ih hrest
      | true =>
          rw [hadmits, Bool.true_and] at hrest hlock
          rw [Bool.true_and, if_pos rfl, List.filter_cons]
          cases hselects : cfg.selectsFrame r.frame with
          | false =>
              rw [hlock hselects] at hrest ⊢
              rw [if_neg Bool.false_ne_true, if_neg Bool.false_ne_true]
              exact ih hrest
          | true =>
              rw [if_pos rfl, if_pos rfl, ih hrest]

/-- The frames of a fast-packet message are kept or dropped together; those of an ISO TP source
as well, and a PGN filter is not set where there are any. -/
structure Separate (log : Log) : Prop where
  fast : ∀ e ∈ log, ∀ e' ∈ log, ∀ k, fastKey e.1 e.2 = some k → fastKey e'.1 e'.2 = some k →
    cfg.selectsFrame e.1 = cfg.selectsFrame e'.1
  tp : ∀ e ∈ log, ∀ e' ∈ log, e.1.IsTp → e'.1.IsTp → e.1.src = e'.1.src →
    cfg.selectsFrame e.1 = cfg.selectsFrame e'.1
  pgn : ∀ e ∈ log, e.1.IsTp → cfg.pgnFilter = none

/-- The keys and the sources whose frames are kept. -/
def keptKeys (log : Log) (k : FastId) : Prop :=
  ∃ e ∈ log, fastKey e.1 e.2 = some k ∧ cfg.selectsFrame e.1 = true

def keptSources (log : Log) (src : UInt8) : Prop :=
  ∃ e ∈ log, e.1.IsTp ∧ e.1.src = src ∧ cfg.selectsFrame e.1 = true

/-- Every open session goes to the destination of a transport frame of its source. -/
def SessionsOf (log : Log) (r : Reassembler) : Prop :=
  ∀ src t, r.session src = some t → ∃ e ∈ log, e.1.IsTp ∧ e.1.src = src ∧ e.1.dst = t.dst

omit [Float64 F] in
theorem accept_dst (t : TpSlot) (f : RawFrame) : (t.accept f).1.dst = t.dst := by
  rcases TpSlot.accept_cases t f with ⟨h, -⟩ | ⟨-, ⟨h, -⟩ | ⟨h, -⟩⟩ <;> rw [h] <;> rfl

omit [Float64 F] in
/-- A session keeps its destination, or takes that of the frame that opens it. -/
theorem next_dst {session : Option TpSlot} {f : RawFrame} {age : UInt64} {t : TpSlot}
    (h : (TpSlot.next session f age).1 = some t) :
    t.dst = f.dst ∨ ∃ t', session = some t' ∧ t.dst = t'.dst := by
  unfold TpSlot.next at h
  by_cases hopens : opensSession f
  · rw [if_pos hopens] at h
    cases h
    exact Or.inl rfl
  · rw [if_neg hopens] at h
    by_cases hdata : f.data = []
    · rw [if_pos hdata] at h
      exact Or.inr ⟨t, h, rfl⟩
    · rw [if_neg hdata] at h
      by_cases hcm : f.pgn = PGN_ISO_TP_CM
      · rw [if_pos hcm] at h
        dsimp only at h
        split_ifs at h
        exact Or.inr ⟨t, h, rfl⟩
      · rw [if_neg hcm] at h
        cases session with
        | none => cases h
        | some t' =>
            dsimp only at h
            split_ifs at h
            cases h
            exact Or.inr ⟨t', rfl, accept_dst t' f⟩

omit [Float64 F] in
theorem next_message {session : Option TpSlot} {f g : RawFrame} {age : UInt64}
    (h : (TpSlot.next session f age).2.message = some g) :
    ∃ t, session = some t ∧ g.src = f.src ∧ g.dst = t.dst := by
  unfold TpSlot.next at h
  by_cases hopens : opensSession f
  · rw [if_pos hopens] at h
    cases h
  · rw [if_neg hopens] at h
    by_cases hdata : f.data = []
    · rw [if_pos hdata] at h
      cases h
    · rw [if_neg hdata] at h
      by_cases hcm : f.pgn = PGN_ISO_TP_CM
      · rw [if_pos hcm] at h
        cases h
      · rw [if_neg hcm] at h
        cases session with
        | none => cases h
        | some t =>
            dsimp only at h
            refine ⟨t, rfl, ?_⟩
            rcases TpSlot.accept_cases t f with ⟨hout, -⟩ | ⟨-, ⟨hout, -⟩ | ⟨hout, -⟩⟩
            · rw [hout] at h
              cases h
            · rw [hout] at h
              cases h
            · rw [hout] at h
              cases h
              exact ⟨rfl, rfl⟩

variable {cfg} {log : Log} {r : Reassembler} {e : RawFrame × FramePacketType}

omit [Float64 F] in
theorem SessionsOf.push (h : SessionsOf log r) (hw : r.WF) (hroom : r.RoomFor e) (he : e ∈ log) :
    SessionsOf log (r.push e.1 e.2).1 := by
  intro src t hsession
  by_cases htp : e.1.IsTp
  · by_cases hsrc : src = e.1.src
    · have hself := congrArg Prod.fst (@push_session r e.1 e.2 hw htp)
      dsimp only at hself
      rw [hsrc, hself] at hsession
      rcases next_dst hsession with hdst | ⟨t', hold, hdst⟩
      · exact ⟨e, he, htp, hsrc.symm, hdst.symm⟩
      · rw [hsrc, hdst]
        exact h _ _ hold
    · rw [session_push_of_room hw htp hroom.2 hsrc] at hsession
      exact h src t hsession
  · obtain ⟨hcm, hdt⟩ := not_or.mp htp
    rw [session, (push_tpSlots_of_ordinary hw hcm hdt).1] at hsession
    exact h src t hsession

omit [Float64 F] in
/-- What an ordinary push brings is of the frame's PGN, source and destination. -/
theorem message_ordinary (hw : r.WF) (htp : ¬e.1.IsTp) {g : RawFrame}
    (hg : (r.push e.1 e.2).2.message = some g) :
    g.pgn = e.1.pgn ∧ g.src = e.1.src ∧ g.dst = e.1.dst := by
  by_cases hcollected : Collected e
  · cases hk : fastKey e.1 e.2 with
    | some k =>
        rw [push_out hw hk] at hg
        rcases Slot.accept_cases (r.target k) e.1 with ⟨hout, -⟩ | ⟨hout, -⟩
        · rw [hout] at hg
          cases hg
          exact ⟨rfl, rfl, rfl⟩
        · rw [hout] at hg
          cases hg
    | none =>
        have hdata : e.1.data = [] := by
          by_contra hne
          obtain ⟨header, rest, hdata⟩ := List.exists_cons_of_ne_nil hne
          obtain ⟨hcm, hdt⟩ := not_or.mp htp
          have hsome := fastKey_eq_some.mpr
            ⟨hcm, hdt, hcollected.2.1, hcollected.2.2, header, rest, hdata, rfl⟩
          rw [hk] at hsome
          cases hsome
        obtain ⟨hcm, hdt⟩ := not_or.mp htp
        have hsel : ¬(e.1.data.length > 8 ∨ e.2 ≠ .Fast) := by
          rw [not_or, not_lt, not_not]
          exact hcollected.2
        rw [Reassembler.push, if_neg hcm, if_neg hdt, if_neg hsel, hdata] at hg
        cases hg
  · obtain ⟨f, t⟩ := e
    rw [push_other hcollected, push_of_not_tp htp] at hg
    cases hg
    exact ⟨rfl, rfl, rfl⟩

omit [Float64 F] in
theorem message_tp (hw : r.WF) (htp : e.1.IsTp) {g : RawFrame}
    (hg : (r.push e.1 e.2).2.message = some g) :
    ∃ t, r.session e.1.src = some t ∧ g.src = e.1.src ∧ g.dst = t.dst := by
  have hout := congrArg Prod.snd (@push_session r e.1 e.2 hw htp)
  dsimp only at hout
  rw [hout] at hg
  exact next_message hg

omit [Float64 F] in
/-- The filters match what a push brings where they match the pushed frame. -/
theorem selects_message (hsep : Separate cfg log) (hw : r.WF) (hsessions : SessionsOf log r)
    (he : e ∈ log) {g : RawFrame} (hg : (r.push e.1 e.2).2.message = some g) :
    cfg.selectsFrame g = cfg.selectsFrame e.1 := by
  by_cases htp : e.1.IsTp
  · obtain ⟨t, ht, hsrc, hdst⟩ := message_tp hw htp hg
    obtain ⟨e', he', htp', hsrc', hdst'⟩ := hsessions _ t ht
    have hpgn := hsep.pgn e he htp
    rw [hsep.tp e he e' he' htp htp' hsrc'.symm]
    rw [Config.selectsFrame, Config.selectsFrame, Config.selects, Config.selects, hpgn, hsrc, hdst,
      hsrc', hdst']
    rfl
  · obtain ⟨hpgn, hsrc, hdst⟩ := message_ordinary hw htp hg
    rw [Config.selectsFrame, Config.selectsFrame, hpgn, hsrc, hdst]

theorem header_of_decode {d : DecodedPgn F} {f : RawFrame} (h : db.decode? f = some d) :
    d.pgn = f.pgn ∧ d.src = f.src ∧ d.dst = f.dst := by
  unfold PgnDatabase.decode? PgnDatabase.decode at h
  split at h
  · cases h
  · cases h
    exact ⟨rfl, rfl, rfl⟩

/-- The filters match all the records of a push, or none. -/
theorem filter_push (hsep : Separate cfg log) (hw : r.WF) (hsessions : SessionsOf log r)
    (he : e ∈ log) :
    ((r.push e.1 e.2).2.message.bind db.decode?).toList.filter cfg.keeps =
      if cfg.selectsFrame e.1 then ((r.push e.1 e.2).2.message.bind db.decode?).toList else [] := by
  cases hrecord : (r.push e.1 e.2).2.message.bind db.decode? with
  | none => rw [Option.toList_none, List.filter_nil, ite_self]
  | some d =>
      obtain ⟨g, hg, hdecode⟩ := Option.bind_eq_some_iff.mp hrecord
      obtain ⟨hpgn, hsrc, hdst⟩ := header_of_decode db hdecode
      have hkeeps : cfg.keeps d = cfg.selectsFrame e.1 := by
        rw [← selects_message hsep hw hsessions he hg, Config.keeps, Config.selectsFrame, hpgn,
          hsrc, hdst]
      rw [Option.toList_some, List.filter_singleton, hkeeps, Bool.cond_eq_ite]

/-- The records of the kept frames are the matching records of all. -/
theorem decodeLog_filter (hsep : Separate cfg log) {r' : Reassembler} {rest : Log}
    (hrest : ∀ e ∈ rest, e ∈ log) (hroom : Roomy r rest) (hsessions : SessionsOf log r)
    (h : Restricts (keptKeys cfg log) (keptSources cfg log) r r') :
    decodeLog db r' (rest.filter fun e => cfg.selectsFrame e.1) =
      (decodeLog db r rest).filter cfg.keeps := by
  induction rest generalizing r r' with
  | nil => rfl
  | cons e rest ih =>
      obtain ⟨hfor, hroom⟩ := hroom
      rw [List.forall_mem_cons] at hrest
      obtain ⟨he, hrest⟩ := hrest
      have hnext := hsessions.push h.wf hfor he
      rw [decodeLog_cons, List.filter_append, filter_push db hsep h.wf hsessions he,
        List.filter_cons]
      by_cases hselects : cfg.selectsFrame e.1 = true
      · have hkeys : ∀ k, fastKey e.1 e.2 = some k → keptKeys cfg log k :=
          fun k hk => ⟨e, he, hk, hselects⟩
        have hsources : e.1.pgn = PGN_ISO_TP_CM ∨ e.1.pgn = PGN_ISO_TP_DT →
            keptSources cfg log e.1.src := fun htp => ⟨e, he, htp, rfl, hselects⟩
        obtain ⟨hboth, hout⟩ := h.push_both hfor hkeys hsources
        rw [if_pos hselects, if_pos hselects, decodeLog_cons, ← hout, ih hrest hroom hnext hboth]
      · have hkeys : ∀ k, fastKey e.1 e.2 = some k → ¬keptKeys cfg log k := by
          rintro k hk ⟨e', he', hk', hselects'⟩
          exact hselects (hsep.fast e he e' he' k hk hk' ▸ hselects')
        have hsources : e.1.pgn = PGN_ISO_TP_CM ∨ e.1.pgn = PGN_ISO_TP_DT →
            ¬keptSources cfg log e.1.src := by
          rintro htp ⟨e', he', htp', hsrc, hselects'⟩
          exact hselects (hsep.tp e he e' he' htp htp' hsrc.symm ▸ hselects')
        rw [if_neg hselects, if_neg hselects, List.nil_append]
        exact ih hrest hroom hnext (h.push_left hfor hkeys hsources)

end

/-- Filters select frames: what they leave is decoded as a stream of its own. The records are the
matching ones of the whole stream where no dropped frame brings the lock-in, messages are kept or
dropped as a whole, and no table is full when one begins. -/
theorem decodeStream_filters (db : PgnDatabase F) (cfg : Config) {reader : LineFrameReader}
    {lines : List LineRead} {out : LineFrameReader × List ReadFrame}
    (hread : reader.readAll lines = .ok out) :
    decodeStream db cfg out.2 = decodeStream db cfg.unfiltered (selected cfg out.2) ∧
      (NoDroppedLock cfg false out.2 →
        Separate cfg (pushesOf db cfg.unfiltered false out.2) →
        Roomy .new (pushesOf db cfg.unfiltered false out.2) →
        decodeStream db cfg out.2 = (decodeStream db cfg.unfiltered out.2).filter cfg.keeps) := by
  refine ⟨decodeStream_selected db cfg (LineFrameReader.headerSticks_readAll hread).1,
    fun hlock hsep hroom => ?_⟩
  have hnone : SessionsOf (pushesOf db cfg.unfiltered false out.2) .new := by
    intro src t hsession
    rw [session_new] at hsession
    cases hsession
  rw [decodeStream_eq_decodeLog, decodeStream_eq_decodeLog, pushesOf_filter db cfg hlock]
  exact decodeLog_filter db hsep (fun _ he => he) hroom hnone (.new _ _)

/-- Frames that reach no table find room. -/
theorem roomy_of_passing {r : Reassembler} {log : Log} (hkeys : ∀ e ∈ log, ¬Collected e)
    (htp : ∀ e ∈ log, ¬e.1.IsTp) : Roomy r log := by
  induction log generalizing r with
  | nil => trivial
  | cons e log ih =>
      rw [List.forall_mem_cons] at hkeys htp
      refine ⟨⟨fun k hk => ?_, fun ho => absurd (Or.inl ho.1) htp.1⟩, ih hkeys.2 htp.2⟩
      rw [fastKey_of_not_collected hkeys.1] at hk
      cases hk

/-! ## A filter on a PGN that travels by ISO TP -/

/-- Frames of two sources, none of them longer than eight bytes but the second's. -/
def twoSources : List LineRead :=
  [⟨none, "2024-01-01T00:00:00.000Z,2,127245,1,255,8,01,02,03,04,05,06,07,08".toList⟩,
    ⟨none, "2024-01-01T00:00:00.100Z,7,130824,2,255,9,7d,99,01,02,03,04,05,06,07".toList⟩]

/-- The first source is dropped. -/
theorem decodeStream_filters_source :
    ∃ out, LineFrameReader.readAll ⟨none, false⟩ twoSources = .ok out ∧
      decodeStream keyValueDatabase ⟨none, some 2, none, false⟩ out.2 =
        (decodeStream keyValueDatabase .all out.2).filter
          (Config.keeps ⟨none, some 2, none, false⟩) := by
  have hframes : (LineFrameReader.readAll ⟨none, false⟩ twoSources).map (·.2) = .ok
      [⟨⟨some "2024-01-01T00:00:00.000Z", 2, 127245, 1, 255, [1, 2, 3, 4, 5, 6, 7, 8]⟩, false,
          some .plain⟩,
        ⟨⟨some "2024-01-01T00:00:00.100Z", 7, 130824, 2, 255,
          [0x7d, 0x99, 1, 2, 3, 4, 5, 6, 7]⟩, false, some .plain⟩] := by
    decide +kernel
  cases hread : LineFrameReader.readAll ⟨none, false⟩ twoSources with
  | error e =>
      rw [hread] at hframes
      cases hframes
  | ok out =>
      rw [hread] at hframes
      have hout := Except.ok.inj hframes
      dsimp only at hout
      have hlog : pushesOf keyValueDatabase .all false out.2 =
          [(⟨some "2024-01-01T00:00:00.000Z", 2, 127245, 1, 255, [1, 2, 3, 4, 5, 6, 7, 8]⟩, .Other),
            (⟨some "2024-01-01T00:00:00.100Z", 7, 130824, 2, 255,
              [0x7d, 0x99, 1, 2, 3, 4, 5, 6, 7]⟩, .Other)] := by
        rw [hout]
        decide +kernel
      have hkeys : ∀ e ∈ pushesOf keyValueDatabase .all false out.2, ¬Collected e := by
        rw [hlog]
        decide
      have htp : ∀ e ∈ pushesOf keyValueDatabase .all false out.2, ¬e.1.IsTp := by
        rw [hlog]
        decide
      refine ⟨out, rfl,
        (decodeStream_filters keyValueDatabase ⟨none, some 2, none, false⟩ hread).2 ?_ ?_ ?_⟩
      · rw [hout]
        exact ⟨fun _ => rfl, fun h => absurd h (by decide), trivial⟩
      · refine ⟨fun e he _ _ k hk _ => ?_, fun e he _ _ h => absurd h (htp e he),
          fun e he h => absurd h (htp e he)⟩
        rw [fastKey_of_not_collected (hkeys e he)] at hk
        cases hk
      · exact roomy_of_passing hkeys htp

/-- A broadcast of nine bytes. -/
def broadcast : List LineRead :=
  [⟨none, "2024-01-01T00:00:00.000Z,7,60416,15,255,8,20,09,00,02,ff,08,ff,01".toList⟩,
    ⟨none, "2024-01-01T00:00:00.100Z,7,60160,15,255,8,01,7d,99,01,02,03,04,05".toList⟩,
    ⟨none, "2024-01-01T00:00:00.200Z,7,60160,15,255,8,02,06,07,ff,ff,ff,ff,ff".toList⟩]

/-- The message is one record, which the filter on its PGN loses. -/
theorem not_decodeStream_filters :
    (decodeLines keyValueDatabase ⟨some 130824, none, none, false⟩ ⟨none, false⟩ broadcast) ≠
      (decodeLines keyValueDatabase .all ⟨none, false⟩ broadcast).map
        (List.filter (Config.keeps ⟨some 130824, none, none, false⟩)) := by
  intro h
  have hlength := congrArg (Except.map List.length) h
  revert hlength
  decide +kernel

end Canboat
