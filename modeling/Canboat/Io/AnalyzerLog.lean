import Canboat.Io.Drivers
import Canboat.Reassembly.FastPacket

/-!
# What the analyzer hands to its reassembler

`decode_stream` as the pushes of the frames it admits, each with what it says of the frame, and
the records of what comes back. Two runs over the same input are told apart by the frames that
one of them calls a fragment and the other does not.
-/

namespace Canboat

open Buffer Reassembler

variable {F : Type} [Float64 F]

/-! ## Pushes and records -/

/-- What a run hands to its reassembler, and as what. -/
def pushesOf (db : PgnDatabase F) (cfg : Config) : Bool → List ReadFrame → Log
  | _, [] => []
  | coalesced, r :: input =>
      let headed := coalesced || r.headerCoalesced
      if cfg.admits r.frame then
        let coalesced := headed ||
          (decide (8 < r.frame.data.length) && r.activeFormat != some .plainMixFast)
        (r.frame, if coalesced then .Other else db.framePacketType r.frame.pgn) ::
          pushesOf db cfg coalesced input
      else pushesOf db cfg headed input

/-- The records of lines, as the reader comes to them. -/
def decodeLines (db : PgnDatabase F) (cfg : Config) (reader : LineFrameReader)
    (lines : List LineRead) : Except Fault (List (DecodedPgn F)) :=
  (reader.readAll lines).map fun out => decodeStream db cfg out.2

/-- The records of what a log of pushes brings. -/
def decodeLog (db : PgnDatabase F) (r : Reassembler) (log : Log) : List (DecodedPgn F) :=
  (r.pushAll log).2.filterMap fun out => out.message.bind db.decode?

section

variable (db : PgnDatabase F)

@[simp] theorem decodeLog_nil (r : Reassembler) : decodeLog db r [] = [] := rfl

theorem decodeLog_cons (r : Reassembler) (e : RawFrame × FramePacketType) (log : Log) :
    decodeLog db r (e :: log) =
      ((r.push e.1 e.2).2.message.bind db.decode?).toList ++
        decodeLog db (r.push e.1 e.2).1 log := by
  rw [decodeLog, pushAll, List.filterMap_cons]
  cases (r.push e.1 e.2).2.message.bind db.decode? with
  | none => rfl
  | some d => rfl

theorem decodeLog_append (r : Reassembler) (log log' : Log) :
    decodeLog db r (log ++ log') =
      decodeLog db r log ++ decodeLog db (r.pushAll log).1 log' := by
  rw [decodeLog, pushAll_append, List.filterMap_append]
  rfl

theorem records_eq_decodeLog (cfg : Config) (d : Driver) (input : List ReadFrame) :
    records (decodeStreamStep db cfg) d input =
      decodeLog db d.reasm (pushesOf db cfg d.coalesced input) := by
  induction input generalizing d with
  | nil => rfl
  | cons r input ih =>
      rw [records, ih, pushesOf, decodeStreamStep]
      dsimp only
      split_ifs
      · rw [decodeLog_cons]
      · rw [decodeLog_cons]
      · rfl

theorem decodeStream_eq_decodeLog (cfg : Config) (input : List ReadFrame) :
    decodeStream db cfg input = decodeLog db .new (pushesOf db cfg false input) :=
  records_eq_decodeLog db cfg (.start false) input

end

/-! ## Frames taken for fragments -/

/-- The push goes to the fast-packet slots. -/
def Collected (e : RawFrame × FramePacketType) : Prop :=
  ¬e.1.IsTp ∧ e.1.data.length ≤ 8 ∧ e.2 = .Fast

instance : DecidablePred Collected := fun e =>
  inferInstanceAs (Decidable (¬e.1.IsTp ∧ e.1.data.length ≤ 8 ∧ e.2 = .Fast))

/-- The same frames, none of them as a fragment. -/
def passed (log : Log) : Log := log.map fun e => (e.1, .Other)

@[simp] theorem passed_nil : passed [] = [] := rfl

@[simp] theorem passed_cons (e : RawFrame × FramePacketType) (log : Log) :
    passed (e :: log) = (e.1, .Other) :: passed log := rfl

theorem push_other {f : RawFrame} {t : FramePacketType} (h : ¬Collected (f, t))
    (r : Reassembler) : r.push f t = r.push f .Other := by
  unfold Reassembler.push
  by_cases hcm : f.pgn = PGN_ISO_TP_CM
  · rw [if_pos hcm, if_pos hcm]
  · by_cases hdt : f.pgn = PGN_ISO_TP_DT
    · rw [if_neg hcm, if_neg hcm, if_pos hdt, if_pos hdt]
    · have hsel : f.data.length > 8 ∨ t ≠ .Fast := by
        by_contra hsel
        rw [not_or, not_lt, not_not] at hsel
        exact h ⟨not_or.mpr ⟨hcm, hdt⟩, hsel⟩
      have hother : f.data.length > 8 ∨ FramePacketType.Other ≠ .Fast := Or.inr (by decide)
      rw [if_neg hcm, if_neg hcm, if_neg hdt, if_neg hdt, if_pos hsel, if_pos hother]

/-! ## The two tables -/

/-- The sessions of the two are the same, whatever their fast-packet slots hold. -/
structure SameSessions (r₁ r₂ : Reassembler) : Prop where
  slots : r₁.tpSlots = r₂.tpSlots
  age : r₁.tpNextAge = r₂.tpNextAge

theorem SameSessions.refl (r : Reassembler) : SameSessions r r := ⟨rfl, rfl⟩

/-- The reassembler with other fast-packet slots. -/
def withSlots (r : Reassembler) (slots : List Slot) (age : UInt64) : Reassembler :=
  { r with slots := slots, nextAge := age }

theorem SameSessions.eq_withSlots {r₁ r₂ : Reassembler} (h : SameSessions r₁ r₂) :
    r₂ = withSlots r₁ r₂.slots r₂.nextAge := by
  obtain ⟨slots, tpSlots, nextAge, tpNextAge⟩ := r₂
  rw [withSlots, h.slots, h.age]

theorem handleTpCm_withSlots (r : Reassembler) (slots : List Slot) (age : UInt64) (f : RawFrame) :
    (withSlots r slots age).handleTpCm f =
      (withSlots (r.handleTpCm f).1 slots age, (r.handleTpCm f).2) := by
  rw [handleTpCm, handleTpCm]
  have hfind : (withSlots r slots age).findTpSlot f.src = r.findTpSlot f.src := rfl
  cases f.data with
  | nil => rfl
  | cons control rest =>
      dsimp only
      split_ifs with hopen hshort hdeclared habort
      · rfl
      · rfl
      · have hclaim : (withSlots r slots age).claimTpSlot f.src =
            (r.claimTpSlot f.src).map fun c => (c.1, withSlots c.2 slots age) := by
          rw [claimTpSlot, claimTpSlot, hfind]
          cases r.findTpSlot f.src with
          | none =>
              dsimp only
              rw [Option.map_map]
              rfl
          | some i => rfl
        rw [hclaim]
        cases r.claimTpSlot f.src with
        | none => rfl
        | some c => rfl
      · rw [hfind]
        cases r.findTpSlot f.src with
        | none => rfl
        | some i => rfl
      · rfl

theorem handleTpDt_withSlots (r : Reassembler) (slots : List Slot) (age : UInt64) (f : RawFrame) :
    (withSlots r slots age).handleTpDt f =
      (withSlots (r.handleTpDt f).1 slots age, (r.handleTpDt f).2) := by
  rw [handleTpDt, handleTpDt]
  have hfind : (withSlots r slots age).findTpSlot f.src = r.findTpSlot f.src := rfl
  cases f.data with
  | nil => rfl
  | cons _ _ =>
      dsimp only
      rw [hfind]
      cases r.findTpSlot f.src with
      | none => rfl
      | some i => rfl

/-- What an ISO TP frame brings is up to the sessions. -/
theorem SameSessions.push_tp {r₁ r₂ : Reassembler} (h : SameSessions r₁ r₂) {f : RawFrame}
    (hf : f.IsTp) (t₁ t₂ : FramePacketType) :
    SameSessions (r₁.push f t₁).1 (r₂.push f t₂).1 ∧ (r₁.push f t₁).2 = (r₂.push f t₂).2 := by
  rw [h.eq_withSlots, Reassembler.push, Reassembler.push]
  by_cases hcm : f.pgn = PGN_ISO_TP_CM
  · rw [if_pos hcm, if_pos hcm, handleTpCm_withSlots]
    exact ⟨⟨rfl, rfl⟩, rfl⟩
  · have hdt := hf.resolve_left hcm
    rw [if_neg hcm, if_neg hcm, if_pos hdt, if_pos hdt, handleTpDt_withSlots]
    exact ⟨⟨rfl, rfl⟩, rfl⟩

/-- Other frames leave the sessions alone. -/
theorem SameSessions.push_ordinary {r₁ r₂ : Reassembler} (h : SameSessions r₁ r₂) (hw₁ : r₁.WF)
    (hw₂ : r₂.WF) {f : RawFrame} (hf : ¬f.IsTp) (t₁ t₂ : FramePacketType) :
    SameSessions (r₁.push f t₁).1 (r₂.push f t₂).1 := by
  obtain ⟨hcm, hdt⟩ := not_or.mp hf
  have h₁ : (r₁.push f t₁).1.tpSlots = r₁.tpSlots ∧ (r₁.push f t₁).1.tpNextAge = r₁.tpNextAge :=
    push_tpSlots_of_ordinary hw₁ hcm hdt
  have h₂ : (r₂.push f t₂).1.tpSlots = r₂.tpSlots ∧ (r₂.push f t₂).1.tpNextAge = r₂.tpNextAge :=
    push_tpSlots_of_ordinary hw₂ hcm hdt
  exact ⟨by rw [h₁.1, h₂.1, h.slots], by rw [h₁.2, h₂.2, h.age]⟩

/-! ## Two ways to come to records -/

/-- The frames that a log brings for decoding. -/
def messagesOf (r : Reassembler) (log : Log) : List (Option RawFrame) :=
  (r.pushAll log).2.map Reassembled.message

theorem messagesOf_cons (r : Reassembler) (e : RawFrame × FramePacketType) (log : Log) :
    messagesOf r (e :: log) =
      (r.push e.1 e.2).2.message :: messagesOf (r.push e.1 e.2).1 log := rfl

def recordsOf (db : PgnDatabase F) (messages : List (Option RawFrame)) : List (DecodedPgn F) :=
  messages.filterMap (·.bind db.decode?)

theorem decodeLog_eq (db : PgnDatabase F) (r : Reassembler) (log : Log) :
    decodeLog db r log = recordsOf db (messagesOf r log) := by
  rw [decodeLog, recordsOf, messagesOf, List.filterMap_map]
  rfl

theorem recordsOf_cons (db : PgnDatabase F) (m : Option RawFrame)
    (messages : List (Option RawFrame)) :
    recordsOf db (m :: messages) = (m.bind db.decode?).toList ++ recordsOf db messages := by
  rw [recordsOf, List.filterMap_cons]
  cases m.bind db.decode? with
  | none => rfl
  | some d => rfl

/-- The same, with the frames of some pushes as they are. -/
def overlaid (special : RawFrame × FramePacketType → Prop) [DecidablePred special]
    (r : Reassembler) : Log → List (Option RawFrame)
  | [] => []
  | e :: log =>
      (if special e then some e.1 else (r.push e.1 e.2).2.message) ::
        overlaid special (r.push e.1 e.2).1 log

/-- What is looked at in records, and in the frames they come from. -/
structure RecordView (db : PgnDatabase F) (α β : Type) where
  record : DecodedPgn F → α
  frame : RawFrame → β
  congr : ∀ f g, frame f = frame g → (db.decode? f).map record = (db.decode? g).map record
  inj : ∀ f g d d', db.decode? f = some d → db.decode? g = some d' → record d = record d' →
    frame f = frame g

/-- All of them. -/
def RecordView.all (db : PgnDatabase F) : RecordView db (DecodedPgn F) RawFrame where
  record := id
  frame := id
  congr := fun _ _ h => congrArg (fun f => (db.decode? f).map id) h
  inj := by
    intro f g d d' hf hg h
    rw [show d = d' from h] at hf
    exact frame_of_decode hf hg

section

variable {db : PgnDatabase F} {α β : Type} (v : RecordView db α β)
  (special : RawFrame × FramePacketType → Prop) [DecidablePred special]

/-- Every frame of these pushes completes to itself. -/
def HandedOn (q : RawFrame → β) (r : Reassembler) : Log → Prop
  | [] => True
  | e :: log =>
      (special e → (r.push e.1 e.2).2.message.map q = some (q e.1)) ∧
        HandedOn q (r.push e.1 e.2).1 log

theorem records_eq_of_handedOn_view {r : Reassembler} {log : Log}
    (h : HandedOn special v.frame r log) :
    (recordsOf db (messagesOf r log)).map v.record =
      (recordsOf db (overlaid special r log)).map v.record := by
  induction log generalizing r with
  | nil => rfl
  | cons e log ih =>
      rw [messagesOf_cons, overlaid, recordsOf_cons, recordsOf_cons, List.map_append,
        List.map_append, ih h.2]
      congr 1
      split_ifs with hspecial
      · obtain ⟨g, hg, hframe⟩ := Option.map_eq_some_iff.mp (h.1 hspecial)
        have hrecord := v.congr g e.1 hframe
        rw [hg, Option.bind_some, Option.bind_some, ← Option.toList_map, ← Option.toList_map,
          hrecord]
      · rfl

/-- The run with the frames as they are makes no fewer records. -/
theorem length_records_le_overlaid {r : Reassembler} {log : Log}
    (hlog : ∀ e ∈ log, special e → (db.decode? e.1).isSome) :
    (recordsOf db (messagesOf r log)).length ≤ (recordsOf db (overlaid special r log)).length := by
  induction log generalizing r with
  | nil => exact Nat.le_refl _
  | cons e log ih =>
      rw [List.forall_mem_cons] at hlog
      rw [messagesOf_cons, overlaid, recordsOf_cons, recordsOf_cons, List.length_append,
        List.length_append]
      refine Nat.add_le_add ?_ (ih hlog.2)
      split_ifs with hspecial
      · obtain ⟨d, hd⟩ := Option.isSome_iff_exists.mp (hlog.1 hspecial)
        rw [Option.bind_some, hd]
        exact Option.length_toList_le
      · exact Nat.le_refl _

theorem handedOn_of_records_eq_view {r : Reassembler} {log : Log}
    (hlog : ∀ e ∈ log, special e → (db.decode? e.1).isSome)
    (heq : (recordsOf db (messagesOf r log)).map v.record =
      (recordsOf db (overlaid special r log)).map v.record) :
    HandedOn special v.frame r log := by
  induction log generalizing r with
  | nil => trivial
  | cons e log ih =>
      rw [List.forall_mem_cons] at hlog
      rw [messagesOf_cons, overlaid, recordsOf_cons, recordsOf_cons, List.map_append,
        List.map_append] at heq
      by_cases hspecial : special e
      · obtain ⟨d, hd⟩ := Option.isSome_iff_exists.mp (hlog.1 hspecial)
        rw [if_pos hspecial, Option.bind_some, hd] at heq
        cases hrecord : (r.push e.1 e.2).2.message.bind db.decode? with
        | none =>
            -- one record less from here on
            have hle := length_records_le_overlaid (r := (r.push e.1 e.2).1) special hlog.2
            rw [hrecord] at heq
            have hlen := congrArg List.length heq
            simp only [Option.toList, List.map_nil, List.nil_append, List.length_append,
              List.length_cons, List.length_nil, List.length_map] at hlen
            omega
        | some d' =>
            rw [hrecord] at heq
            obtain ⟨hd', heq⟩ := List.cons.inj heq
            refine ⟨fun _ => ?_, ih hlog.2 heq⟩
            obtain ⟨g, hg, hdecode⟩ := Option.bind_eq_some_iff.mp hrecord
            rw [hg, Option.map_some, v.inj g e.1 d' d hdecode hd hd']
      · rw [if_neg hspecial] at heq
        exact ⟨fun hs => absurd hs hspecial, ih hlog.2 (List.append_cancel_left heq)⟩

end

/-! ## A run that collects and one that passes on -/

/-- The messages of the two pushes of a frame. -/
theorem SameSessions.push {r₁ r₂ : Reassembler} (h : SameSessions r₁ r₂) (hw₁ : r₁.WF)
    (hw₂ : r₂.WF) (e : RawFrame × FramePacketType) :
    SameSessions (r₁.push e.1 e.2).1 (r₂.push e.1 .Other).1 ∧
      (r₂.push e.1 .Other).2.message =
        if Collected e then some e.1 else (r₁.push e.1 e.2).2.message := by
  obtain ⟨f, t⟩ := e
  by_cases htp : f.IsTp
  · obtain ⟨hsame, hout⟩ := h.push_tp htp t .Other
    rw [if_neg fun hcollected => hcollected.1 htp]
    exact ⟨hsame, congrArg Reassembled.message hout.symm⟩
  · refine ⟨h.push_ordinary hw₁ hw₂ htp t .Other, ?_⟩
    split_ifs with hcollected
    · rw [push_of_not_tp htp]
      rfl
    · rw [push_other hcollected, push_of_not_tp htp, push_of_not_tp htp]

theorem messagesOf_passed {r₁ r₂ : Reassembler} (h : SameSessions r₁ r₂) (hw₁ : r₁.WF)
    (hw₂ : r₂.WF) (log : Log) : messagesOf r₂ (passed log) = overlaid Collected r₁ log := by
  induction log generalizing r₁ r₂ with
  | nil => rfl
  | cons e log ih =>
      obtain ⟨hsame, hmessage⟩ := h.push hw₁ hw₂ e
      rw [passed_cons, messagesOf_cons, overlaid, ih hsame (push_wf hw₁) (push_wf hw₂), hmessage]

/-- Whatever may be taken for a fragment decodes on its own. -/
def FragmentsDecode (db : PgnDatabase F) : Prop :=
  ∀ f, Collected (f, db.framePacketType f.pgn) → (db.decode? f).isSome

/-! ## Slots that nothing has gone to -/

/-- The payload that frame 0 carries, behind its two bytes. -/
theorem storeBucket_shift {b d : List UInt8} (hb : b.length = FASTPACKET_MAX_SIZE) {i : ℕ}
    (hi : i < 6) (hd : i + 2 < d.length) : (storeBucket b 0 d)[i]? = d[i + 2]? := by
  have hlen : ((d.drop 2).take (copyLen 0 d)).length = min 6 (d.length - 2) := by
    rw [List.length_take, List.length_drop]
    simp only [copyLen, bucket, if_true, BUCKET_0_OFFSET, BUCKET_0_SIZE, FASTPACKET_MAX_SIZE]
    omega
  have hcopy : copyLen 0 d = min 6 (d.length - 2) := by
    simp only [copyLen, bucket, if_true, BUCKET_0_OFFSET, BUCKET_0_SIZE, FASTPACKET_MAX_SIZE]
    omega
  rw [storeBucket_eq]
  simp only [bucket, if_true, BUCKET_0_OFFSET, BUCKET_0_SIZE, Nat.zero_add]
  rw [getElem?_overwrite_of_outside (Or.inl (by omega)),
    getElem?_overwrite_of_inside (Nat.zero_le i) (by omega) (by rw [hb, FASTPACKET_MAX_SIZE]; omega),
    Nat.sub_zero, List.getElem?_take_of_lt (by omega), List.getElem?_drop, Nat.add_comm]

/-- What frame 0 does not carry of its bucket is padding. -/
theorem storeBucket_pad {b d : List UInt8} (hb : b.length = FASTPACKET_MAX_SIZE) {i : ℕ}
    (hi : i < 6) (hd : d.length ≤ i + 2) : (storeBucket b 0 d)[i]? = some 0xff := by
  have hcopy : copyLen 0 d = min 6 (d.length - 2) := by
    simp only [copyLen, bucket, if_true, BUCKET_0_OFFSET, BUCKET_0_SIZE, FASTPACKET_MAX_SIZE]
    omega
  rw [storeBucket_eq]
  simp only [bucket, if_true, BUCKET_0_OFFSET, BUCKET_0_SIZE, Nat.zero_add, FASTPACKET_MAX_SIZE]
  rw [getElem?_overwrite_of_inside (by omega) (by rw [List.length_replicate]; omega)
    (by rw [length_overwrite, hb, FASTPACKET_MAX_SIZE]; omega), List.getElem?_replicate,
    if_pos (by omega)]

/-- Frame 0 alone never completes to its own bytes. -/
theorem take_storeBucket_ne {d : List UInt8} (hne : d ≠ []) (hd : d.length ≤ 8) :
    (storeBucket (List.replicate FASTPACKET_MAX_SIZE 0) 0 d).take (declared d).1 ≠ d := by
  intro h
  have hb : (List.replicate FASTPACKET_MAX_SIZE (0 : UInt8)).length = FASTPACKET_MAX_SIZE :=
    List.length_replicate
  generalize hbuf : List.replicate FASTPACKET_MAX_SIZE (0 : UInt8) = b at h hb
  have hpos := List.length_pos_iff.mpr hne
  have hlen : min (d.getD 1 0).toNat FASTPACKET_MAX_SIZE = d.length := by
    have hlen := congrArg List.length h
    rw [List.length_take, Slot.length_storeBucket, hb, declared] at hlen
    dsimp only at hlen
    omega
  have hget : ∀ i, i < d.length → d[i]? = (storeBucket b 0 d)[i]? := by
    intro i hi
    have hi' := hi
    rw [← hlen] at hi'
    conv_lhs => rw [← h]
    rw [declared, List.getElem?_take_of_lt hi']
  -- every other byte, up to the padding or to the end
  have hone : 1 < d.length → d[1]? = some 0xff ∨ d[1]? = some 0 := by
    intro h1
    rw [hget 1 h1]
    rcases Nat.lt_or_ge 3 d.length with h3 | h3
    · rw [storeBucket_shift hb (by decide) h3, hget 3 h3]
      rcases Nat.lt_or_ge 5 d.length with h5 | h5
      · rw [storeBucket_shift hb (by decide) h5, hget 5 h5]
        rcases Nat.lt_or_ge 7 d.length with h7 | h7
        · rw [storeBucket_shift hb (by decide) h7, hget 7 h7,
            storeBucket_other b d (by decide), ← hbuf]
          exact Or.inr rfl
        · exact Or.inl (storeBucket_pad hb (by decide) h7)
      · exact Or.inl (storeBucket_pad hb (by decide) h5)
    · exact Or.inl (storeBucket_pad hb (by decide) h3)
  have hmax : FASTPACKET_MAX_SIZE = 223 := rfl
  rw [List.getD_eq_getElem?_getD] at hlen
  rcases Nat.lt_or_ge 1 d.length with h1 | h1
  · rcases hone h1 with hone | hone
    · rw [hone] at hlen
      have h255 : ((some (0xff : UInt8)).getD 0).toNat = 255 := rfl
      omega
    · rw [hone] at hlen
      have h0 : ((some (0 : UInt8)).getD 0).toNat = 0 := rfl
      omega
  · rw [List.getElem?_eq_none h1] at hlen
    have h0 : ((none : Option UInt8).getD 0).toNat = 0 := rfl
    omega

/-- What a slot nothing has gone to makes of a frame is not the frame. -/
theorem claimed_accept_ne {f : RawFrame} (hne : f.data ≠ []) (hf : f.data.length ≤ 8)
    (k : FastId) (age : UInt64) : ((Slot.claimed k age).accept f).2 ≠ .Complete f := by
  intro h
  rcases Slot.accept_cases (Slot.claimed k age) f with ⟨haccept, hall, -⟩ | ⟨haccept, -⟩
  · rw [haccept] at h
    have hdata := congrArg RawFrame.data (Reassembled.Complete.inj h)
    dsimp only at hdata
    by_cases hzero : frameIndex (f.data.headD 0) = 0
    · refine take_storeBucket_ne hne hf ?_
      simp only [Slot.gather, hzero, if_true, Option.map_some, Option.getD_some] at hdata
      exact hdata
    · refine hall ?_
      simp only [Slot.gather, if_neg hzero, Option.map_none, Option.getD_none]
      rfl
  · rw [haccept] at h
    cases h
/-- No fast-packet slot is in use. -/
def Unused (r : Reassembler) : Prop := ∀ k, r.held k = none

theorem unused_new : Unused .new := by
  intro k
  rw [held, SlotTable.View.lookup_eq_none]
  intro s hs hused
  rw [List.eq_of_mem_replicate hs] at hused
  cases hused

theorem fastKey_of_not_collected {e : RawFrame × FramePacketType} (h : ¬Collected e) :
    fastKey e.1 e.2 = none := by
  rw [Option.eq_none_iff_forall_ne_some]
  intro k hk
  obtain ⟨hcm, hdt, hlen, hfast, -⟩ := fastKey_eq_some.mp hk
  exact h ⟨not_or.mpr ⟨hcm, hdt⟩, hlen, hfast⟩

theorem Unused.push {r : Reassembler} (h : Unused r) (hw : r.WF)
    {e : RawFrame × FramePacketType} (he : ¬Collected e) : Unused (r.push e.1 e.2).1 := by
  intro k
  rw [held, push_slots_of_no_key hw (fastKey_of_not_collected he)]
  exact h k

/-- The first frame taken for a fragment is not handed on. -/
theorem Unused.not_handedOn {r : Reassembler} (h : Unused r) (hw : r.WF)
    {e : RawFrame × FramePacketType} (he : Collected e) :
    (r.push e.1 e.2).2.message ≠ some e.1 := by
  obtain ⟨f, t⟩ := e
  obtain ⟨htp, hlen, hfast⟩ := he
  obtain ⟨hcm, hdt⟩ := not_or.mp htp
  dsimp only at hfast hlen ⊢
  cases hdata : f.data with
  | nil =>
      have hsel : ¬(f.data.length > 8 ∨ t ≠ .Fast) := by
        rw [not_or, not_lt, not_not]
        exact ⟨hlen, hfast⟩
      rw [Reassembler.push, if_neg hcm, if_neg hdt, if_neg hsel, hdata]
      rintro ⟨⟩
  | cons header rest =>
      have hk : fastKey f t = some (f.pgn, f.src, frameSeq header) :=
        fastKey_eq_some.mpr ⟨hcm, hdt, hlen, hfast, header, rest, hdata, rfl⟩
      have hne : f.data ≠ [] := by rw [hdata]; exact List.cons_ne_nil _ _
      rw [push_out hw hk, target, h, Option.getD_none]
      intro hmessage
      have haccept := claimed_accept_ne hne hlen (f.pgn, f.src, frameSeq header) r.nextAge
      rcases Slot.accept_cases (.claimed (f.pgn, f.src, frameSeq header) r.nextAge) f with
        ⟨hout, -⟩ | ⟨hout, -⟩
      · rw [hout] at hmessage haccept
        exact haccept (congrArg Reassembled.Complete (Option.some.inj hmessage))
      · rw [hout] at hmessage
        cases hmessage

/-- Before any frame is taken for a fragment, none may be. -/
theorem Unused.handedOn_iff {r : Reassembler} (h : Unused r) (hw : r.WF) (log : Log) :
    HandedOn Collected id r log ↔ ∀ e ∈ log, ¬Collected e := by
  induction log generalizing r with
  | nil => exact iff_of_true trivial nofun
  | cons e log ih =>
      rw [HandedOn, List.forall_mem_cons, Option.map_id]
      by_cases he : Collected e
      · exact iff_of_false (fun hon => h.not_handedOn hw he (hon.1 he)) fun hnone => hnone.1 he
      · rw [ih (h.push hw he) (push_wf hw)]
        exact and_congr_left fun _ => iff_of_true (fun hc => absurd hc he) he

theorem decodeLog_passed (db : PgnDatabase F) (log : Log) :
    decodeLog db .new (passed log) = recordsOf db (overlaid Collected .new log) := by
  rw [decodeLog_eq, messagesOf_passed (.refl _) new_wf new_wf]

/-- The records are those of a run that passes all frames on where none is taken for a fragment. -/
theorem decodeLog_eq_passed (db : PgnDatabase F) {log : Log} (h : ∀ e ∈ log, ¬Collected e) :
    decodeLog db .new log = decodeLog db .new (passed log) := by
  have hon := (unused_new.handedOn_iff new_wf log).mpr h
  have heq : (recordsOf db _).map id = (recordsOf db _).map id :=
    records_eq_of_handedOn_view (.all db) Collected hon
  rwa [List.map_id, List.map_id, ← decodeLog_eq, ← decodeLog_passed] at heq

/-- Where fragments decode they are nowhere else. -/
theorem not_collected_of_decodeLog_eq (db : PgnDatabase F) {log : Log}
    (hlog : ∀ e ∈ log, Collected e → (db.decode? e.1).isSome)
    (heq : decodeLog db .new log = decodeLog db .new (passed log)) :
    ∀ e ∈ log, ¬Collected e := by
  rw [decodeLog_passed, decodeLog_eq] at heq
  exact (unused_new.handedOn_iff new_wf log).mp
    (handedOn_of_records_eq_view (.all db) Collected hlog (congrArg (List.map id) heq))

/-! ## A database with a fast-packet PGN -/

/-- A proprietary message that may be short, though its PGN is a fast-packet one. -/
def keyValueData : PgnInfo Binary64 where
  pgn := 130824
  id := ⟨"bGKeyValueData", Eq.refl true⟩
  description := "B&G: key-value data"
  packetType := .fast
  fallback := none
  priority := none
  length := none
  fields := [.number (Float64.ofInt 0) 1 ⟨"manufacturerCode", Eq.refl true⟩ 11]
  repeatingFieldSet1 := .none
  repeatingFieldSet2 := .none
  idIsPinned := false

def keyValueDatabase : PgnDatabase Binary64 where
  units := .si
  pgns := [keyValueData]
  lookups := []
  bitLookups := []
  indirectLookups := []
  fieldTypeLookups := []
  claimFlat := by simp [keyValueData]

end Canboat
