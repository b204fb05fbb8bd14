import Canboat.Io.TxRoundTrip

/-!
# Messages queued whole

The transmit queue drops what does not fit frame by frame, and the split loop
knows no longest payload: when a call leaves a whole message behind, and when
it leaves a part of one.
-/

namespace Canboat

open Reassembler

/-- A receiver puts the frames together to the payload, once, and to nothing else. -/
def Reassembles (frames : List CanFrame) (payload : List UInt8) : Prop :=
  Clean (new.pushAll (burst (frames.map readBack))).2 ∧
    ∃ f, completed (new.pushAll (burst (frames.map readBack))).2 = [f] ∧ f.data = payload

/-- What a call for a fast-packet PGN should do to the queue. -/
structure QueuedWhole (call : SendPgn) (tx tx' : TxBuffer) : Prop where
  whole : tx'.queue = tx.queue ∨
    ∃ frames, tx'.queue = tx.queue ++ frames ∧ Reassembles frames call.data
  bounded : FASTPACKET_MAX_SIZE < call.data.length → tx'.queue = tx.queue

/-- The identifier that the frames of the call carry. -/
def SendPgn.canId (call : SendPgn) : UInt32 :=
  iso11783Compose call.prio call.pgn call.src call.dst &&& CAN_EFF_MASK

/-- The queue takes nothing, or it has room for all the frames of a payload that has the
length of a fast-packet one. Frames of the transport protocol are no fragments. -/
def HasRoom (tx : TxBuffer) (call : SendPgn) : Prop :=
  TX_BUFFER_CAPACITY ≤ tx.queue.length ∨ call.data = [] ∨
    (call.data.length ≤ FASTPACKET_MAX_SIZE ∧
      tx.queue.length + frameCount call.data.length ≤ TX_BUFFER_CAPACITY ∧
      (iso11783Decompose call.canId).2.1 ≠ PGN_ISO_TP_CM ∧
      (iso11783Decompose call.canId).2.1 ≠ PGN_ISO_TP_DT)

instance (tx : TxBuffer) (call : SendPgn) : Decidable (HasRoom tx call) :=
  inferInstanceAs (Decidable (_ ∨ _))

/-! ## What the receiver completes -/

theorem completed_append (outs outs' : List Reassembled) :
    completed (outs ++ outs') = completed outs ++ completed outs' := List.filterMap_append

theorem completed_eq_nil {outs : List Reassembled} (h : ∀ out ∈ outs, ∀ f, out ≠ .Complete f) :
    completed outs = [] := by
  rw [completed, List.filterMap_eq_nil_iff]
  intro out hout
  cases out with
  | Complete f => exact absurd rfl (h _ hout f)
  | Partial => rfl
  | PassThrough f => rfl
  | Error e => rfl

theorem pushAll_outs_length (r : Reassembler) (log : Log) :
    (r.pushAll log).2.length = log.length := by
  induction log generalizing r with
  | nil => rfl
  | cons e log ih => exact congrArg (· + 1) (ih (r.push e.1 e.2).1)

/-- A part of a delivered message completes nothing. -/
theorem completed_take {p : List UInt8} {frames : List RawFrame} {r : Reassembler}
    (h : Delivered p frames (r.pushAll (burst frames)).2) {k : ℕ} (hk : k < frames.length) :
    completed (r.pushAll (burst (frames.take k))).2 = [] := by
  have hsplit : burst frames = burst (frames.take k) ++ burst (frames.drop k) := by
    rw [burst, burst, burst, ← List.map_append, List.take_append_drop]
  have houts : (r.pushAll (burst (frames.take k))).2 = (r.pushAll (burst frames)).2.take k := by
    rw [hsplit, pushAll_append]
    refine (List.take_left' ?_).symm
    rw [pushAll_outs_length, burst, List.length_map, List.length_take_of_le hk.le]
  obtain ⟨init, last, rfl, hres⟩ := h
  rw [List.length_append, List.length_singleton] at hk
  rw [houts, hres, List.take_append_of_le_length
    (by rw [List.length_map]; exact Nat.le_of_lt_succ hk)]
  apply completed_eq_nil
  intro out hout
  obtain ⟨f, -, rfl⟩ := List.mem_map.mp (List.mem_of_mem_take hout)
  rintro _ ⟨⟩

theorem completed_of_cm {frames : List RawFrame} (h : ∀ f ∈ frames, f.pgn = PGN_ISO_TP_CM)
    (r : Reassembler) : completed (r.pushAll (burst frames)).2 = [] := by
  induction frames generalizing r with
  | nil => rfl
  | cons f frames ih =>
      have hrest := ih (fun g hg => h g (List.mem_cons_of_mem _ hg)) (r.push f .Fast).1
      have hnow : completed [(r.push f .Fast).2] = [] := by
        apply completed_eq_nil
        intro out hout g
        rw [List.mem_singleton.mp hout, push, if_pos (h f List.mem_cons_self), handleTpCm]
        split
        · exact nofun
        · split_ifs
          · exact nofun
          · dsimp only
            split_ifs
            · exact nofun
            · split <;> exact nofun
          · split <;> exact nofun
          · exact nofun
      show completed ([(r.push f .Fast).2] ++ ((r.push f .Fast).1.pushAll (burst frames)).2) = []
      rw [completed_append, hnow, hrest, List.nil_append]

theorem completed_of_dt {frames : List RawFrame} (h : ∀ f ∈ frames, f.pgn = PGN_ISO_TP_DT)
    {r : Reassembler} (hr : ∀ src, r.findTpSlot src = none) :
    completed (r.pushAll (burst frames)).2 = [] := by
  induction frames with
  | nil => rfl
  | cons f frames ih =>
      have hpush : (r.push f .Fast).1 = r ∧ completed [(r.push f .Fast).2] = [] := by
        have hcm : f.pgn ≠ PGN_ISO_TP_CM := by
          rw [h f List.mem_cons_self]
          decide
        rw [push, if_neg hcm, if_pos (h f List.mem_cons_self), handleTpDt]
        split
        · exact ⟨rfl, rfl⟩
        · rw [hr]
          exact ⟨rfl, rfl⟩
      have hrest := ih fun g hg => h g (List.mem_cons_of_mem _ hg)
      show completed ([(r.push f .Fast).2] ++ ((r.push f .Fast).1.pushAll (burst frames)).2) = []
      rw [completed_append, hpush.2, hpush.1, hrest, List.nil_append]

namespace TxBuffer

/-! ## What a call queues -/

/-- With room for one frame, something is queued. -/
theorem sendFast_grows {tx : TxBuffer} (h : tx.queue.length < TX_BUFFER_CAPACITY)
    (canId : UInt32) (seq : UInt8) (data : List UInt8) (index : UInt8) (offset : ℕ)
    {remaining : ℕ} (hmore : remaining ≠ 0) :
    (tx.sendFast canId seq data index offset remaining).queue ≠ tx.queue := by
  intro hsame
  have hfirst : ∀ chunk, (tx.push canId (fastFrame seq index data offset chunk)).queue.length =
      tx.queue.length + 1 := by
    intro chunk
    rw [push, if_neg (Nat.not_le.mpr h), if_neg (by rw [fastFrame_length]; decide),
      List.length_append, List.length_singleton]
  have hlen := congrArg List.length hsame
  rw [sendFast, dif_neg hmore] at hlen
  have hle := sendFast_length_le (tx.push canId (fastFrame seq index data offset
    (min remaining (if index = 0 then 6 else 7)))) canId seq data (index + 1)
    (offset + min remaining (if index = 0 then 6 else 7))
    (remaining - min remaining (if index = 0 then 6 else 7))
  rw [hfirst] at hle
  exact absurd (hlen ▸ hle) (Nat.not_succ_le_self _)

end TxBuffer

/-- What the receiver takes the call for. -/
def SendPgn.carried (call : SendPgn) : SendPgn :=
  { call with
    prio := (iso11783Decompose call.canId).1
    pgn := (iso11783Decompose call.canId).2.1
    src := (iso11783Decompose call.canId).2.2.1
    dst := (iso11783Decompose call.canId).2.2.2 }

theorem SendPgn.canId_carried (call : SendPgn) :
    call.carried.prio.toNat < 8 ∧ CarriablePgn call.carried.pgn ∧
      iso11783Compose call.carried.prio call.carried.pgn call.carried.src call.carried.dst =
        call.canId := by
  obtain ⟨prio, pgn, src, dst, hfields, hprio, hpgn, hid⟩ := compose_decompose call.canId
  have hcarried : call.carried = ⟨prio, pgn, src, dst, call.data, call.emit⟩ := by
    rw [carried, hfields]
  have hmask : call.canId &&& CAN_EFF_MASK = call.canId := by
    rw [canId, UInt32.and_assoc, UInt32.and_self]
  rw [hcarried]
  exact ⟨hprio, hpgn, hid.trans hmask⟩

theorem readBack_pgn {call : SendPgn} {frame : CanFrame} (h : frame.id = call.canId) :
    (readBack frame).pgn = call.carried.pgn := by
  show (iso11783Decompose frame.id).2.1 = (iso11783Decompose call.canId).2.1
  rw [h]

section

variable {packetType : UInt32 → FramePacketType} {tx : TxBuffer} {call : SendPgn}

theorem sendPgn_fast (hfast : packetType call.pgn = .Fast) (stamp : String) :
    (tx.sendPgn packetType call stamp).1 =
      (tx.nextFastSeq call.pgn call.src).2.sendFast
        (iso11783Compose call.prio call.pgn call.src call.dst)
        (tx.fastSeq (call.pgn, call.src)) call.data 0 0 call.data.length := by
  rw [TxBuffer.sendPgn]
  dsimp only
  rw [if_neg (not_not.mpr hfast)]
  rfl

/-- The frames of the call, under the identifier that they carry. -/
theorem callFrames_carried (seq : UInt8) :
    callFrames call.carried seq =
      ((List.range (frameCount call.data.length)).map (txFrame seq call.data)).map
        fun data => { id := call.canId, data } := by
  rw [callFrames, call.canId_carried.2.2, List.map_map]
  rfl

/-- As many of them are queued as there is room for. -/
theorem sendPgn_queue_take (hfast : packetType call.pgn = .Fast) (stamp : String)
    (hpos : 1 ≤ call.data.length) (hmax : call.data.length ≤ FASTPACKET_MAX_SIZE) :
    (tx.sendPgn packetType call stamp).1.queue = tx.queue ++
      (callFrames call.carried (tx.fastSeq (call.pgn, call.src))).take
        (TX_BUFFER_CAPACITY - tx.queue.length) := by
  have hloop := TxBuffer.sendFast_eq (iso11783Compose call.prio call.pgn call.src call.dst)
    (tx.fastSeq (call.pgn, call.src)) hpos hmax (tx.nextFastSeq call.pgn call.src).2
    (Nat.zero_add (frameCount call.data.length))
  rw [sendPgn_fast hfast, callFrames_carried, ← List.map_take, List.range_eq_range']
  refine (congrArg TxBuffer.queue hloop).trans (TxBuffer.pushAll_queue_take _ ?_)
  intro data hdata
  obtain ⟨i, hi, rfl⟩ := List.mem_map.mp hdata
  have hlt : i < frameCount call.data.length := by
    rw [← List.range_eq_range'] at hi
    exact List.mem_range.mp hi
  exact (txFrame_carries _ (lt_32 hmax hlt)).2.le

/-- Frames of the transport protocol complete nothing by themselves. -/
theorem not_reassembles_of_tp {frames : List CanFrame} (hid : ∀ frame ∈ frames, frame.id = call.canId)
    (htp : call.carried.pgn = PGN_ISO_TP_CM ∨ call.carried.pgn = PGN_ISO_TP_DT)
    (payload : List UInt8) : ¬Reassembles frames payload := by
  rintro ⟨-, f, hcompleted, -⟩
  have hpgn : ∀ g ∈ frames.map readBack, g.pgn = call.carried.pgn := by
    intro g hg
    obtain ⟨frame, hframe, rfl⟩ := List.mem_map.mp hg
    exact readBack_pgn (hid frame hframe)
  have hnone : completed (new.pushAll (burst (frames.map readBack))).2 = [] := by
    rcases htp with hcm | hdt
    · exact completed_of_cm (fun g hg => (hpgn g hg).trans hcm) new
    · refine completed_of_dt (fun g hg => (hpgn g hg).trans hdt) fun src => ?_
      rw [findTpSlot, List.findIdx?_eq_none_iff]
      intro slot hslot
      rw [List.eq_of_mem_replicate hslot]
      rfl
  rw [hnone] at hcompleted
  cases hcompleted

theorem carried_valid (hpos : 1 ≤ call.data.length)
    (hmax : call.data.length ≤ FASTPACKET_MAX_SIZE) (hcm : call.carried.pgn ≠ PGN_ISO_TP_CM)
    (hdt : call.carried.pgn ≠ PGN_ISO_TP_DT) : call.carried.Valid fun _ => .Fast :=
  ⟨rfl, hcm, hdt, call.canId_carried.1, call.canId_carried.2.1, hpos, hmax⟩

theorem received_readBack (frames : List CanFrame) :
    List.Forall₂ Received frames (frames.map readBack) := by
  rw [List.forall₂_map_right_iff, List.forall₂_same]
  exact fun frame _ => ⟨rfl, rfl⟩

/-- All the frames of a call are put together to its payload. -/
theorem reassembles_callFrames (hvalid : call.carried.Valid fun _ => .Fast) (seq : UInt8) :
    Reassembles (callFrames call.carried seq) call.data := by
  obtain ⟨hclean, ⟨f, hcompleted, hanswers⟩, -⟩ :=
    rx_call hvalid new_wf new_heldKeys (received_readBack (callFrames call.carried seq))
  exact ⟨hclean, f, hcompleted, hanswers.data⟩

/-- A part of them completes nothing. -/
theorem not_reassembles_take (hvalid : call.carried.Valid fun _ => .Fast) (seq : UInt8) {k : ℕ}
    (hk : k < frameCount call.data.length) (payload : List UInt8) :
    ¬Reassembles ((callFrames call.carried seq).take k) payload := by
  rintro ⟨-, f, hcompleted, -⟩
  have hdelivered := (rx_delivered hvalid new_wf new_heldKeys
    (received_readBack (callFrames call.carried seq))).1
  have hlen : ((callFrames call.carried seq).map readBack).length =
      frameCount call.data.length := by
    rw [List.length_map, callFrames, List.length_map, List.length_range]
    rfl
  have hnone := completed_take hdelivered (k := k) (by rw [hlen]; exact hk)
  rw [← List.map_take, hcompleted] at hnone
  cases hnone

theorem hasRoom_of_queuedWhole (stamp : String) (hfast : packetType call.pgn = .Fast)
    (h : QueuedWhole call tx (tx.sendPgn packetType call stamp).1) : HasRoom tx call := by
  obtain ⟨hwhole, hbounded⟩ := h
  by_contra hroom
  rw [HasRoom, not_or, not_or, Nat.not_le] at hroom
  obtain ⟨hopen, hdata, hnot⟩ := hroom
  have hpos : 1 ≤ call.data.length := List.length_pos_iff.mpr hdata
  have hgrows : (tx.sendPgn packetType call stamp).1.queue ≠ tx.queue := by
    rw [sendPgn_fast hfast]
    exact @TxBuffer.sendFast_grows (tx.nextFastSeq call.pgn call.src).2 hopen _ _ _ _ _ _
      (Nat.ne_of_gt hpos)
  rcases Nat.lt_or_ge FASTPACKET_MAX_SIZE call.data.length with hlong | hmax
  · exact hgrows (hbounded hlong)
  · rcases hwhole with hsame | ⟨frames, hqueue, hframes⟩
    · exact hgrows hsame
    · rw [sendPgn_queue_take hfast stamp hpos hmax] at hqueue
      obtain rfl := List.append_cancel_left hqueue
      by_cases htp : call.carried.pgn = PGN_ISO_TP_CM ∨ call.carried.pgn = PGN_ISO_TP_DT
      · refine @not_reassembles_of_tp call _ ?_ htp call.data hframes
        intro frame hframe
        have hmem := List.mem_of_mem_take hframe
        rw [callFrames_carried] at hmem
        obtain ⟨data, -, rfl⟩ := List.mem_map.mp hmem
        rfl
      · rw [not_or] at htp
        have hvalid := carried_valid hpos hmax htp.1 htp.2
        refine not_reassembles_take hvalid _ ?_ call.data hframes
        by_contra hfits
        exact hnot ⟨hmax, by omega, htp.1, htp.2⟩

theorem queuedWhole_of_hasRoom (stamp : String) (hfast : packetType call.pgn = .Fast)
    (hroom : HasRoom tx call) : QueuedWhole call tx (tx.sendPgn packetType call stamp).1 := by
  refine ⟨?_, fun hlong => ?_⟩
  · rcases hroom with hfull | hempty | ⟨hmax, hfits, hcm, hdt⟩
    · left
      rw [sendPgn_fast hfast]
      exact @TxBuffer.sendFast_of_full (tx.nextFastSeq call.pgn call.src).2 hfull _ _ _ _ _ _
    · left
      rw [sendPgn_fast hfast, hempty, TxBuffer.sendFast]
      rfl
    · by_cases hpos : 1 ≤ call.data.length
      · right
        refine ⟨_, sendPgn_queue_take hfast stamp hpos hmax, ?_⟩
        have hlen : (callFrames call.carried (tx.fastSeq (call.pgn, call.src))).length =
            frameCount call.data.length := by
          rw [callFrames, List.length_map, List.length_range]
          rfl
        rw [List.take_of_length_le (by rw [hlen]; omega)]
        exact reassembles_callFrames (carried_valid hpos hmax hcm hdt) _
      · left
        have hempty : call.data = [] := List.length_eq_zero_iff.mp (by omega)
        rw [sendPgn_fast hfast, hempty, TxBuffer.sendFast]
        rfl
  · have hfull : TX_BUFFER_CAPACITY ≤ tx.queue.length := by
      rcases hroom with hfull | hempty | ⟨hmax, -⟩
      · exact hfull
      · rw [hempty] at hlong
        cases hlong
      · exact absurd hlong (Nat.not_lt.mpr hmax)
    rw [sendPgn_fast hfast]
    exact @TxBuffer.sendFast_of_full (tx.nextFastSeq call.pgn call.src).2 hfull _ _ _ _ _ _

/-- **A message is queued whole or not at all**, exactly where the queue takes nothing of it or
has room for all its frames. -/
theorem queuedWhole_iff (stamp : String) (hfast : packetType call.pgn = .Fast) :
    QueuedWhole call tx (tx.sendPgn packetType call stamp).1 ↔ HasRoom tx call :=
  ⟨hasRoom_of_queuedWhole stamp hfast, queuedWhole_of_hasRoom stamp hfast⟩

end

/-- A call of three frames, on an empty queue. -/
theorem queuedWhole_iff_empty :
    QueuedWhole ⟨6, 126996, 16, 255, List.replicate 20 1, false⟩ .new
        (TxBuffer.new.sendPgn (fun _ => .Fast)
          ⟨6, 126996, 16, 255, List.replicate 20 1, false⟩ "").1 ↔
      HasRoom .new ⟨6, 126996, 16, 255, List.replicate 20 1, false⟩ :=
  queuedWhole_iff "" rfl

/-- Two of three frames, where the queue has room for two more. -/
theorem not_queuedWhole :
    ¬QueuedWhole ⟨6, 126996, 16, 255, List.replicate 20 1, false⟩
      { TxBuffer.new with queue := List.replicate 1022 ⟨0x18eeff10, List.replicate 8 0⟩ }
      (TxBuffer.sendPgn (fun _ => .Fast)
        { TxBuffer.new with queue := List.replicate 1022 ⟨0x18eeff10, List.replicate 8 0⟩ }
        ⟨6, 126996, 16, 255, List.replicate 20 1, false⟩ "").1 := by
  intro h
  exact absurd (hasRoom_of_queuedWhole "" rfl h) (by decide +kernel)

end Canboat
