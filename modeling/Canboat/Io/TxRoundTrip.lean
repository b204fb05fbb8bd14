import Canboat.Io.SocketCan
import Canboat.Reassembly.Stale

/-!
# Transmit splitting and receive reassembly are inverse

`send_pgn` queues, for a fast-packet payload of 1 to 223 bytes, exactly the
frames the reassembler expects (`sendFast_queue`): frame `i` carries fragment
`i`, padded with `0xff`, and their number is `frameCount`. A fresh reassembler
that is pushed all queued frames therefore completes once per call, and holds
nothing in between (`rx_call`).
-/

namespace Canboat

open Buffer Reassembler

/-! ## The frames of one call -/

/-- The eight bytes of frame `i` of a payload. -/
def txFrame (seq : UInt8) (p : List UInt8) (i : ℕ) : List UInt8 :=
  TxBuffer.fastFrame seq (UInt8.ofNat i) p (bucket i).1
    (min (p.length - (bucket i).1) (bucket i).2.2)

theorem ofNat_eq_zero {i : ℕ} (hi : i < 32) : UInt8.ofNat i = 0 ↔ i = 0 := by
  constructor
  · intro h
    have := congrArg UInt8.toNat h
    rw [UInt8.toNat_ofNat', Nat.mod_eq_of_lt (by omega)] at this
    exact this
  · rintro rfl
    rfl

theorem and_index_mask {i : ℕ} (hi : i < 32) : UInt8.ofNat i &&& 0x1f = UInt8.ofNat i := by
  have hall : ∀ j : Fin 32, UInt8.ofNat j.val &&& 0x1f = UInt8.ofNat j.val := by decide
  exact hall ⟨i, hi⟩

theorem seq_in_place (seq : UInt8) : (seq <<< 5) &&& 0x1f = 0 := by
  have hall : ∀ b : BitVec 8, (b <<< (5#8 % 8#8)) &&& 0x1f#8 = 0#8 := by decide +kernel
  exact UInt8.toBitVec_inj.mp (hall seq.toBitVec)

/-- **A queued frame carries its fragment.** -/
theorem txFrame_carries (seq : UInt8) {p : List UInt8} {i : ℕ} (hi : i < 32) :
    fragment (seq <<< 5) p i <+: txFrame seq p i ∧ (txFrame seq p i).length = 8 := by
  set c := (p.drop (bucket i).1).take (min (p.length - (bucket i).1) (bucket i).2.2) with hc
  have hchunk : c = chunk p i := by
    rw [hc, chunk, ← List.length_drop, Nat.min_comm]
    exact List.take_eq_take_min.symm
  have hlen : c.length ≤ (bucket i).2.2 := by
    rw [hc, List.length_take]
    omega
  have hframe : txFrame seq p i = overwrite
      (((seq <<< 5) ||| UInt8.ofNat i) :: (if i = 0 then [UInt8.ofNat p.length] else []) ++
        List.replicate (bucket i).2.2 (0xff : UInt8))
      (if i = 0 then 2 else 1) c := by
    unfold txFrame TxBuffer.fastFrame
    simp only [and_index_mask hi, ofNat_eq_zero hi]
    by_cases h0 : i = 0
    · subst h0
      rfl
    · have hcap : (bucket i).2.2 = 7 := by simp [bucket, h0, BUCKET_N_SIZE]
      simp only [if_neg h0, hcap]
      rw [hc, hcap]
      rfl
  have hover : txFrame seq p i =
      (((seq <<< 5) ||| UInt8.ofNat i) :: (if i = 0 then [UInt8.ofNat p.length] else [])) ++
        (c ++ (List.replicate (bucket i).2.2 (0xff : UInt8)).drop c.length) := by
    rw [hframe]
    have hstart : (if i = 0 then 2 else 1) = (((seq <<< 5) ||| UInt8.ofNat i) ::
        (if i = 0 then [UInt8.ofNat p.length] else [])).length := by
      split <;> rfl
    rw [hstart]
    exact overwrite_append (by rw [List.length_replicate]; exact hlen)
  constructor
  · rw [hover, hchunk]
    refine ⟨(List.replicate (bucket i).2.2 (0xff : UInt8)).drop (chunk p i).length, ?_⟩
    unfold fragment
    simp only [List.cons_append, List.append_assoc]
  · rw [hframe, length_overwrite]
    by_cases h0 : i = 0
    · subst h0
      rfl
    · have hcap : (bucket i).2.2 = 7 := by simp [bucket, h0, BUCKET_N_SIZE]
      rw [if_neg h0, hcap]
      rfl

namespace TxBuffer

/-! ## Queueing them -/

/-- Push a list of frames of one identifier. -/
def pushAll (tx : TxBuffer) (canId : UInt32) (frames : List (List UInt8)) : TxBuffer :=
  frames.foldl (fun tx data => tx.push canId data) tx

theorem push_length_le (tx : TxBuffer) (canId : UInt32) (data : List UInt8) :
    tx.queue.length ≤ (tx.push canId data).queue.length := by
  unfold push
  split_ifs
  · exact le_rfl
  · exact le_rfl
  · simp

theorem push_full {tx : TxBuffer} (hfull : TX_BUFFER_CAPACITY ≤ tx.queue.length) (canId : UInt32)
    (data : List UInt8) : (tx.push canId data).queue = tx.queue := by
  rw [push, if_pos hfull]

theorem fastFrame_length (seq index : UInt8) (data : List UInt8) (offset chunk : ℕ) :
    (fastFrame seq index data offset chunk).length = 8 := by
  rw [fastFrame, Buffer.length_overwrite]
  split_ifs
  · rw [List.length_set, List.length_set, List.length_replicate]
  · rw [List.length_set, List.length_replicate]

theorem sendFast_length_le (tx : TxBuffer) (canId : UInt32) (seq : UInt8) (data : List UInt8)
    (index : UInt8) (offset remaining : ℕ) :
    tx.queue.length ≤ (tx.sendFast canId seq data index offset remaining).queue.length := by
  induction tx, index, offset, remaining using sendFast.induct canId seq data with
  | case1 tx index offset => rw [sendFast, dif_pos rfl]
  | case2 tx index offset remaining hmore chunk ih =>
      rw [sendFast, dif_neg hmore]
      exact (push_length_le tx canId _).trans ih

/-- Without room nothing enters. -/
theorem sendFast_of_full {tx : TxBuffer} (hfull : TX_BUFFER_CAPACITY ≤ tx.queue.length)
    (canId : UInt32) (seq : UInt8) (data : List UInt8) (index : UInt8) (offset remaining : ℕ) :
    (tx.sendFast canId seq data index offset remaining).queue = tx.queue := by
  induction tx, index, offset, remaining using sendFast.induct canId seq data with
  | case1 tx index offset => rw [sendFast, dif_pos rfl]
  | case2 tx index offset remaining hmore chunk ih =>
      have hpush := push_full hfull canId (fastFrame seq index data offset chunk)
      rw [sendFast, dif_neg hmore]
      exact (ih (by rw [hpush]; exact hfull)).trans hpush

theorem pushAll_length_le (tx : TxBuffer) (canId : UInt32) (frames : List (List UInt8)) :
    tx.queue.length ≤ (tx.pushAll canId frames).queue.length := by
  induction frames generalizing tx with
  | nil => exact le_rfl
  | cons data frames ih => exact le_trans (push_length_le tx canId data) (ih _)

/-- The frames that there is room for are queued, in order. -/
theorem pushAll_queue_take {tx : TxBuffer} (canId : UInt32) {frames : List (List UInt8)}
    (hlen : ∀ data ∈ frames, data.length ≤ 8) :
    (tx.pushAll canId frames).queue =
      tx.queue ++ (frames.take (TX_BUFFER_CAPACITY - tx.queue.length)).map fun data =>
        { id := canId &&& CAN_EFF_MASK, data } := by
  induction frames generalizing tx with
  | nil =>
      rw [List.take_nil]
      exact (List.append_nil _).symm
  | cons data frames ih =>
      have hrest := @ih (tx.push canId data) fun d hd => hlen d (List.mem_cons_of_mem _ hd)
      show ((tx.push canId data).pushAll canId frames).queue = _
      rw [hrest]
      by_cases hfull : tx.queue.length ≥ TX_BUFFER_CAPACITY
      · have hsame : (tx.push canId data).queue = tx.queue := by rw [push, if_pos hfull]
        rw [hsame, Nat.sub_eq_zero_of_le hfull, List.take_zero, List.take_zero]
      · have hpush : (tx.push canId data).queue =
            tx.queue ++ [{ id := canId &&& CAN_EFF_MASK, data }] := by
          rw [push, if_neg hfull, if_neg (Nat.not_lt.mpr (hlen data List.mem_cons_self))]
        have hroom : TX_BUFFER_CAPACITY - tx.queue.length =
            TX_BUFFER_CAPACITY - (tx.queue.length + 1) + 1 := by omega
        rw [hpush, List.length_append, List.length_singleton, hroom, List.take_succ_cons,
          List.append_assoc]
        rfl

/-- With room for all of them, every frame is queued. -/
theorem pushAll_queue_of_room {tx : TxBuffer} {canId : UInt32} {frames : List (List UInt8)}
    (hlen : ∀ data ∈ frames, data.length ≤ 8)
    (hroom : tx.queue.length + frames.length ≤ TX_BUFFER_CAPACITY) :
    (tx.pushAll canId frames).queue =
      tx.queue ++ frames.map fun data => { id := canId &&& CAN_EFF_MASK, data } := by
  rw [pushAll_queue_take canId hlen, List.take_of_length_le (Nat.le_sub_of_add_le' hroom)]

/-- With room to the end every frame is queued, in order. -/
theorem pushAll_queue {tx : TxBuffer} {canId : UInt32} {frames : List (List UInt8)}
    (hlen : ∀ data ∈ frames, data.length = 8)
    (hroom : (tx.pushAll canId frames).queue.length < TX_BUFFER_CAPACITY) :
    (tx.pushAll canId frames).queue =
      tx.queue ++ frames.map fun data => { id := canId &&& CAN_EFF_MASK, data } := by
  have hle : ∀ data ∈ frames, data.length ≤ 8 := fun data hdata => (hlen data hdata).le
  rw [pushAll_queue_take canId hle, List.length_append, List.length_map, List.length_take] at hroom
  exact pushAll_queue_of_room hle (by omega)

/-- The split loop pushes the frames from `i` on, up to `frameCount`. -/
theorem sendFast_eq (canId : UInt32) (seq : UInt8) {p : List UInt8} (hpos : 1 ≤ p.length)
    (hp : p.length ≤ FASTPACKET_MAX_SIZE) {n : ℕ} (tx : TxBuffer) {i : ℕ}
    (hn : i + n = frameCount p.length) :
    tx.sendFast canId seq p (UInt8.ofNat i) (bucket i).1 (p.length - (bucket i).1) =
      tx.pushAll canId ((List.range' i n).map (txFrame seq p)) := by
  have hbucket : ∀ j, (bucket (j + 1)).1 = (bucket j).1 + (bucket j).2.2 := by
    intro j
    cases j with
    | zero => rfl
    | succ j =>
        unfold bucket BUCKET_0_SIZE BUCKET_N_SIZE
        simp only [Nat.succ_ne_zero, if_false]
        omega
  have hend : (bucket (frameCount p.length)).1 ≥ p.length ∧
      ∀ j, j < frameCount p.length → (bucket j).1 < p.length := by
    unfold bucket frameCount BUCKET_0_SIZE BUCKET_N_SIZE
    refine ⟨?_, fun j hj => ?_⟩
    · rw [if_neg (by omega)]
      simp only
      omega
    · split <;> simp only <;> omega
  induction n generalizing tx i with
  | zero =>
      rw [Nat.add_zero] at hn
      subst hn
      have hdone : p.length - (bucket (frameCount p.length)).1 = 0 :=
        Nat.sub_eq_zero_of_le hend.1
      unfold sendFast
      rw [dif_pos hdone]
      rfl
  | succ n ih =>
      have hi : i < frameCount p.length := by omega
      have hi32 := lt_32 hp hi
      have hleft := hend.2 i hi
      have hcap : (if UInt8.ofNat i = 0 then 6 else 7 : ℕ) = (bucket i).2.2 := by
        simp only [ofNat_eq_zero hi32]
        unfold bucket
        split <;> rfl
      have hnext : UInt8.ofNat i + 1 = UInt8.ofNat (i + 1) := (UInt8.ofNat_add i 1).symm
      have hstep : tx.sendFast canId seq p (UInt8.ofNat i) (bucket i).1
            (p.length - (bucket i).1) =
          (tx.push canId (txFrame seq p i)).sendFast canId seq p (UInt8.ofNat (i + 1))
            ((bucket i).1 + min (p.length - (bucket i).1) (bucket i).2.2)
            (p.length - (bucket i).1 - min (p.length - (bucket i).1) (bucket i).2.2) := by
        rw [sendFast, dif_neg (by omega), hcap, hnext]
        rfl
      rw [hstep, List.range'_succ]
      rcases Nat.lt_or_ge (bucket (i + 1)).1 p.length with hlt | hge
      · -- a full frame, and more to come
        have hb := hbucket i
        have hmin : min (p.length - (bucket i).1) (bucket i).2.2 = (bucket i).2.2 := by omega
        have hrem : p.length - (bucket i).1 - (bucket i).2.2 = p.length - (bucket (i + 1)).1 := by
          omega
        rw [hmin, ← hb, hrem, ih _ (by omega)]
        rfl
      · -- the last frame
        have hb := hbucket i
        have hlast : n = 0 := by
          by_contra hne
          have := hend.2 (i + 1) (by omega)
          omega
        subst hlast
        have hdone : p.length - (bucket i).1 -
            min (p.length - (bucket i).1) (bucket i).2.2 = 0 := by omega
        rw [hdone]
        unfold sendFast
        rw [dif_pos rfl]
        rfl

end TxBuffer

/-! ## What a run has queued -/

/-- A call the round trip is about: a fast-packet PGN an identifier can carry, and a
payload that fits. -/
structure SendPgn.Valid (packetType : UInt32 → FramePacketType) (call : SendPgn) : Prop where
  fast : packetType call.pgn = .Fast
  not_cm : call.pgn ≠ PGN_ISO_TP_CM
  not_dt : call.pgn ≠ PGN_ISO_TP_DT
  prio : call.prio.toNat < 8
  pgn : CarriablePgn call.pgn
  pos : 1 ≤ call.data.length
  length : call.data.length ≤ FASTPACKET_MAX_SIZE

/-- The CAN frames of one call. -/
def callFrames (call : SendPgn) (seq : UInt8) : List CanFrame :=
  (List.range (frameCount call.data.length)).map fun i =>
    { id := iso11783Compose call.prio call.pgn call.src call.dst, data := txFrame seq call.data i }

section Run

variable {packetType : UInt32 → FramePacketType}

/-- **One call.** With room in the queue, a call appends its frames. -/
theorem sendPgn_queue {tx : TxBuffer} {call : SendPgn} (stamp : String)
    (hc : call.Valid packetType)
    (hroom : (tx.sendPgn packetType call stamp).1.queue.length < TX_BUFFER_CAPACITY) :
    (tx.sendPgn packetType call stamp).1.queue =
      tx.queue ++ callFrames call (tx.fastSeq (call.pgn, call.src)) := by
  set seq := tx.fastSeq (call.pgn, call.src)
  set canId := iso11783Compose call.prio call.pgn call.src call.dst with hid
  have hsend : (tx.sendPgn packetType call stamp).1 =
      (tx.nextFastSeq call.pgn call.src).2.pushAll canId
        ((List.range (frameCount call.data.length)).map (txFrame seq call.data)) := by
    have hloop := TxBuffer.sendFast_eq canId seq hc.pos hc.length
      (tx.nextFastSeq call.pgn call.src).2 (Nat.zero_add (frameCount call.data.length))
    rw [List.range_eq_range', ← hloop]
    unfold TxBuffer.sendPgn
    simp only [hc.fast, ne_eq, not_true_eq_false, if_false]
    rfl
  rw [hsend] at hroom ⊢
  rw [TxBuffer.pushAll_queue ?_ hroom, List.map_map]
  · congr 1
    unfold callFrames
    apply List.map_congr_left
    intro i _
    have hmask : canId &&& CAN_EFF_MASK = canId :=
      iso11783Compose_and_mask hc.prio hc.pgn
    show CanFrame.mk (canId &&& CAN_EFF_MASK) _ = _
    rw [hmask]
  · intro data hdata
    obtain ⟨i, hi, rfl⟩ := List.mem_map.mp hdata
    exact (txFrame_carries seq (lt_32 hc.length (List.mem_range.mp hi))).2

/-- A drain moves frames from the queue to the wire, and queues none. -/
theorem drain_queued (node : TxNode) (write : WriteResult) :
    (node.step packetType (.drain write)).queued = node.queued := by
  have hsuffix : (node.tx.drainOne write).1.queue = node.tx.queue.drop
      (node.tx.queue.length - (node.tx.drainOne write).1.queue.length) := by
    unfold TxBuffer.drainOne
    split
    · rename_i hq
      simp [hq]
    · rename_i frame rest hq
      cases write <;> simp [hq]
  show (node.drained ++ node.tx.queue.take _) ++ (node.tx.drainOne write).1.queue = _
  unfold TxNode.queued
  rw [List.append_assoc]
  congr 1
  have htake := List.take_append_drop
    (node.tx.queue.length - (node.tx.drainOne write).1.queue.length) node.tx.queue
  rwa [← hsuffix] at htake

/-- **Run.** What a run queues is, call by call, the frames of its calls. -/
theorem run_queued {actions : List TxAction} {node : TxNode}
    (hcalls : ∀ call ∈ TxNode.calls actions, call.Valid packetType)
    (hroom : ∀ pre, pre <+: actions →
      (node.run packetType pre).tx.queue.length < TX_BUFFER_CAPACITY) :
    ∃ bursts, (node.run packetType actions).queued = node.queued ++ bursts.flatten ∧
      List.Forall₂ (fun call frames => ∃ seq, frames = callFrames call seq)
        (TxNode.calls actions) bursts := by
  induction actions generalizing node with
  | nil => exact ⟨[], (List.append_nil _).symm, .nil⟩
  | cons action actions ih =>
      have hroom' : ∀ pre, pre <+: actions →
          ((node.step packetType action).run packetType pre).tx.queue.length <
            TX_BUFFER_CAPACITY := fun pre hpre =>
        hroom (action :: pre) (List.cons_prefix_cons.mpr ⟨rfl, hpre⟩)
      cases action with
      | send call stamp =>
          have hc := hcalls call List.mem_cons_self
          obtain ⟨bursts, hq, hb⟩ := ih (fun c hmem => hcalls c (List.mem_cons_of_mem _ hmem)) hroom'
          refine ⟨callFrames call (node.tx.fastSeq (call.pgn, call.src)) :: bursts, ?_,
            .cons ⟨_, rfl⟩ hb⟩
          have hsend := sendPgn_queue stamp hc (hroom' [] List.nil_prefix)
          have hnode : (node.step packetType (.send call stamp)).queued =
              node.queued ++ callFrames call (node.tx.fastSeq (call.pgn, call.src)) := by
            show node.drained ++ (node.tx.sendPgn packetType call stamp).1.queue = _
            rw [hsend, ← List.append_assoc]
            rfl
          show ((node.step packetType (.send call stamp)).run packetType actions).queued = _
          rw [hq, hnode, List.flatten_cons, List.append_assoc]
      | drain write =>
          obtain ⟨bursts, hq, hb⟩ := ih hcalls hroom'
          refine ⟨bursts, ?_, hb⟩
          show ((node.step packetType (.drain write)).run packetType actions).queued = _
          rw [hq, drain_queued]

end Run

/-! ## Receiving them -/

/-- A raw frame read back from a CAN frame. -/
structure Received (frame : CanFrame) (f : RawFrame) : Prop where
  header : iso11783Decompose frame.id = (f.prio, f.pgn, f.src, f.dst)
  data : f.data = frame.data

/-- What a completed frame shares with the call it came from. -/
structure Answers (call : SendPgn) (f : RawFrame) : Prop where
  pgn : f.pgn = call.pgn
  src : f.src = call.src
  prio : f.prio = call.prio
  data : f.data = call.data
  dst : f.dst = if pduFormat call.pgn < 240 then call.dst else ADDR_GLOBAL

/-- The frames the pushes completed with. -/
def completed (outs : List Reassembled) : List RawFrame :=
  outs.filterMap fun out => match out with
    | .Complete f => some f
    | _ => none

/-- Every push completed a frame or reported `Partial`. -/
def Clean (outs : List Reassembled) : Prop := ∀ out ∈ outs, out = .Partial ∨ ∃ f, out = .Complete f

theorem delivered_completed {p : List UInt8} {frames : List RawFrame} {outs : List Reassembled}
    (h : Delivered p frames outs) :
    Clean outs ∧ ∃ last ∈ frames, completed outs = [{ last with data := p }] ∧
      outs.getLast? = some (.Complete { last with data := p }) := by
  obtain ⟨init, last, rfl, rfl⟩ := h
  refine ⟨?_, last, List.mem_append_right _ (List.mem_singleton_self _), ?_, ?_⟩
  · intro out hout
    rcases List.mem_append.mp hout with hout | hout
    · obtain ⟨f, -, rfl⟩ := List.mem_map.mp hout
      exact Or.inl rfl
    · rw [List.mem_singleton.mp hout]
      exact Or.inr ⟨_, rfl⟩
  · unfold completed
    rw [List.filterMap_append]
    have hnone : (init.map fun _ => Reassembled.Partial).filterMap (fun out => match out with
        | .Complete f => some f
        | _ => none) = [] := by
      rw [List.filterMap_eq_nil_iff]
      intro out hout
      obtain ⟨f, -, rfl⟩ := List.mem_map.mp hout
      rfl
    rw [hnone]
    rfl
  · rw [List.getLast?_append]
    rfl

namespace Reassembler

variable {r : Reassembler}

/-- A push that completes frees the slot of its key. -/
theorem held_of_complete (hw : r.WF) {f g : RawFrame} {packetType : FramePacketType} {K : FastId}
    (hk : fastKey f packetType = some K) (hout : (r.push f packetType).2 = .Complete g) :
    (r.push f packetType).1.held K = none := by
  rw [push_out hw hk] at hout
  rw [held_push_self hw hk]
  rcases Slot.accept_cases (r.target K) f with ⟨h, -⟩ | ⟨h, -⟩
  · rw [h]
    exact if_neg Bool.false_ne_true
  · rw [h] at hout
    cases hout

theorem heldKeys_pushAll (hw : r.WF) (log : Log) :
    (r.pushAll log).1.heldKeys ⊆ r.heldKeys ∪ touched log := by
  induction log generalizing r with
  | nil => exact Finset.subset_union_left
  | cons e log ih =>
      exact (ih (push_wf hw)).trans (keys_push_subset (e := e) hw)

/-- Once a burst is delivered nothing is held, if nothing was before. -/
theorem burst_frees (hw : r.WF) (hempty : r.heldKeys = ∅) {K : FastId} {p : List UInt8}
    {frames : List RawFrame} (hkeys : ∀ f ∈ frames, fastKey f .Fast = some K)
    (hdel : Delivered p frames (r.pushAll (burst frames)).2) :
    (r.pushAll (burst frames)).1.heldKeys = ∅ := by
  obtain ⟨init, last, rfl, houts⟩ := hdel
  have hburst : burst (init ++ [last]) = burst init ++ [(last, .Fast)] := by simp [burst]
  have hwi : (r.pushAll (burst init)).1.WF := pushAll_wf hw _
  rw [hburst, pushAll_append] at houts ⊢
  -- the last push completes
  have hlast : ((r.pushAll (burst init)).1.push last .Fast).2 =
      .Complete { last with data := p } := by
    have hl := congrArg List.getLast? houts
    rw [List.getLast?_append, List.getLast?_append] at hl
    exact Option.some.inj hl
  have hfree := held_of_complete hwi
    (hkeys last (List.mem_append_right _ (List.mem_singleton_self _))) hlast
  have hsub := heldKeys_pushAll hw (burst (init ++ [last]))
  rw [hempty, Finset.empty_union, hburst, pushAll_append] at hsub
  rw [Finset.eq_empty_iff_forall_notMem]
  intro k hk
  have hkK : k = K := by
    rw [← hburst] at hsub
    exact Finset.mem_singleton.mp (touched_burst hkeys (hsub hk))
  subst hkK
  exact SlotTable.View.mem_keys.mp hk hfree

end Reassembler

/-- The header of a frame of a call, as it is read back. -/
theorem header_of_received {packetType : UInt32 → FramePacketType} {call : SendPgn}
    (hc : call.Valid packetType) {cf : CanFrame} {f : RawFrame}
    (hid : cf.id = iso11783Compose call.prio call.pgn call.src call.dst) (hrec : Received cf f) :
    f.prio = call.prio ∧ f.pgn = call.pgn ∧ f.src = call.src ∧
      f.dst = if pduFormat call.pgn < 240 then call.dst else ADDR_GLOBAL := by
  have h := hrec.header
  rw [hid, decompose_compose hc.prio hc.pgn] at h
  simp only [Prod.mk.injEq] at h
  exact ⟨h.1.symm, h.2.1.symm, h.2.2.1.symm, h.2.2.2.symm⟩

/-- The frames of a call, read back, are the fragments of its payload. -/
theorem fragments_of_received {packetType : UInt32 → FramePacketType} {call : SendPgn}
    (hc : call.Valid packetType) {seq : UInt8} {rx : List RawFrame}
    (hrx : List.Forall₂ Received (callFrames call seq) rx) :
    List.Forall₂ (IsFragment (call.pgn, call.src, seq <<< 5) call.data)
      (List.range (frameCount call.data.length)) rx := by
  unfold callFrames at hrx
  rw [List.forall₂_map_left_iff] at hrx
  have hmem := (List.forall₂_and_left _ _).mpr ⟨fun i (hi : i ∈ List.range _) => hi, hrx⟩
  refine List.Forall₂.imp ?_ hmem
  rintro i f ⟨hi, hrec⟩
  obtain ⟨-, hpgn, hsrc, -⟩ := header_of_received hc rfl hrec
  obtain ⟨hcarries, hlen⟩ := txFrame_carries (p := call.data) seq
    (lt_32 hc.length (List.mem_range.mp hi))
  refine ⟨hpgn, hsrc, ?_, ?_⟩
  · rw [hrec.data]
    exact hcarries
  · rw [hrec.data, hlen]

/-- **One call, received.** On a reassembler that holds nothing, the frames of a call are
delivered, and leave nothing behind. -/
theorem rx_delivered {packetType : UInt32 → FramePacketType} {call : SendPgn}
    (hc : call.Valid packetType) {seq : UInt8} {rx : List RawFrame} {r : Reassembler}
    (hw : r.WF) (hempty : r.heldKeys = ∅)
    (hrx : List.Forall₂ Received (callFrames call seq) rx) :
    Delivered call.data rx (r.pushAll (burst rx)).2 ∧
      (r.pushAll (burst rx)).1.heldKeys = ∅ := by
  set K : FastId := (call.pgn, call.src, seq <<< 5)
  have hK : K.Valid := ⟨hc.not_cm, hc.not_dt, seq_in_place seq⟩
  have hfrag := fragments_of_received hc hrx
  have hkeys := burst_keys hK hc.length (fun i hi => List.mem_range.mp hi) hfrag
  have hheld : r.held K = none := by
    by_contra hne
    have := SlotTable.View.mem_keys.mpr hne
    rw [show slotView.keys r.slots = ∅ from hempty] at this
    exact absurd this (Finset.notMem_empty K)
  have hrec : Recovers (r.staleFrames K) (frameCount call.data.length) := by
    left
    unfold staleFrames
    rw [hheld]
    rfl
  have hdel := burst_delivered hw hK hc.length hfrag hrec
  exact ⟨hdel, burst_frees hw hempty hkeys hdel⟩

/-- They complete once, with the call's payload and header. -/
theorem rx_call {packetType : UInt32 → FramePacketType} {call : SendPgn}
    (hc : call.Valid packetType) {seq : UInt8} {rx : List RawFrame} {r : Reassembler}
    (hw : r.WF) (hempty : r.heldKeys = ∅)
    (hrx : List.Forall₂ Received (callFrames call seq) rx) :
    Clean (r.pushAll (burst rx)).2 ∧
      (∃ f, completed (r.pushAll (burst rx)).2 = [f] ∧ Answers call f) ∧
      (r.pushAll (burst rx)).1.heldKeys = ∅ := by
  obtain ⟨hdel, hfree⟩ := rx_delivered hc hw hempty hrx
  obtain ⟨hclean, last, hlast, hcomp, -⟩ := delivered_completed hdel
  refine ⟨hclean, ⟨_, hcomp, ?_⟩, hfree⟩
  unfold callFrames at hrx
  rw [List.forall₂_map_left_iff] at hrx
  obtain ⟨i, hi⟩ : ∃ i, Received { id := _, data := txFrame seq call.data i } last := by
    obtain ⟨n, hn⟩ := List.mem_iff_getElem.mp hlast
    obtain ⟨hlt, rfl⟩ := hn
    have hlen := hrx.length_eq
    exact ⟨_, (List.forall₂_iff_get.mp hrx).2 n (by omega) hlt⟩
  obtain ⟨hprio, hpgn, hsrc, hdst⟩ := header_of_received hc rfl hi
  exact ⟨hpgn, hsrc, hprio, rfl, hdst⟩

/-- **The calls of a run, received.** -/
theorem rx_calls {packetType : UInt32 → FramePacketType} {calls : List SendPgn}
    (hcalls : ∀ call ∈ calls, call.Valid packetType) {bursts : List (List CanFrame)}
    (hb : List.Forall₂ (fun call frames => ∃ seq, frames = callFrames call seq) calls bursts)
    {rx : List RawFrame} (hrx : List.Forall₂ Received bursts.flatten rx) {r : Reassembler}
    (hw : r.WF) (hempty : r.heldKeys = ∅) :
    Clean (r.pushAll (burst rx)).2 ∧
      List.Forall₂ Answers calls (completed (r.pushAll (burst rx)).2) := by
  induction hb generalizing rx r with
  | nil =>
      cases hrx
      exact ⟨fun out hout => absurd hout List.not_mem_nil, .nil⟩
  | @cons call frames calls bursts hcall _ ih =>
      obtain ⟨seq, rfl⟩ := hcall
      rw [List.flatten_cons] at hrx
      obtain ⟨rx₁, rx₂, hrx₁, hrx₂, rfl⟩ : ∃ rx₁ rx₂,
          List.Forall₂ Received (callFrames call seq) rx₁ ∧
            List.Forall₂ Received bursts.flatten rx₂ ∧ rx = rx₁ ++ rx₂ :=
        ⟨_, _, (List.forall₂_take_append _ _ _ hrx.flip).flip,
          (List.forall₂_drop_append _ _ _ hrx.flip).flip, (List.take_append_drop _ _).symm⟩
      obtain ⟨hclean, ⟨f, hcomp, hans⟩, hfree⟩ :=
        rx_call (hcalls call List.mem_cons_self) hw hempty hrx₁
      obtain ⟨hclean', hans'⟩ := ih (fun c hc => hcalls c (List.mem_cons_of_mem _ hc)) hrx₂
        (pushAll_wf hw _) hfree
      have hburst : burst (rx₁ ++ rx₂) = burst rx₁ ++ burst rx₂ := List.map_append
      rw [hburst, pushAll_append]
      constructor
      · intro out hout
        rcases List.mem_append.mp hout with hout | hout
        · exact hclean out hout
        · exact hclean' out hout
      · show List.Forall₂ Answers (call :: calls) (completed (_ ++ _))
        unfold completed at hcomp hans' ⊢
        rw [List.filterMap_append, hcomp]
        exact .cons hans hans'

theorem new_heldKeys : new.heldKeys = ∅ := by decide

/-- **Transmit splitting and receive reassembly are inverse.** For any run of sends and
drains in which the queue stays below its capacity, the queued frames, read back and pushed
into a fresh reassembler, complete exactly once per send, in order, with the sent header
and payload; every other push reports `Partial`. -/
theorem tx_rx_round_trip {packetType : UInt32 → FramePacketType} {actions : List TxAction}
    (hcalls : ∀ call ∈ TxNode.calls actions, call.Valid packetType)
    (hroom : ∀ pre, pre <+: actions →
      (TxNode.new.run packetType pre).tx.queue.length < TX_BUFFER_CAPACITY)
    {rx : List RawFrame}
    (hrx : List.Forall₂ Received (TxNode.new.run packetType actions).queued rx) :
    List.Forall₂ Answers (TxNode.calls actions) (completed (new.pushAll (burst rx)).2) ∧
      ∀ out ∈ (new.pushAll (burst rx)).2, out = .Partial ∨ ∃ f, out = .Complete f := by
  obtain ⟨bursts, hq, hb⟩ := run_queued hcalls hroom
  have hstart : TxNode.new.queued = [] := rfl
  rw [hq, hstart, List.nil_append] at hrx
  obtain ⟨hclean, hans⟩ := rx_calls hcalls hb hrx new_wf new_heldKeys
  exact ⟨hans, hclean⟩

/-- Two calls of one fast-packet PGN, with a drain between them. -/
def twoCalls : List TxAction :=
  [.send { prio := 6, pgn := 126208, src := 16, dst := 32, data := [2, 0, 0], emit := false } "",
    .drain .Ok,
    .send { prio := 6, pgn := 126208, src := 16, dst := 32, data := List.replicate 13 1,
            emit := true } ""]

/-- A CAN frame read back. -/
def readBack (frame : CanFrame) : RawFrame :=
  let (prio, pgn, src, dst) := iso11783Decompose frame.id
  { timestamp := none, prio, pgn, src, dst, data := frame.data }

theorem tx_rx_round_trip_two_calls :
    List.Forall₂ Answers (TxNode.calls twoCalls)
        (completed (new.pushAll (burst
          ((TxNode.new.run (fun _ => .Fast) twoCalls).queued.map readBack))).2) ∧
      ∀ out ∈ (new.pushAll (burst
          ((TxNode.new.run (fun _ => .Fast) twoCalls).queued.map readBack))).2,
        out = .Partial ∨ ∃ f, out = .Complete f := by
  have hcalls : ∀ call ∈ TxNode.calls twoCalls, call.Valid fun _ => .Fast := by
    intro call hcall
    have hmem : call = { prio := 6, pgn := 126208, src := 16, dst := 32, data := [2, 0, 0],
                         emit := false } ∨
        call = { prio := 6, pgn := 126208, src := 16, dst := 32, data := List.replicate 13 1,
                 emit := true } := by
      simpa [twoCalls, TxNode.calls] using hcall
    rcases hmem with rfl | rfl
    · exact ⟨rfl, by decide, by decide, by decide, by decide, by decide, by decide⟩
    · exact ⟨rfl, by decide, by decide, by decide, by decide, by decide, by decide⟩
  have hroom : ∀ pre, pre <+: twoCalls →
      (TxNode.new.run (fun _ => .Fast) pre).tx.queue.length < TX_BUFFER_CAPACITY := by
    intro pre hpre
    obtain ⟨n, hn, rfl⟩ : ∃ n, n < 4 ∧ pre = twoCalls.take n := by
      have hle := hpre.length_le
      exact ⟨pre.length, Nat.lt_succ_of_le hle, List.prefix_iff_eq_take.mp hpre⟩
    revert n
    decide +kernel
  refine tx_rx_round_trip hcalls hroom ?_
  rw [List.forall₂_map_right_iff, List.forall₂_same]
  exact fun frame _ => ⟨rfl, rfl⟩

end Canboat
