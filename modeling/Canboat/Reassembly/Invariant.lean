import Canboat.Lib.Checked
import Canboat.Reassembly.FastPacket
import Mathlib.Algebra.Group.Nat.Defs

/-!
# The invariant of the tables

What the slots in use say of the frames that were pushed, whatever they were, and that no push
slices, indexes or shifts out of range.
-/

namespace Canboat

open Buffer SlotTable

/-! ## The frame that a slot goes by -/

namespace Reassembler

/-- The push brings frame 0 of a message under the key. -/
def IsFrameZero (k : FastId) (e : RawFrame × FramePacketType) : Prop :=
  fastKey e.1 e.2 = some k ∧ frameIndex (e.1.data.headD 0) = 0

instance (k : FastId) : DecidablePred (IsFrameZero k) := fun e =>
  inferInstanceAs (Decidable (fastKey e.1 e.2 = some k ∧ frameIndex (e.1.data.headD 0) = 0))

/-- The latest frame 0 under the key. -/
def latestZero (k : FastId) (log : Log) : Option RawFrame := (framesOf (IsFrameZero k) log).getLast?

theorem framesOf_append (sel : RawFrame × FramePacketType → Prop) [DecidablePred sel]
    (log log' : Log) : framesOf sel (log ++ log') = framesOf sel log ++ framesOf sel log' := by
  rw [framesOf, List.filter_append, List.map_append, framesOf, framesOf]

theorem latestZero_snoc_of_zero {k : FastId} {e : RawFrame × FramePacketType} (h : IsFrameZero k e)
    (log : Log) : latestZero k (log ++ [e]) = some e.1 := by
  have hone : framesOf (IsFrameZero k) [e] = [e.1] := framesOf_cons_pos h
  rw [latestZero, framesOf_append, hone]
  exact List.getLast?_concat

theorem latestZero_snoc_of_not {k : FastId} {e : RawFrame × FramePacketType} (h : ¬IsFrameZero k e)
    (log : Log) : latestZero k (log ++ [e]) = latestZero k log := by
  have hnone : framesOf (IsFrameZero k) [e] = [] := framesOf_cons_neg h
  rw [latestZero, framesOf_append, hnone, List.append_nil, latestZero]

end Reassembler

open Reassembler

/-- What a slot in use has, after the pushes. -/
structure Slot.Kept (log : Log) (k : FastId) (s : Slot) : Prop where
  size : s.size ≤ FASTPACKET_MAX_SIZE
  mask : s.allFrames = 0#32 ∨ s.allFrames.toNat = 2 ^ (1 + s.size / 7) - 1
  declared : s.frames.getLsbD 0 = true →
    ∃ f, latestZero k log = some f ∧ (s.size, s.allFrames) = declared f.data

theorem toNat_requiredFrames {size : ℕ} (h : size ≤ FASTPACKET_MAX_SIZE) :
    (requiredFrames size).toNat = 2 ^ (1 + size / 7) - 1 := by
  have hall : ∀ n < FASTPACKET_MAX_SIZE + 1, (requiredFrames n).toNat = 2 ^ (1 + n / 7) - 1 := by
    decide +kernel
  exact hall size (Nat.lt_succ_of_le h)

namespace Slot.Kept

variable {log : Log} {k : FastId} {s : Slot} {e : RawFrame × FramePacketType}

theorem claimed (log : Log) (k : FastId) (age : UInt64) : Slot.Kept log k (.claimed k age) where
  size := Nat.zero_le _
  mask := Or.inl rfl
  declared := by
    intro h
    have hframes : (Slot.claimed k age).frames = 0#32 := rfl
    rw [hframes, BitVec.getLsbD_zero] at h
    cases h

/-- Pushes under other keys do not change what the slot goes by. -/
theorem snoc (h : s.Kept log k) (hk : fastKey e.1 e.2 ≠ some k) : s.Kept (log ++ [e]) k := by
  refine ⟨h.size, h.mask, fun hzero => ?_⟩
  rw [latestZero_snoc_of_not fun hframe => hk hframe.1]
  exact h.declared hzero

theorem gather (h : s.Kept log k) (hk : fastKey e.1 e.2 = some k) :
    (s.gather e.1).Kept (log ++ [e]) k := by
  by_cases hzero : frameIndex (e.1.data.headD 0) = 0
  · have hsize : (Canboat.declared e.1.data).1 ≤ FASTPACKET_MAX_SIZE := Nat.min_le_right _ _
    have hgather : ((s.gather e.1).size, (s.gather e.1).allFrames) = Canboat.declared e.1.data := by
      simp only [Slot.gather, hzero, if_true, Option.map_some, Option.getD_some]
    obtain ⟨hsame, hmask⟩ := Prod.ext_iff.mp hgather
    dsimp only at hsame hmask
    refine ⟨by rw [hsame]; exact hsize, Or.inr ?_, fun _ => ?_⟩
    · rw [hsame, hmask]
      exact toNat_requiredFrames hsize
    · exact ⟨e.1, latestZero_snoc_of_zero ⟨hk, hzero⟩ log, hgather⟩
  · have hsame : (s.gather e.1).size = s.size ∧ (s.gather e.1).allFrames = s.allFrames := by
      simp only [Slot.gather, hzero, if_false, Option.map_none, Option.getD_none, and_self]
    refine ⟨by rw [hsame.1]; exact h.size, by rw [hsame.1, hsame.2]; exact h.mask, fun hbit => ?_⟩
    rw [latestZero_snoc_of_not fun hframe => hzero hframe.2, hsame.1, hsame.2]
    apply h.declared
    -- a slot that restarts with another frame has no frame 0
    have hkept : (if s.restarts (frameIndex (e.1.data.headD 0)) none then 0#32 else s.frames).getLsbD 0 =
        true := by
      have hframes : (s.gather e.1).frames =
          (if s.restarts (frameIndex (e.1.data.headD 0)) none then 0#32 else s.frames) |||
            BitVec.twoPow 32 (frameIndex (e.1.data.headD 0)) := by
        simp only [Slot.gather, hzero, if_false]
      rw [hframes, BitVec.getLsbD_or, BitVec.getLsbD_twoPow, decide_eq_false hzero, Bool.and_false,
        Bool.or_false] at hbit
      exact hbit
    split_ifs at hkept
    · cases hkept
    · exact hkept

end Slot.Kept

/-! ## Slots under other keys -/

namespace Reassembler

variable {r : Reassembler} {frame : RawFrame} {packetType : FramePacketType} {k k' : FastId}
  {log : Log}

/-- A slot under another key is left alone, or evicted. -/
theorem held_of_push {s : Slot} (hw : r.WF) (hk : fastKey frame packetType ≠ some k')
    (h : (r.push frame packetType).1.held k' = some s) : r.held k' = some s := by
  cases hkey : fastKey frame packetType with
  | none =>
      rwa [held, push_slots_of_no_key hw hkey] at h
  | some k =>
      obtain ⟨i, t, hi, hsel, hpush⟩ := push_fast hw hkey
      rw [hpush] at h
      change slotView.lookup k' (r.slots.set i ((r.target k).accept frame).1) = _ at h
      have hother : ¬(slotView.used ((r.target k).accept frame).1 = true ∧
          slotView.key ((r.target k).accept frame).1 = k') := by
        rintro ⟨-, hsame⟩
        rw [Slot.accept_key, target_key] at hsame
        exact hk (hkey.trans (congrArg some hsame))
      rw [View.lookup_set hw.slots_unique (push_fast_unique hw hi hsel) hi, if_neg hother] at h
      split_ifs at h
      exact h

/-- What every slot in use has. -/
def Keeps (r : Reassembler) (log : Log) : Prop := ∀ k s, r.held k = some s → s.Kept log k

theorem Keeps.target (h : r.Keeps log) (k : FastId) : (r.target k).Kept log k := by
  rw [Reassembler.target]
  cases hheld : r.held k with
  | none => exact .claimed log k r.nextAge
  | some s => exact h k s hheld

theorem Keeps.push (hw : r.WF) (h : r.Keeps log) (e : RawFrame × FramePacketType) :
    (r.push e.1 e.2).1.Keeps (log ++ [e]) := by
  intro k s hs
  by_cases hk : fastKey e.1 e.2 = some k
  · rw [held_push_self hw hk] at hs
    have hgathered := (h.target k).gather hk
    rcases Slot.accept_cases (r.target k) e.1 with ⟨hcomplete, -⟩ | ⟨hincomplete, -⟩
    · rw [hcomplete] at hs
      cases hs
    · rw [hincomplete] at hs
      split_ifs at hs
      rw [← Option.some.inj hs]
      exact hgathered
  · exact (h k s (held_of_push hw hk hs)).snoc hk

theorem keeps_pushAll (log : Log) : (new.pushAll log).1.Keeps log := by
  induction log using List.reverseRecOn with
  | nil =>
      intro k s hs
      obtain ⟨hused, -⟩ := held_holds hs
      have hmem : s ∈ new.slots := View.lookup_mem hs
      rw [List.eq_of_mem_replicate hmem] at hused
      cases hused
  | append_singleton log e ih =>
      have hpush : (new.pushAll (log ++ [e])).1 = ((new.pushAll log).1.push e.1 e.2).1 := by
        rw [pushAll_append]
        rfl
      rw [hpush]
      exact ih.push (pushAll_wf new_wf log) e

end Reassembler

/-! ## The checks of a push -/

/-- `1 << n` in a word. -/
def shiftOne (w n : ℕ) : Except Fault (BitVec w) :=
  if n < w then .ok (BitVec.twoPow w n) else .error .overflow

/-- `l[lo..lo + chunk.len()].copy_from_slice(chunk)`. -/
def copyInto (l : List UInt8) (lo : ℕ) (chunk : List UInt8) : Except Fault (List UInt8) :=
  if lo + chunk.length ≤ l.length then .ok (overwrite l lo chunk) else .error .index

/-- `l[lo..hi]` filled with ones. -/
def fillOnes (l : List UInt8) (lo hi : ℕ) : Except Fault (List UInt8) :=
  if lo ≤ hi ∧ hi ≤ l.length then .ok (overwrite l lo (List.replicate (hi - lo) 0xff))
  else .error .index

def requiredFramesChecked (size : ℕ) : Except Fault (BitVec 32) :=
  match min (1 + size / BUCKET_N_SIZE) (FASTPACKET_MAX_INDEX + 1) with
  | 0 => .ok 0#32
  | n =>
      if n ≥ 32 then .ok (BitVec.allOnes 32)
      else do
        let bit ← shiftOne 32 n
        return bit - 1#32

def declaredChecked (data : List UInt8) : Except Fault (ℕ × BitVec 32) := do
  let size := min (data.getD 1 0).toNat FASTPACKET_MAX_SIZE
  let mask ← requiredFramesChecked size
  return (size, mask)

/-- What frame 0 declares, and no other frame does. -/
def declaredByZero (index : ℕ) (data : List UInt8) : Except Fault (Option (ℕ × BitVec 32)) :=
  if index = 0 then (declaredChecked data).map some else .ok none

/-- So many bytes of the data into the buffer, where there are any. -/
def copyChunk (buffer : List UInt8) (dstOff : ℕ) (data : List UInt8) (srcOff n : ℕ) :
    Except Fault (List UInt8) :=
  if 0 < n then do
    let chunk ← slice data srcOff (srcOff + n)
    copyInto buffer dstOff chunk
  else .ok buffer

def storeBucketChecked (buffer : List UInt8) (index : ℕ) (data : List UInt8) :
    Except Fault (List UInt8) := do
  let (dstOff, srcOff, bucketLen) := bucket index
  let stop := min (dstOff + bucketLen) FASTPACKET_MAX_SIZE
  let capacity := stop - dstOff
  let copyLen := min (data.length - srcOff) capacity
  let copied ← copyChunk buffer dstOff data srcOff copyLen
  if copyLen < capacity then fillOnes copied (dstOff + copyLen) stop else .ok copied

def Slot.gatherChecked (slot : Slot) (frame : RawFrame) : Except Fault Slot := do
  let header ← byteAt frame.data 0
  let index := frameIndex header
  let bit ← shiftOne 32 index
  let newAllFrames ← declaredByZero index frame.data
  let kept := if slot.restarts index newAllFrames then 0#32 else slot.frames
  let data ← storeBucketChecked slot.data index frame.data
  return { slot with
    size := (newAllFrames.map Prod.fst).getD slot.size
    allFrames := (newAllFrames.map Prod.snd).getD slot.allFrames
    data
    frames := kept ||| bit }

def Slot.acceptChecked (slot : Slot) (frame : RawFrame) : Except Fault (Slot × Reassembled) := do
  let slot ← slot.gatherChecked frame
  if slot.allFrames ≠ 0#32 ∧ slot.frames = slot.allFrames then do
    let payload ← slice slot.data 0 slot.size
    return ({ slot with used := false, frames := 0#32, size := 0 },
      .Complete { frame with data := payload })
  else .ok (slot, .Partial)

def TpSlot.gatherChecked (slot : TpSlot) (frame : RawFrame) : Except Fault TpSlot := do
  let sequence ← byteAt frame.data 0
  let seqZeroBased ← checkedSub sequence.toNat 1
  let word ← byteAt slot.received (seqZeroBased / 64)
  let bit ← shiftOne 64 (seqZeroBased % 64)
  let offset := seqZeroBased * BUCKET_N_SIZE
  let stop := min (offset + BUCKET_N_SIZE) slot.totalSize
  let n := min (stop - offset) (frame.data.length - 1)
  let data ← copyChunk slot.data offset frame.data 1 n
  return { slot with received := slot.received.set (seqZeroBased / 64) (word ||| bit), data }

def TpSlot.allReceivedChecked (slot : TpSlot) : Except Fault Bool := do
  let packets := slot.packets.toNat
  let words ← slice slot.received 0 (packets / 64)
  let allFull := words.all fun w => decide (w = BitVec.allOnes 64)
  if packets % 64 = 0 then .ok (allFull && true)
  else do
    let bit ← shiftOne 64 (packets % 64)
    let word ← byteAt slot.received (packets / 64)
    return allFull && decide (word &&& (bit - 1#64) = bit - 1#64)

def TpSlot.acceptChecked (slot : TpSlot) (frame : RawFrame) :
    Except Fault (TpSlot × Reassembled) := do
  let sequence ← byteAt frame.data 0
  if sequence = 0 ∨ sequence > slot.packets then .ok (slot, .Partial)
  else do
    let slot ← slot.gatherChecked frame
    let all ← slot.allReceivedChecked
    if all = false then .ok (slot, .Partial)
    else do
      let payload ← slice slot.data 0 slot.totalSize
      return ({ slot with timestamp := none, used := false },
        .Complete
          { timestamp := slot.timestamp, prio := slot.prio, pgn := slot.targetPgn, src := frame.src
            dst := slot.dst, data := payload })

namespace Reassembler

def tpDeclaredChecked (data : List UInt8) : Except Fault (ℕ × UInt8 × UInt32) := do
  let low ← byteAt data 1
  let high ← byteAt data 2
  let packets ← byteAt data 3
  let pgn0 ← byteAt data 5
  let pgn1 ← byteAt data 6
  let pgn2 ← byteAt data 7
  return (low.toNat + 256 * high.toNat, packets,
    pgn0.toUInt32 ||| (pgn1.toUInt32 <<< 8) ||| (pgn2.toUInt32 <<< 16))

def handleTpCmChecked (r : Reassembler) (frame : RawFrame) :
    Except Fault (Reassembler × Reassembled) :=
  match frame.data with
  | [] => .ok (r, .Error .EmptyData)
  | control :: _ =>
      if control = TP_CM_BAM ∨ control = TP_CM_RTS then
        if frame.data.length < 8 then .ok (r, .Partial)
        else do
          let (totalSize, packets, targetPgn) ← tpDeclaredChecked frame.data
          if packets = 0 ∨ totalSize = 0 ∨ totalSize > ISO_TP_MAX_SIZE then .ok (r, .Partial)
          else match r.claimTpSlot frame.src with
            | none => .ok (r, .Error (.OutOfSlots targetPgn frame.src))
            | some (i, r) => do
                let slot ← byteAt r.tpSlots i
                return ({ r with tpSlots := r.tpSlots.set i { slot with
                    dst := frame.dst
                    prio := frame.prio
                    targetPgn, totalSize, packets
                    received := List.replicate 4 0#64
                    timestamp := frame.timestamp
                    data := List.replicate totalSize 0xff } }, .Partial)
      else if control = TP_CM_ABORT then
        match r.findTpSlot frame.src with
        | some i => do
            let slot ← byteAt r.tpSlots i
            return ({ r with tpSlots := r.tpSlots.set i { slot with used := false } }, .Partial)
        | none => .ok (r, .Partial)
      else .ok (r, .Partial)

def handleTpDtChecked (r : Reassembler) (frame : RawFrame) :
    Except Fault (Reassembler × Reassembled) :=
  match frame.data with
  | [] => .ok (r, .Error .EmptyData)
  | _ :: _ =>
      match r.findTpSlot frame.src with
      | none => .ok (r, .Partial)
      | some i => do
          let slot ← byteAt r.tpSlots i
          let (slot, out) ← slot.acceptChecked frame
          return ({ r with tpSlots := r.tpSlots.set i slot }, out)

/-- `push`, with every slice, index and shift checked. -/
def pushChecked (r : Reassembler) (frame : RawFrame) (packetType : FramePacketType) :
    Except Fault (Reassembler × Reassembled) :=
  if frame.pgn = PGN_ISO_TP_CM then r.handleTpCmChecked frame
  else if frame.pgn = PGN_ISO_TP_DT then r.handleTpDtChecked frame
  else if frame.data.length > 8 ∨ packetType ≠ .Fast then .ok (r, .PassThrough frame)
  else match frame.data with
    | [] => .ok (r, .Error .EmptyData)
    | header :: _ =>
        let seq := frameSeq header
        let selected := match r.findSlot frame.pgn frame.src seq with
          | some i => some (i, r)
          | none => r.claimSlot frame.pgn frame.src seq
        match selected with
        | none => .ok (r, .Error (.OutOfSlots frame.pgn frame.src))
        | some (i, r) => do
            let slot ← byteAt r.slots i
            let (slot, out) ← slot.acceptChecked frame
            return ({ r with slots := r.slots.set i slot }, out)

end Reassembler

/-! ## No check fails -/

theorem shiftOne_of_lt {w n : ℕ} (h : n < w) : shiftOne w n = .ok (BitVec.twoPow w n) := if_pos h

theorem copyInto_of_le {l chunk : List UInt8} {lo : ℕ} (h : lo + chunk.length ≤ l.length) :
    copyInto l lo chunk = .ok (overwrite l lo chunk) := if_pos h

theorem requiredFramesChecked_eq (size : ℕ) :
    requiredFramesChecked size = .ok (requiredFrames size) := by
  rw [requiredFramesChecked, requiredFrames]
  generalize min (1 + size / BUCKET_N_SIZE) (FASTPACKET_MAX_INDEX + 1) = n
  cases n with
  | zero => rfl
  | succ n =>
      change (if n + 1 ≥ 32 then _ else _) =
        Except.ok (if n + 1 ≥ 32 then BitVec.allOnes 32 else BitVec.twoPow 32 (n + 1) - 1#32)
      split_ifs with hfull
      · rfl
      · rw [shiftOne_of_lt (Nat.not_le.mp hfull)]
        rfl

theorem declaredChecked_eq (data : List UInt8) : declaredChecked data = .ok (declared data) := by
  rw [declaredChecked, requiredFramesChecked_eq]
  rfl

theorem overwrite_nil (l : List UInt8) (off : ℕ) : overwrite l off [] = l := by
  apply List.ext_getElem?
  intro i
  rw [getElem?_overwrite]
  cases l[i]? with
  | none => rfl
  | some x => simp

theorem take_drop_eq {l : List UInt8} (lo n : ℕ) : (l.take (lo + n)).drop lo = (l.drop lo).take n := by
  rw [List.drop_take, Nat.add_sub_cancel_left]

theorem copyChunk_eq {buffer : List UInt8} {dstOff : ℕ} {data : List UInt8} {srcOff n : ℕ}
    (hdst : 0 < n → dstOff + n ≤ buffer.length) (hsrc : 0 < n → srcOff + n ≤ data.length) :
    copyChunk buffer dstOff data srcOff n =
      .ok (overwrite buffer dstOff ((data.drop srcOff).take n)) := by
  rw [copyChunk]
  split_ifs with hpos
  · have hsrc := hsrc hpos
    have hchunk : ((data.drop srcOff).take n).length = n := by
      rw [List.length_take, List.length_drop]
      omega
    rw [slice_of_le (Nat.le_add_right _ _) hsrc, take_drop_eq]
    exact copyInto_of_le (by rw [hchunk]; exact hdst hpos)
  · rw [Nat.eq_zero_of_not_pos hpos, List.take_zero, overwrite_nil]

theorem storeBucketChecked_eq {buffer : List UInt8} (hbuffer : buffer.length = FASTPACKET_MAX_SIZE)
    (index : ℕ) (data : List UInt8) :
    storeBucketChecked buffer index data = .ok (storeBucket buffer index data) := by
  rw [storeBucketChecked, storeBucket]
  obtain ⟨dstOff, srcOff, bucketLen⟩ := bucket index
  dsimp only
  generalize hcopy : min (data.length - srcOff) (min (dstOff + bucketLen) FASTPACKET_MAX_SIZE - dstOff) =
    copyLen
  rw [copyChunk_eq (by omega) (by omega)]
  change (if copyLen < _ then fillOnes _ _ _ else _) = _
  split_ifs with hless
  · refine if_pos ⟨by omega, ?_⟩
    rw [length_overwrite, hbuffer]
    omega
  · have hnone : min (dstOff + bucketLen) FASTPACKET_MAX_SIZE - (dstOff + copyLen) = 0 := by omega
    rw [hnone, List.replicate_zero, overwrite_nil]

theorem slice_zero {α : Type} {l : List α} {n : ℕ} (h : n ≤ l.length) : slice l 0 n = .ok (l.take n) :=
  slice_of_le (Nat.zero_le n) h

theorem frameIndex_lt (header : UInt8) : frameIndex header < 32 := by
  rw [frameIndex, UInt8.toNat_and]
  exact Nat.lt_of_le_of_lt Nat.and_le_right (by decide)

theorem byteAt_zero {data : List UInt8} (h : data ≠ []) : byteAt data 0 = .ok (data.headD 0) := by
  cases data with
  | nil => exact absurd rfl h
  | cons b rest => rfl

theorem declaredByZero_eq (index : ℕ) (data : List UInt8) :
    declaredByZero index data = .ok (if index = 0 then some (declared data) else none) := by
  rw [declaredByZero, declaredChecked_eq]
  split_ifs
  · rfl
  · rfl

namespace Slot

variable {slot : Slot} {frame : RawFrame}

theorem gatherChecked_eq (hslot : slot.data.length = FASTPACKET_MAX_SIZE) (hdata : frame.data ≠ []) :
    slot.gatherChecked frame = .ok (slot.gather frame) := by
  rw [gatherChecked, byteAt_zero hdata]
  change (shiftOne 32 (frameIndex (frame.data.headD 0)) >>= _) = _
  rw [shiftOne_of_lt (frameIndex_lt _)]
  change (declaredByZero _ _ >>= _) = _
  rw [declaredByZero_eq]
  change (storeBucketChecked _ _ _ >>= _) = _
  rw [storeBucketChecked_eq hslot]
  rfl

theorem acceptChecked_eq (hslot : slot.data.length = FASTPACKET_MAX_SIZE)
    (hsize : (slot.gather frame).size ≤ FASTPACKET_MAX_SIZE) (hdata : frame.data ≠ []) :
    slot.acceptChecked frame = .ok (slot.accept frame) := by
  rw [acceptChecked, gatherChecked_eq hslot hdata, accept]
  change (if _ then _ else _) = _
  split_ifs with hcomplete
  · have hpayload : slice (slot.gather frame).data 0 (slot.gather frame).size =
        .ok ((slot.gather frame).data.take (slot.gather frame).size) := by
      apply slice_zero
      rw [gather_data_length, hslot]
      exact hsize
    rw [hpayload]
    rfl
  · rfl

end Slot

namespace TpSlot

variable {slot : TpSlot} {frame : RawFrame}

theorem gatherChecked_eq (hreceived : slot.received.length = 4)
    (hslot : slot.data.length = slot.totalSize) (hdata : frame.data ≠ [])
    (hsequence : frame.data.headD 0 ≠ 0) :
    slot.gatherChecked frame = .ok (slot.gather frame) := by
  have hpos : 1 ≤ (frame.data.headD 0).toNat :=
    Nat.pos_of_ne_zero fun h => hsequence (UInt8.toNat_inj.mp h)
  have hlt := (frame.data.headD 0).toNat_lt
  have hsub : (frame.data.headD 0 - 1).toNat = (frame.data.headD 0).toNat - 1 :=
    UInt8.toNat_sub_of_le _ _ (UInt8.le_iff_toNat_le.mpr hpos)
  have hchecked : checkedSub (frame.data.headD 0).toNat 1 = .ok (frame.data.headD 0 - 1).toNat := by
    rw [hsub]
    exact if_pos hpos
  rw [gatherChecked, gather, byteAt_zero hdata]
  change (checkedSub _ 1 >>= _) = _
  rw [hchecked]
  generalize hseq : (frame.data.headD 0 - 1).toNat = seq at hsub
  have hword : seq / 64 < slot.received.length := by omega
  change (byteAt _ (seq / 64) >>= _) = _
  rw [byteAt_of_lt hword]
  change (shiftOne 64 (seq % 64) >>= _) = _
  rw [shiftOne_of_lt (Nat.mod_lt _ (by decide))]
  change (copyChunk _ _ _ 1 _ >>= _) = _
  rw [copyChunk_eq (by omega) (by omega), List.modify_eq_set_getElem?, List.getElem?_eq_getElem hword]
  rfl

theorem allReceivedChecked_eq (hreceived : slot.received.length = 4) :
    slot.allReceivedChecked = .ok slot.allReceived := by
  have hlt := slot.packets.toNat_lt
  rw [allReceivedChecked, allReceived]
  generalize slot.packets.toNat = packets at hlt
  dsimp only
  rw [slice_zero (by omega)]
  change (if packets % 64 = 0 then _ else _) = _
  split_ifs with hwhole
  · rfl
  · have hword : packets / 64 < slot.received.length := by omega
    rw [shiftOne_of_lt (Nat.mod_lt _ (by decide))]
    change (byteAt _ _ >>= _) = _
    rw [byteAt_of_lt hword, List.getD_eq_getElem?_getD, List.getElem?_eq_getElem hword]
    rfl

theorem acceptChecked_eq (hreceived : slot.received.length = 4)
    (hslot : slot.data.length = slot.totalSize) (hdata : frame.data ≠ []) :
    slot.acceptChecked frame = .ok (slot.accept frame) := by
  obtain ⟨hgatheredReceived, hgatheredData, hgatheredSize⟩ := gather_sizes slot frame
  rw [acceptChecked, accept, byteAt_zero hdata]
  change (if _ then _ else _) = _
  split_ifs with hrange
  · rfl
  · rw [gatherChecked_eq hreceived hslot hdata fun h => hrange (Or.inl h)]
    change ((slot.gather frame).allReceivedChecked >>= _) = _
    rw [allReceivedChecked_eq (hgatheredReceived.trans hreceived)]
    change (if (slot.gather frame).allReceived = false then _ else _) =
      Except.ok (if (slot.gather frame).allReceived = false then _ else _)
    split_ifs
    · rfl
    · have hpayload : slice (slot.gather frame).data 0 (slot.gather frame).totalSize =
          .ok ((slot.gather frame).data.take (slot.gather frame).totalSize) := by
        apply slice_zero
        rw [hgatheredData, hgatheredSize, hslot]
      rw [hpayload]
      rfl

end TpSlot

namespace Reassembler

variable {r : Reassembler} {frame : RawFrame} {packetType : FramePacketType} {log : Log}

theorem tpDeclaredChecked_eq {data : List UInt8} (h : 8 ≤ data.length) :
    tpDeclaredChecked data = .ok (tpDeclared data) := by
  have hbyte : ∀ i < 8, byteAt data i = .ok (data.getD i 0) := by
    intro i hi
    rw [byteAt_of_lt (by omega), List.getD_eq_getElem?_getD, List.getElem?_eq_getElem (by omega)]
    rfl
  rw [tpDeclaredChecked, hbyte 1 (by decide), hbyte 2 (by decide), hbyte 3 (by decide),
    hbyte 5 (by decide), hbyte 6 (by decide), hbyte 7 (by decide)]
  rfl

/-- The slot that a session is in, or is to be in. -/
theorem claimTpSlot_lt {i : ℕ} {r' : Reassembler} {src : UInt8}
    (h : r.claimTpSlot src = some (i, r')) : i < r'.tpSlots.length := by
  rw [claimTpSlot] at h
  split at h
  next existing hfind =>
    rw [findTpSlot_eq] at hfind
    cases h
    rw [List.length_modify]
    exact View.find_lt hfind
  next =>
    obtain ⟨j, hvictim, heq⟩ := Option.map_eq_some_iff.mp h
    cases heq
    dsimp only
    rw [List.length_set]
    have hne : r.tpSlots ≠ [] := by
      rintro hnil
      rw [hnil] at hvictim
      cases hvictim
    obtain ⟨j', hj', hlt⟩ := View.victim_isSome (V := tpView) hne
    cases hvictim.symm.trans hj'
    exact hlt

theorem handleTpCmChecked_eq (r : Reassembler) (frame : RawFrame) :
    r.handleTpCmChecked frame = .ok (r.handleTpCm frame) := by
  rw [handleTpCmChecked, handleTpCm]
  cases frame.data with
  | nil => rfl
  | cons control rest =>
      dsimp only
      split_ifs with hopens hshort hempty
      · rfl
      · rw [tpDeclaredChecked_eq (Nat.not_lt.mp hshort)]
        exact if_pos hempty
      · rw [tpDeclaredChecked_eq (Nat.not_lt.mp hshort)]
        refine (if_neg hempty).trans ?_
        · cases hclaim : r.claimTpSlot frame.src with
          | none => rfl
          | some found =>
              obtain ⟨i, r'⟩ := found
              have hlt := claimTpSlot_lt hclaim
              dsimp only
              rw [byteAt_of_lt hlt, List.modify_eq_set_getElem?, List.getElem?_eq_getElem hlt]
              rfl
      · cases hfind : r.findTpSlot frame.src with
        | none => rfl
        | some i =>
            have hlt : i < r.tpSlots.length := View.find_lt ((findTpSlot_eq r frame.src).symm.trans hfind)
            dsimp only
            rw [byteAt_of_lt hlt, List.modify_eq_set_getElem?, List.getElem?_eq_getElem hlt]
            rfl
      · rfl

theorem handleTpDtChecked_eq (hw : r.WF) : r.handleTpDtChecked frame = .ok (r.handleTpDt frame) := by
  rw [handleTpDtChecked, handleTpDt]
  cases hdata : frame.data with
  | nil => rfl
  | cons b rest =>
      cases hfind : r.findTpSlot frame.src with
      | none => rfl
      | some i =>
          have hlt : i < r.tpSlots.length := View.find_lt ((findTpSlot_eq r frame.src).symm.trans hfind)
          have hmem : r.tpSlots[i] ∈ r.tpSlots := List.getElem_mem hlt
          have hdata' : frame.data ≠ [] := by
            rw [hdata]
            exact List.cons_ne_nil b rest
          dsimp only
          rw [byteAt_of_lt hlt, List.getD_eq_getElem?_getD, List.getElem?_eq_getElem hlt]
          change (TpSlot.acceptChecked _ _ >>= _) = _
          rw [TpSlot.acceptChecked_eq (hw.tp_received _ hmem) (hw.tp_data _ hmem) hdata']
          rfl

/-- A slot with what the invariants say of it. -/
theorem Keeps.gather_size (h : r.Keeps log) {k : FastId} (hk : fastKey frame packetType = some k) :
    ((r.target k).gather frame).size ≤ FASTPACKET_MAX_SIZE :=
  ((h.target k).gather (e := (frame, packetType)) hk).size

theorem pushChecked_eq (hw : r.WF) (h : r.Keeps log) :
    r.pushChecked frame packetType = .ok (r.push frame packetType) := by
  rw [pushChecked, push]
  split_ifs with hcm hdt hpass
  · exact handleTpCmChecked_eq r frame
  · exact handleTpDtChecked_eq hw
  · rfl
  · cases hdata : frame.data with
    | nil => rfl
    | cons header rest =>
        rw [not_or, not_lt, not_not] at hpass
        have hdata' : frame.data ≠ [] := by
          rw [hdata]
          exact List.cons_ne_nil header rest
        obtain ⟨k, hkey⟩ : ∃ k : FastId, k = (frame.pgn, frame.src, frameSeq header) := ⟨_, rfl⟩
        have hk : fastKey frame packetType = some k :=
          fastKey_eq_some.mpr ⟨hcm, hdt, hpass.1, hpass.2, header, rest, hdata, hkey⟩
        have hfind : r.findSlot frame.pgn frame.src (frameSeq header) = slotView.find k r.slots := by
          rw [hkey]
          exact findSlot_eq r (frame.pgn, frame.src, frameSeq header)
        have hclaim : r.claimSlot frame.pgn frame.src (frameSeq header) =
            (slotView.victim r.slots).map fun i =>
              (i, { r with
                nextAge := r.nextAge + 1, slots := r.slots.set i (.claimed k r.nextAge) }) := by
          rw [hkey]
          exact claimSlot_eq r (frame.pgn, frame.src, frameSeq header)
        have htarget := h.gather_size hk
        have hlength := target_data_length hw (k := k)
        dsimp only
        rw [hfind, hclaim]
        cases hslot : slotView.find k r.slots with
        | some i =>
            obtain ⟨t, ht, -, -, hlookup⟩ := View.lookup_of_find hslot
            have hheld : r.held k = some t := hlookup
            rw [target, hheld, Option.getD_some] at htarget hlength
            obtain ⟨hlt, rfl⟩ := List.getElem?_eq_some_iff.mp ht
            dsimp only
            rw [byteAt_of_lt hlt, List.getD_eq_getElem?_getD, List.getElem?_eq_getElem hlt]
            change (Slot.acceptChecked _ _ >>= _) = _
            rw [Slot.acceptChecked_eq hlength htarget hdata']
            rfl
        | none =>
            have hheld : r.held k = none := View.find_eq_none.mp hslot
            rw [target, hheld, Option.getD_none] at htarget hlength
            cases hvictim : slotView.victim r.slots with
            | none => rfl
            | some i =>
                have hne : r.slots ≠ [] := by
                  rintro hnil
                  rw [hnil] at hvictim
                  cases hvictim
                obtain ⟨j, hj, hlt⟩ := View.victim_isSome (V := slotView) hne
                cases hvictim.symm.trans hj
                have hset : i < (r.slots.set i (.claimed k r.nextAge)).length := by
                  rwa [List.length_set]
                rw [Option.map_some]
                dsimp only
                rw [byteAt_of_lt hset, List.getD_eq_getElem?_getD, List.getElem?_eq_getElem hset,
                  List.getElem_set_self]
                change (Slot.acceptChecked _ _ >>= _) = _
                rw [Slot.acceptChecked_eq hlength htarget hdata']
                rfl

/-! ## The results of a push -/

theorem push_no_slots (hw : r.WF) (pgn : UInt32) (src : UInt8) :
    (r.push frame packetType).2 ≠ .Error (.OutOfSlots pgn src) := by
  intro h
  by_cases htp : frame.pgn = PGN_ISO_TP_CM ∨ frame.pgn = PGN_ISO_TP_DT
  · have hstep : TpStep r frame (r.push frame packetType) := push_tpStep hw htp
    generalize r.push frame packetType = res at hstep h
    cases hstep with
    | opens i t ho hi hsel => cases h
    | aborts i t hp hc hi hs => cases h
    | chunk i t hp hd hi hs =>
        rcases TpSlot.accept_cases t frame with ⟨hacc, -⟩ | ⟨-, ⟨hacc, -⟩ | ⟨hacc, -⟩⟩
        all_goals
          rw [hacc] at h
          cases h
    | idle ho hd =>
        dsimp only at h
        split_ifs at h
        cases h
  · rw [not_or] at htp
    cases hkey : fastKey frame packetType with
    | some k =>
        obtain ⟨i, t, -, -, hpush⟩ := push_fast hw hkey
        rw [hpush] at h
        rcases Slot.accept_cases ((r.held k).getD (.claimed k r.nextAge)) frame with
          ⟨hacc, -⟩ | ⟨hacc, -⟩
        all_goals
          rw [hacc] at h
          cases h
    | none =>
        -- neither table: what is left is a frame passed through, or an empty one
        rw [push, if_neg htp.1, if_neg htp.2] at h
        split_ifs at h with hpass
        cases hdata : frame.data with
        | nil =>
            rw [hdata] at h
            cases h
        | cons header rest =>
            rw [not_or, not_lt, not_not] at hpass
            have hsome := fastKey_eq_some.mpr
              ⟨htp.1, htp.2, hpass.1, hpass.2, header, rest, hdata, rfl⟩
            rw [hkey] at hsome
            cases hsome

theorem push_of_passThrough (hw : r.WF) {f : RawFrame}
    (h : (r.push frame packetType).2 = .PassThrough f) : (r.push frame packetType).1 = r := by
  by_cases htp : frame.pgn = PGN_ISO_TP_CM ∨ frame.pgn = PGN_ISO_TP_DT
  · have hstep : TpStep r frame (r.push frame packetType) := push_tpStep hw htp
    generalize r.push frame packetType = res at hstep h
    cases hstep with
    | opens i t ho hi hsel => cases h
    | aborts i t hp hc hi hs => cases h
    | chunk i t hp hd hi hs =>
        rcases TpSlot.accept_cases t frame with ⟨hacc, -⟩ | ⟨-, ⟨hacc, -⟩ | ⟨hacc, -⟩⟩
        all_goals
          rw [hacc] at h
          cases h
    | idle ho hd => rfl
  · rw [not_or] at htp
    cases hkey : fastKey frame packetType with
    | none => exact push_idle hkey htp.1 htp.2
    | some k =>
        obtain ⟨i, t, -, -, hpush⟩ := push_fast hw hkey
        rw [hpush] at h
        rcases Slot.accept_cases ((r.held k).getD (.claimed k r.nextAge)) frame with
          ⟨hacc, -⟩ | ⟨hacc, -⟩
        all_goals
          rw [hacc] at h
          cases h

/-- What holds of the tables after the pushes. -/
structure TableInvariant (r : Reassembler) (log : Log) : Prop where
  unique : ∀ (i j : ℕ) (s t : Slot), r.slots[i]? = some s → r.slots[j]? = some t →
    s.used = true → t.used = true → (s.pgn, s.src, s.seq) = (t.pgn, t.src, t.seq) → i = j
  tpUnique : ∀ (i j : ℕ) (s t : TpSlot), r.tpSlots[i]? = some s → r.tpSlots[j]? = some t →
    s.used = true → t.used = true → s.src = t.src → i = j
  size : ∀ s ∈ r.slots, s.used = true → s.size ≤ 223
  mask : ∀ s ∈ r.slots, s.used = true →
    s.allFrames = 0#32 ∨ s.allFrames.toNat = 2 ^ (1 + s.size / 7) - 1
  declared : ∀ s ∈ r.slots, s.used = true → s.frames.getLsbD 0 = true →
    ∃ f, latestZero (s.pgn, s.src, s.seq) log = some f ∧
      (s.size, s.allFrames) = Canboat.declared f.data

theorem tableInvariant_pushAll (log : Log) : TableInvariant (new.pushAll log).1 log := by
  have hw := pushAll_wf new_wf log
  have hkept : ∀ s ∈ (new.pushAll log).1.slots, s.used = true →
      s.Kept log (s.pgn, s.src, s.seq) := by
    intro s hs hused
    exact keeps_pushAll log _ s ((View.lookup_eq_some hw.slots_unique).mpr ⟨hs, hused, rfl⟩)
  exact ⟨fun i j s t hi hj hs ht hkey => hw.slots_unique i j s t hi hj hs ht hkey,
    fun i j s t hi hj hs ht hkey => hw.tp_unique i j s t hi hj hs ht hkey,
    fun s hs hused => (hkept s hs hused).size,
    fun s hs hused => (hkept s hs hused).mask,
    fun s hs hused => (hkept s hs hused).declared⟩

/-- **The tables of the reassembler.** Whatever was pushed before: the slots in use are under
different keys and go by the latest frame 0, and the next push fails no check, finds a slot, and
leaves the tables alone where it passes the frame through. -/
theorem table_invariant (log : Log) (frame : RawFrame) (packetType : FramePacketType) :
    TableInvariant (new.pushAll log).1 log ∧
    (new.pushAll log).1.pushChecked frame packetType =
      .ok ((new.pushAll log).1.push frame packetType) ∧
    (∀ pgn src, ((new.pushAll log).1.push frame packetType).2 ≠ .Error (.OutOfSlots pgn src)) ∧
    ∀ f, ((new.pushAll log).1.push frame packetType).2 = .PassThrough f →
      ((new.pushAll log).1.push frame packetType).1 = (new.pushAll log).1 := by
  have hw := pushAll_wf new_wf log
  refine ⟨tableInvariant_pushAll log, pushChecked_eq hw (keeps_pushAll log), push_no_slots hw, ?_⟩
  intro f h
  exact push_of_passThrough hw h

end Reassembler

end Canboat
