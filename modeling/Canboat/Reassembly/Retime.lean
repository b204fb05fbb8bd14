import Canboat.Reassembly.Model
import Mathlib.Data.List.GetD

/-!
# Timestamps through the reassembler

No push looks at a timestamp: with every timestamp rewritten, the frames that come back are the
same ones, rewritten.
-/

namespace Canboat

open SlotTable

def RawFrame.retimed (q : String → String) (f : RawFrame) : RawFrame :=
  { f with timestamp := f.timestamp.map q }

def TpSlot.retimed (q : String → String) (t : TpSlot) : TpSlot :=
  { t with timestamp := t.timestamp.map q }

def Reassembled.retimed (q : String → String) : Reassembled → Reassembled
  | .PassThrough f => .PassThrough (f.retimed q)
  | .Complete f => .Complete (f.retimed q)
  | .Partial => .Partial
  | .Error e => .Error e

def Reassembler.retimed (q : String → String) (r : Reassembler) : Reassembler :=
  { r with tpSlots := r.tpSlots.map (TpSlot.retimed q) }

variable (q : String → String)

theorem Slot.accept_retimed (s : Slot) (f : RawFrame) :
    s.accept (f.retimed q) = ((s.accept f).1, (s.accept f).2.retimed q) := by
  have hgather : s.gather (f.retimed q) = s.gather f := rfl
  rw [Slot.accept, Slot.accept, hgather]
  split_ifs
  · rfl
  · rfl

theorem TpSlot.accept_retimed (t : TpSlot) (f : RawFrame) :
    (t.retimed q).accept (f.retimed q) =
      ((t.accept f).1.retimed q, (t.accept f).2.retimed q) := by
  have hgather : (t.retimed q).gather (f.retimed q) = (t.gather f).retimed q := rfl
  have hall : ((t.gather f).retimed q).allReceived = (t.gather f).allReceived := rfl
  have hpackets : (t.retimed q).packets = t.packets := rfl
  have hdata : (f.retimed q).data = f.data := rfl
  rw [TpSlot.accept, TpSlot.accept, hdata, hpackets, hgather]
  dsimp only
  rw [hall]
  split_ifs
  · rfl
  · rfl
  · rfl

namespace Reassembler

variable (r : Reassembler)

theorem findTpSlot_retimed (src : UInt8) : (r.retimed q).findTpSlot src = r.findTpSlot src := by
  rw [findTpSlot, findTpSlot, retimed, List.findIdx?_map]
  rfl

theorem modify_retimed (l : List TpSlot) (i : ℕ) (g h : TpSlot → TpSlot)
    (hg : ∀ t, g (t.retimed q) = (h t).retimed q) :
    (l.map (TpSlot.retimed q)).modify i g = (l.modify i h).map (TpSlot.retimed q) := by
  apply List.ext_getElem?
  intro j
  rw [List.getElem?_modify, List.getElem?_map, List.getElem?_map, List.getElem?_modify]
  cases l[j]? with
  | none => rfl
  | some t =>
      show some _ = some _
      split_ifs
      · exact congrArg some (hg t)
      · rfl

theorem claimTpSlot_retimed (src : UInt8) :
    (r.retimed q).claimTpSlot src = (r.claimTpSlot src).map fun c => (c.1, c.2.retimed q) := by
  rw [claimTpSlot, claimTpSlot, findTpSlot_retimed]
  cases r.findTpSlot src with
  | some i =>
      have hset := modify_retimed q r.tpSlots i
        (fun s => { s with src, age := r.tpNextAge + 1, used := true })
        (fun s => { s with src, age := r.tpNextAge + 1, used := true }) fun _ => rfl
      dsimp only [retimed, Option.map_some]
      rw [hset]
  | none =>
      have hvictim : tpView.victim (r.retimed q).tpSlots = tpView.victim r.tpSlots :=
        View.victim_map (g := TpSlot.retimed q) (fun _ => rfl) (fun _ => rfl) r.tpSlots
      dsimp only
      rw [hvictim, Option.map_map]
      refine congrArg (fun g => Option.map g _) (funext fun i => ?_)
      dsimp only [Function.comp_apply, retimed]
      rw [List.map_set]
      rfl

/-- What a TP.CM frame makes of the slot that its session gets. -/
def opened (f : RawFrame) (data : List UInt8) (s : TpSlot) : TpSlot :=
  let (totalSize, packets, targetPgn) := tpDeclared data
  { s with
    dst := f.dst
    prio := f.prio
    targetPgn, totalSize, packets
    received := List.replicate 4 0#64
    timestamp := f.timestamp
    data := List.replicate totalSize 0xff }

theorem handleTpCm_retimed (f : RawFrame) :
    (r.retimed q).handleTpCm (f.retimed q) =
      ((r.handleTpCm f).1.retimed q, (r.handleTpCm f).2.retimed q) := by
  have hdata : (f.retimed q).data = f.data := rfl
  rw [handleTpCm, handleTpCm, hdata]
  cases f.data with
  | nil => rfl
  | cons control rest =>
      dsimp only
      split_ifs with hopen hshort hdeclared habort
      · rfl
      · rfl
      · have hsrc : (f.retimed q).src = f.src := rfl
        rw [hsrc, claimTpSlot_retimed]
        cases r.claimTpSlot f.src with
        | none => rfl
        | some c =>
            have hset := modify_retimed q c.2.tpSlots c.1 (opened (f.retimed q) (control :: rest))
              (opened f (control :: rest)) fun _ => rfl
            dsimp only [retimed, Option.map_some]
            exact congrArg (fun l => ({ c.2 with tpSlots := l }, Reassembled.Partial)) hset
      · have hsrc : (f.retimed q).src = f.src := rfl
        rw [hsrc, findTpSlot_retimed]
        cases r.findTpSlot f.src with
        | none => rfl
        | some i =>
            have hset := modify_retimed q r.tpSlots i (fun s => { s with used := false })
              (fun s => { s with used := false }) fun _ => rfl
            exact congrArg (fun l => ({ r with tpSlots := l }, Reassembled.Partial)) hset
      · rfl

theorem handleTpDt_retimed (f : RawFrame) :
    (r.retimed q).handleTpDt (f.retimed q) =
      ((r.handleTpDt f).1.retimed q, (r.handleTpDt f).2.retimed q) := by
  have hdata : (f.retimed q).data = f.data := rfl
  have hsrc : (f.retimed q).src = f.src := rfl
  rw [handleTpDt, handleTpDt, hdata, hsrc, findTpSlot_retimed]
  cases f.data with
  | nil => rfl
  | cons _ _ =>
      dsimp only
      cases r.findTpSlot f.src with
      | none => rfl
      | some i =>
          have hslot : (r.retimed q).tpSlots.getD i {} = (r.tpSlots.getD i {}).retimed q :=
            List.getD_map r.tpSlots {} (TpSlot.retimed q)
          dsimp only
          rw [hslot, TpSlot.accept_retimed]
          dsimp only [retimed]
          rw [List.map_set]

/-- A push of the same frame under another timestamp. -/
theorem push_retimed (f : RawFrame) (t : FramePacketType) :
    (r.retimed q).push (f.retimed q) t =
      ((r.push f t).1.retimed q, (r.push f t).2.retimed q) := by
  have hpgn : (f.retimed q).pgn = f.pgn := rfl
  have hdata : (f.retimed q).data = f.data := rfl
  rw [push, push, hpgn, hdata]
  split_ifs
  · exact handleTpCm_retimed q r f
  · exact handleTpDt_retimed q r f
  · rfl
  · cases f.data with
    | nil => rfl
    | cons header rest =>
        dsimp only
        have hsrc : (f.retimed q).src = f.src := rfl
        have hfind : (r.retimed q).findSlot f.pgn f.src (frameSeq header) =
            r.findSlot f.pgn f.src (frameSeq header) := rfl
        have hclaim : (r.retimed q).claimSlot f.pgn f.src (frameSeq header) =
            (r.claimSlot f.pgn f.src (frameSeq header)).map fun c => (c.1, c.2.retimed q) := by
          rw [claimSlot, claimSlot, Option.map_map]
          rfl
        rw [hsrc, hfind, hclaim]
        cases r.findSlot f.pgn f.src (frameSeq header) with
        | some i =>
            dsimp only [retimed]
            rw [Slot.accept_retimed]
        | none =>
            dsimp only
            cases r.claimSlot f.pgn f.src (frameSeq header) with
            | none => rfl
            | some c =>
                dsimp only [Option.map_some, retimed]
                rw [Slot.accept_retimed]

theorem pushAll_retimed (log : Log) :
    ((r.retimed q).pushAll (log.map fun e => (e.1.retimed q, e.2))).2 =
      (r.pushAll log).2.map (Reassembled.retimed q) := by
  induction log generalizing r with
  | nil => rfl
  | cons e log ih =>
      obtain ⟨f, t⟩ := e
      rw [List.map_cons, pushAll, pushAll, push_retimed]
      dsimp only
      rw [ih, List.map_cons]

theorem new_retimed : new.retimed q = new := rfl

end Reassembler

end Canboat
