import Canboat.Build.DispatchReference
import Canboat.Decode.Field
import Canboat.Frame

/-!
# Decoding a frame

The walk over the fields of a definition, with its repeating sets, and the choice of the
definition by the generated dispatch.
-/

namespace Canboat

variable {F : Type} [Float64 F]

/-- What a walk has decoded so far. -/
structure Walk (F : Type) where
  cursorBits : UInt32
  out : List (DecodedField F)
  ctx : DecodeContext F

/-- What a walk reads from. -/
structure Source (F : Type) where
  claim : List UInt8 → List (DecodedField F)
  info : PgnInfo F
  data : List UInt8
  db : PgnDatabase F

namespace Source

variable (s : Source F)

/-- As a `u32`, at most its largest. -/
def payloadBits : UInt32 := UInt32.ofNat (min (s.data.length * 8) 4294967295)

/-- One iteration of a set. Offsets of the definition hold for the first iteration only. The
flag tells whether the iteration has decoded any field. -/
def decodeSet (setNumber : UInt8) (countWasZero : Bool) (iter : UInt32) :
    List (FieldInfo F) → Bool → Walk F → Bool × Walk F
  | [], produced, w => (produced, w)
  | sf :: set, produced, w =>
      if sf.condition.isSome then decodeSet setNumber countWasZero iter set produced w
      else
        let off := if iter = 0 then sf.bitOffset.getD w.cursorBits else w.cursorBits
        match decodeOneFieldAt s.claim sf s.info s.data s.db off w.ctx with
        | some (d, bits, ctx) =>
            -- a forced iteration for a count of zero labels its first field only
            let repeatIndex := if countWasZero && produced then none else some iter
            decodeSet setNumber countWasZero iter set true
              { cursorBits := off + bits
                out := w.out ++ [{ d with repeatSet := setNumber, repeatIndex }]
                ctx }
        | none =>
            match sf.bitLength with
            | some bl =>
                decodeSet setNumber countWasZero iter set produced { w with cursorBits := off + bl }
            | none => decodeSet setNumber countWasZero iter set produced w

/-- At most so many iterations, until the payload runs out. -/
def decodeIterations (setNumber : UInt8) (countWasZero : Bool) (set : List (FieldInfo F)) :
    ℕ → UInt32 → Walk F → Walk F
  | 0, _, w => w
  | n + 1, iter, w =>
      if w.cursorBits ≥ s.payloadBits then w
      else
        let (produced, w') := s.decodeSet setNumber countWasZero iter set false w
        if produced then decodeIterations setNumber countWasZero set n (iter + 1) w'
        else { w' with cursorBits := w.cursorBits }

/-- The number in a count field that is already decoded. -/
def rawCount (countField : Option UInt32) (out : List (DecodedField F)) : Option UInt32 :=
  (countField.bind fun cf => out.find? (·.order.toUInt32 = cf)).bind fun d =>
    match d.value with
    | .integer n => if 0 ≤ n then some n.toUInt64.toUInt32 else none
    | .number v => if Float64.le (Float64.ofInt 0) v then some (Float64.toU32 v) else none
    | _ => none

/-- A repeating set; a count of zero makes one iteration, and no count as many as fit. -/
def decodeRepeating (set : List (FieldInfo F)) (countField : Option UInt32) (setNumber : UInt8)
    (w : Walk F) : Walk F :=
  let count := rawCount countField w.out
  let maxIters := (count.map fun n => max n.toNat 1).getD 4294967295
  match set with
  | [] => w
  | first :: _ =>
      s.decodeIterations setNumber (count = some 0) set maxIters 0
        { w with cursorBits := first.bitOffset.getD w.cursorBits }

/-- The set's size, where the field is its first. -/
def startOf (set : RepeatingFieldSet) (f : FieldInfo F) : Option UInt32 :=
  if set.startField = some f.order.toUInt32 then set.size else none

/-- The start of a set is within the payload. -/
def reached (f : FieldInfo F) (w : Walk F) : Bool :=
  (f.bitOffset.getD w.cursorBits).toNat < s.data.length * 8

/-- The walk over the fields, but for as many as a set before them has taken. -/
def walk : ℕ → List (FieldInfo F) → Bool × Bool → Walk F → Walk F × (Bool × Bool)
  | _, [], entered, w => (w, entered)
  | skip + 1, _ :: fields, entered, w => walk skip fields entered w
  | 0, f :: fields, entered, w =>
      match startOf s.info.repeatingFieldSet1 f, startOf s.info.repeatingFieldSet2 f with
      | some size, _ =>
          walk (size.toNat - 1) fields (entered.1 || s.reached f w, entered.2)
            (s.decodeRepeating ((f :: fields).take size.toNat)
              s.info.repeatingFieldSet1.countField 1 w)
      | none, some size =>
          walk (size.toNat - 1) fields (entered.1, entered.2 || s.reached f w)
            (s.decodeRepeating ((f :: fields).take size.toNat)
              s.info.repeatingFieldSet2.countField 2 w)
      | none, none =>
          if f.condition.isSome then walk 0 fields entered w
          else
            let effectiveOffset := f.bitOffset.getD w.cursorBits
            match decodeOneFieldAt s.claim f s.info s.data s.db effectiveOffset w.ctx with
            | some (d, bits, ctx) =>
                walk 0 fields entered
                  { cursorBits := effectiveOffset + bits, out := w.out ++ [d], ctx }
            | none => walk 0 fields entered w

/-- All fields, and the sets whose start was reached. -/
def decode : List (DecodedField F) × (Bool × Bool) :=
  let (w, entered) := s.walk 0 s.info.fields (false, false) ⟨0, [], .empty⟩
  (w.out, entered)

end Source

/-- An address claim's fields; it holds no ISO NAME. -/
def claimFields (db : PgnDatabase F) (sub : List UInt8) : List (DecodedField F) :=
  match db.firstPgn 60928 with
  | some info => (Source.decode ⟨fun _ => [], info, sub, db⟩).1
  | none => []

def decodeFields (info : PgnInfo F) (data : List UInt8) (db : PgnDatabase F) :
    List (DecodedField F) × (Bool × Bool) :=
  Source.decode ⟨claimFields db, info, data, db⟩

/-! ## The index by order -/

def indexSlots : ℕ := 32

def noPosition : Int8 := -128

/-- Put the positions of the fields outside the sets in their slots; a later one of the same
order replaces an earlier one. -/
def buildIndexFrom : ℕ → List (DecodedField F) → List Int8 → List Int8
  | _, [], idx => idx
  | pos, f :: fields, idx =>
      if f.repeatSet = 0 ∧ f.order ≠ 0 ∧ f.order.toNat - 1 < indexSlots ∧ pos < 127 then
        buildIndexFrom (pos + 1) fields (idx.set (f.order.toNat - 1) (Int8.ofNat pos))
      else buildIndexFrom (pos + 1) fields idx

def buildIndexByOrder (fields : List (DecodedField F)) : List Int8 :=
  buildIndexFrom 0 fields (List.replicate indexSlots noPosition)

/-! ## Frames -/

inductive DecodeError
  | unknownPgn (pgn : UInt32)
deriving DecidableEq, Repr

/-- A definition as the build script reads it. -/
def PgnInfo.raw (p : PgnInfo F) : Build.RawPgn where
  pgn := p.pgn
  fallback := p.fallback
  fields := p.fields.map fun f =>
    { bitOffset := f.bitOffset.map (·.toNat), bitLength := f.bitLength.map (·.toNat),
      signed := f.signed, offset := f.offset, matchValue := f.matchValue }

namespace PgnDatabase

variable (db : PgnDatabase F)

/-- By the dispatch generated from the definitions. -/
def pickVariant (frame : RawFrame) : Option (PgnInfo F) :=
  (((Build.generate (db.pgns.map PgnInfo.raw)).bind fun g =>
    g.pickVariant frame.pgn frame.data).join).bind fun idx => db.pgns[idx]?

/-- The catch-all definition for a PGN without one of its own. -/
def fallbackPgn (pgn : UInt32) : Option (PgnInfo F) :=
  ((Build.generate (db.pgns.map PgnInfo.raw)).bind fun g => g.findCatchall pgn).bind fun idx =>
    db.pgns[idx]?

def decode (frame : RawFrame) : Except DecodeError (DecodedPgn F) :=
  match db.pickVariant frame with
  | none => .error (.unknownPgn frame.pgn)
  | some info =>
      let (fields, hasRepeatingSet) := decodeFields info frame.data db
      .ok
        { timestamp := frame.timestamp, prio := frame.prio, pgn := frame.pgn, src := frame.src,
          dst := frame.dst, description := info.description, id := info.id,
          idIsPinned := info.idIsPinned, data := frame.data, fields, hasRepeatingSet,
          indexByOrder := buildIndexByOrder fields }

end PgnDatabase

/-! ## Numbers with one definition -/

omit [Float64 F] in
open Build in
/-- The only definition of a PGN number, at its position. -/
theorem variantsOf_single {pgns : List (PgnInfo F)} {pgn : UInt32} {p : PgnInfo F}
    (hsingle : pgns.filter (·.pgn = pgn) = [p]) :
    ∃ i, variantsOf (pgns.map PgnInfo.raw) pgn = [(p.raw, i)] ∧ pgns[i]? = some p := by
  have hfst : (variantsOf (pgns.map PgnInfo.raw) pgn).map (·.1) = [p.raw] := by
    have hzip := List.zipIdx_map_fst 0 (pgns.map PgnInfo.raw)
    calc (variantsOf (pgns.map PgnInfo.raw) pgn).map (·.1)
        = ((pgns.map PgnInfo.raw).zipIdx.map Prod.fst).filter (·.pgn == pgn) := by
          rw [List.filter_map]
          rfl
      _ = (pgns.filter (·.pgn = pgn)).map PgnInfo.raw := by
          rw [hzip, List.filter_map]
          congr 1
      _ = [p.raw] := by rw [hsingle, List.map_singleton]
  obtain ⟨v, hv, hraw⟩ := List.map_eq_singleton_iff.mp hfst
  refine ⟨v.2, by rw [hv, ← hraw], ?_⟩
  have hmem : v ∈ variantsOf (pgns.map PgnInfo.raw) pgn := by
    rw [hv]
    exact List.mem_singleton_self v
  have hget := List.mem_zipIdx_iff_getElem?.mp (List.mem_of_mem_filter hmem)
  rw [List.getElem?_map] at hget
  obtain ⟨q, hq, hqraw⟩ := Option.map_eq_some_iff.mp hget
  have hqmem : q ∈ pgns.filter (·.pgn = pgn) := by
    refine List.mem_filter.mpr ⟨List.mem_of_getElem? hq, decide_eq_true ?_⟩
    have hpgn : q.raw.pgn = pgn := by
      rw [hqraw]
      exact beq_iff_eq.mp (List.mem_filter.mp hmem).2
    exact hpgn
  rw [hsingle, List.mem_singleton] at hqmem
  rw [hq, hqmem]

omit [Float64 F] in
open Build in
/-- Frames of a PGN with one definition, without Match fields, are of that definition. -/
theorem PgnDatabase.pickVariant_of_single (db : PgnDatabase F) {p : PgnInfo F}
    (hbuilt : (generate (db.pgns.map PgnInfo.raw)).isSome) {frame : RawFrame}
    (hsingle : db.pgnVariants frame.pgn = [p]) (hmatch : p.raw.matchFields.isEmpty = true) :
    db.pickVariant frame = some p := by
  obtain ⟨g, hg⟩ := Option.isSome_iff_exists.mp hbuilt
  obtain ⟨i, hvariants, hget⟩ := variantsOf_single hsingle
  have hdispatch := dispatch_eq hg frame.pgn frame.data
  rw [hvariants, matchOf_cons, specificOf_cons, catchallOf_cons, selected_of_matchFields hmatch,
    hmatch, if_neg Bool.false_ne_true] at hdispatch
  have hpick : g.pickVariant frame.pgn frame.data = some (some i) := by
    rw [Generated.pickVariant, hdispatch]
    cases p.raw.isFallback <;> rfl
  rw [PgnDatabase.pickVariant, hg, Option.bind_some, hpick]
  exact hget

end Canboat
