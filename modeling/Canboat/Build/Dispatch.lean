import Canboat.Core.Bits
import Canboat.Lib.PartitionPoint
import Mathlib.Data.List.Dedup
import Std.Data.String.ToNat
import Std.Data.TreeMap.Lemmas

/-!
# Generated variant dispatch

The build script turns the PGN definitions into Rust: one function per PGN number
that has something to decide, a top-level `dispatch`, and the fallback table
with its `find_catchall`. The generator is a function from definitions to the
generated program; the program has its own evaluation, in which a name that no
`let` binds is a program that does not compile.
-/

namespace Canboat.Build

structure RawField where
  bitOffset : Option ℕ
  bitLength : Option ℕ
  signed : Option Bool
  offset : Option Int64
  matchValue : Option Int64
deriving DecidableEq, Repr

structure RawPgn where
  pgn : UInt32
  fallback : Option Bool
  fields : List RawField
deriving DecidableEq, Repr

/-- A definition and its index in the generated tables. -/
abbrev VariantEntry := RawPgn × ℕ

/-- What one `extract_bits` call of the generated code reads. -/
structure Range where
  off : ℕ
  len : ℕ
  signed : Bool
  offK : Int64
deriving DecidableEq, Repr

/-! ## The generated program -/

inductive Operand
  | lit
  | eqSome (name : String) (value : Int64)
deriving DecidableEq, Repr

inductive Token
  | andAnd
  | operand (o : Operand)
deriving DecidableEq, Repr

/-- `let name = extract_bits(payload, ..).map(|e| e.value);` -/
structure Let where
  name : String
  range : Range
deriving DecidableEq, Repr

/-- `if cond { return Some(idx); }`, or `if cond {}` without an index. -/
structure Arm where
  cond : List Token
  idx : Option ℕ
deriving DecidableEq, Repr

structure DispatchFn where
  lets : List Let
  arms : List Arm
  result : Option ℕ
deriving DecidableEq, Repr

/-- `n => dispatch_n(payload)`, or `n => Some(idx)`. -/
inductive TopArm
  | call
  | direct (idx : ℕ)
deriving DecidableEq, Repr

structure Generated where
  functions : List (UInt32 × DispatchFn)
  arms : List (UInt32 × TopArm)
  FALLBACKS : List (UInt32 × ℕ)
deriving DecidableEq, Repr

/-! ## Its evaluation -/

abbrev Env := List (String × Option Int64)

def Range.extract (r : Range) (payload : List UInt8) : Option Int64 :=
  (extractBits payload r.off r.len r.signed r.offK).map (·.value)

/-- A later binding of a name hides an earlier one. -/
def Env.bind (payload : List UInt8) (env : Env) (l : Let) : Env :=
  (l.name, l.range.extract payload) :: env

def Operand.eval (env : Env) : Operand → Option Bool
  | .lit => some false
  | .eqSome name value => (env.lookup name).map (· == some value)

def evalCondition (env : Env) : List Token → Option Bool
  | [.operand o] => o.eval env
  | .operand o :: .andAnd :: rest =>
      match o.eval env, evalCondition env rest with
      | some a, some b => some (a && b)
      | _, _ => none
  | _ => none

def runArms (env : Env) : List Arm → Option ℕ → Option (Option ℕ)
  | [], result => some result
  | a :: arms, result =>
      match evalCondition env a.cond, runArms env arms result with
      | some c, some rest => some (if c then a.idx.or rest else rest)
      | _, _ => none

def DispatchFn.run (f : DispatchFn) (payload : List UInt8) : Option (Option ℕ) :=
  runArms (f.lets.foldl (Env.bind payload) []) f.arms f.result

def Generated.dispatch (g : Generated) (pgn : UInt32) (payload : List UInt8) :
    Option (Option ℕ) :=
  match g.arms.lookup pgn with
  | none => some none
  | some (.direct idx) => some (some idx)
  | some .call => (g.functions.lookup pgn).bind (·.run payload)

def Generated.findCatchall (g : Generated) (pgn : UInt32) : Option ℕ :=
  let i := BinarySearch.partitionPoint (fun e => decide (e.1 ≤ pgn)) g.FALLBACKS
  if i = 0 then none else g.FALLBACKS[i - 1]?.map (·.2)

/-- The index `pick_variant` looks up. -/
def Generated.pickVariant (g : Generated) (pgn : UInt32) (payload : List UInt8) :
    Option (Option ℕ) :=
  (g.dispatch pgn payload).map fun idx => idx.or (g.findCatchall pgn)

/-! ## The generator -/

def RawField.range? (f : RawField) : Option Range :=
  match f.bitOffset, f.bitLength with
  | some off, some len => some ⟨off, len, f.signed.getD false, f.offset.getD 0⟩
  | _, _ => none

def RawPgn.matchFields (p : RawPgn) : List RawField :=
  p.fields.filter (·.matchValue.isSome)

def RawPgn.isFallback (p : RawPgn) : Bool :=
  p.fallback == some true

/-- The offset in a variable name. -/
def offsetName (offK : Int64) : Option String :=
  if offK < 0 then
    -- negating the smallest value overflows in the build script
    if offK = Int64.minValue then none else some ("n" ++ (-offK.toInt).toNat.repr)
  else some offK.toInt.toNat.repr

def Range.varName (r : Range) : Option String :=
  (offsetName r.offK).map fun k =>
    "m_" ++ (r.off.repr ++ ("_" ++ (r.len.repr ++ ("_" ++ ((if r.signed then "s" else "u") ++
      ("_" ++ k))))))

/-- The order of the set of ranges: by offset, length, sign and value offset. -/
def Range.le (a b : Range) : Bool :=
  a.off < b.off || (a.off == b.off && (a.len < b.len || (a.len == b.len &&
    (a.signed < b.signed || (a.signed == b.signed && a.offK ≤ b.offK)))))

def ranges (variants : List VariantEntry) : List Range :=
  (variants.flatMap fun v => v.1.matchFields.filterMap (·.range?)).dedup.mergeSort Range.le

def emitLet (r : Range) : Option Let :=
  r.varName.map fun name => ⟨name, r⟩

def emitLets : List Range → Option (List Let)
  | [] => some []
  | r :: rs =>
      match emitLet r, emitLets rs with
      | some l, some ls => some (l :: ls)
      | _, _ => none

def emitOperand (f : RawField) : Option Operand :=
  match f.range? with
  | none => some .lit
  | some r => r.varName.bind fun name => f.matchValue.map fun v => .eqSome name v

/-- The loop over the Match fields of one variant: the tokens written, and whether any
were. -/
def emitConditions : Bool → Bool → List RawField → Option (List Token × Bool)
  | _, emittedAnything, [] => some ([], emittedAnything)
  | first, _, f :: fs =>
      match emitOperand f, emitConditions false true fs with
      | some o, some (tokens, emitted) =>
          some ((if first then [] else [.andAnd]) ++ .operand o :: tokens, emitted)
      | _, _ => none

/-- The loop over the variants: the arms, and what the function returns after them. -/
def emitVariants : List VariantEntry → Option ℕ → Option ℕ → Option (List Arm × Option ℕ)
  | [], specificNoMatch, catchallNoMatch => some ([], specificNoMatch.or catchallNoMatch)
  | (p, idx) :: vs, specificNoMatch, catchallNoMatch =>
      if p.matchFields.isEmpty then
        if p.isFallback then emitVariants vs specificNoMatch (catchallNoMatch.or (some idx))
        else emitVariants vs (specificNoMatch.or (some idx)) catchallNoMatch
      else
        match emitConditions true false p.matchFields,
          emitVariants vs specificNoMatch catchallNoMatch with
        | some (cond, emittedAnything), some (arms, result) =>
            if emittedAnything then some (⟨cond, some idx⟩ :: arms, result)
            else some (⟨cond ++ [.operand .lit], none⟩ :: arms, result)
        | _, _ => none

def emitPerPgnDispatch (variants : List VariantEntry) : Option DispatchFn :=
  match emitLets (ranges variants), emitVariants variants none none with
  | some lets, some (arms, result) => some { lets, arms, result }
  | _, _ => none

/-- More than one variant, or a single one with Match fields. -/
def needsDispatchFn (variants : List VariantEntry) : Bool :=
  decide (1 < variants.length) || (variants.head?.map fun v => !v.1.matchFields.isEmpty).getD false

/-- Indices of the definitions, from position `i` on, by PGN number. -/
def pgnIndexFrom : ℕ → Std.TreeMap UInt32 (List ℕ) → List RawPgn → Std.TreeMap UInt32 (List ℕ)
  | _, index, [] => index
  | i, index, p :: ps =>
      pgnIndexFrom (i + 1) (index.alter p.pgn fun idxs => some (idxs.getD [] ++ [i])) ps

def pgnIndex (pgns : List RawPgn) : Std.TreeMap UInt32 (List ℕ) :=
  pgnIndexFrom 0 ∅ pgns

def multi (pgns : List RawPgn) : List (UInt32 × List VariantEntry) :=
  (pgnIndex pgns).toList.map fun e =>
    (e.1, e.2.filterMap fun i => pgns[i]?.map fun p => (p, i))

def emitFunctions : List (UInt32 × List VariantEntry) → Option (List (UInt32 × DispatchFn))
  | [] => some []
  | (pgn, variants) :: rest =>
      if needsDispatchFn variants then
        match emitPerPgnDispatch variants, emitFunctions rest with
        | some f, some fs => some ((pgn, f) :: fs)
        | _, _ => none
      else emitFunctions rest

/-- A call, or the index of the single variant. -/
def topArm (variants : List VariantEntry) : Option TopArm :=
  if needsDispatchFn variants then some .call
  -- every entry of the index has a first variant
  else variants.head?.map fun v => .direct v.2

def emitArms : List (UInt32 × List VariantEntry) → List (UInt32 × TopArm)
  | [] => []
  | (pgn, variants) :: rest =>
      ((topArm variants).map fun arm => (pgn, arm)).toList ++ emitArms rest

def fallbacks (pgns : List RawPgn) : List (UInt32 × ℕ) :=
  pgns.zipIdx.filterMap fun v => if v.1.isFallback then some (v.1.pgn, v.2) else none

/-- `none` when a variable name cannot be written. -/
def generate (pgns : List RawPgn) : Option Generated :=
  (emitFunctions (multi pgns)).map fun functions =>
    { functions, arms := emitArms (multi pgns), FALLBACKS := fallbacks pgns }

end Canboat.Build
