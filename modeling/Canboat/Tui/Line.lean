import Canboat.Core.Str
import Canboat.Lib.Json.Tree
import Canboat.Schema.Types

/-!
# Records of the stream

What the user interface reads out of a parsed analyzer line. A `--camel` line is first turned
into the bare form, so that fields go by their human names.
-/

namespace Canboat.Tui

open Json

/-- A number of `serde_json`. -/
inductive Number (F : Type)
  | posInt (n : UInt64)
  | negInt (n : Int64)
  | float (x : F)

abbrev Value (F : Type) := Json.Tree (Number F)

variable {F : Type}

namespace Number

def asU64 : Number F → Option UInt64
  | .posInt n => some n
  | _ => none

def asI64 : Number F → Option Int64
  | .posInt n => if n.toNat < 9223372036854775808 then some (Int64.ofNat n.toNat) else none
  | .negInt n => some n
  | .float _ => none

end Number

def asU64 : Value F → Option UInt64
  | .number n => n.asU64
  | _ => none

def asI64 : Value F → Option Int64
  | .number n => n.asI64
  | _ => none

/-! ## Camel-case records -/

/-- The new names for the keys that are the `id` of a field. -/
def renames (info : PgnInfo F) (names : List String) : List (String × String) :=
  names.filterMap fun k =>
    (info.fields.find? fun f => f.id.val = k ∧ f.name ≠ k).map fun f => (k, f.name)

def isListKey (name : String) : Bool := name = "list" || name = "list2"

/-- Members with two values each, the second for a member that ends up as a list. -/
def rekeyMembers (info : PgnInfo F) (members : List (String × Value F × Value F)) :
    List (String × Value F) :=
  ((renames info (members.map Prod.fst)).foldl (fun ms r => renameMember ms r.1 r.2) members).map
    fun m => (m.1, if isListKey m.1 then m.2.2 else m.2.1)

mutual

/-- `rekey_fields` on an element of a list. -/
def rekeyElement (info : PgnInfo F) : Value F → Value F
  | .object members => .object (rekeyMembers info (withItems info members))
  | v => v

def rekeyElements (info : PgnInfo F) : List (Value F) → List (Value F)
  | [] => []
  | v :: vs => rekeyElement info v :: rekeyElements info vs

def rekeyItems (info : PgnInfo F) : Value F → Value F
  | .array items => .array (rekeyElements info items)
  | v => v

def withItems (info : PgnInfo F) :
    List (String × Value F) → List (String × Value F × Value F)
  | [] => []
  | (name, v) :: members => (name, v, rekeyItems info v) :: withItems info members

end

def rekeyFields (info : PgnInfo F) (fields : List (String × Value F)) : List (String × Value F) :=
  rekeyMembers info (withItems info fields)

/-- The one member of a wrapper, which is a record itself. -/
def wrapped : Value F → Option (String × Value F)
  | .object [(id, record)] => if (record.get "pgn").isSome then some (id, record) else none
  | _ => none

def normalizeCamel (db : PgnDatabase F) (line : Value F) : Value F :=
  match wrapped line with
  | none => line
  | some (wrapperId, record) =>
      let pgn := (((record.get "pgn").bind asU64).getD 0).toUInt32
      match (db.pgns.find? (·.id.val = wrapperId)).or (db.firstPgn pgn), record with
      | some info, .object members =>
          -- the camel `description` is the id again
          let members := insertMember "description" (.string info.description) members
          .object (members.map fun m =>
            match m with
            | ("fields", .object fields) => ("fields", .object (rekeyFields info fields))
            | m => m)
      | _, record => record

/-! ## Fields -/

def fieldValue (line : Value F) (name : String) : Option (Value F) := line.pointer ["fields", name]

def fieldAsInt (v : Value F) : Option Int64 :=
  match asI64 v, (v.get "value").bind asI64 with
  | some n, _ => some n
  | none, some n => some n
  | none, none => v.asStr.bind fun s => parseI64 s.toList

def fieldNumber (line : Value F) (name : String) : Option Int64 :=
  (fieldValue line name).bind fieldAsInt

def trimmed (s : String) : String := String.ofList (trim s.toList)

/-- With the text of other values as `serde_json` writes it. -/
def fieldText (display : Value F → String) (line : Value F) (name : String) : Option String :=
  match fieldValue line name with
  | none => none
  | some (.string s) => some (trimmed s)
  | some (.object members) =>
      match (members.lookup "name").bind Json.Tree.asStr with
      | some s => some (trimmed s)
      | none => (members.lookup "value").map display
  | some (.number n) => some (display (.number n))
  | some (.bool b) => some (display (.bool b))
  | some _ => none

/-- `as u32`. -/
def toU32 (v : Int64) : UInt32 := v.toUInt64.toUInt32

/-- `as u8`. -/
def toU8 (v : Int64) : UInt8 := v.toUInt64.toUInt8

def u16TryFrom (v : Int64) : Option UInt16 :=
  if 0 ≤ v.toInt ∧ v.toInt < 65536 then some v.toUInt64.toUInt16 else none

def u32TryFrom (v : Int64) : Option UInt32 :=
  if 0 ≤ v.toInt ∧ v.toInt < 4294967296 then some v.toUInt64.toUInt32 else none

end Canboat.Tui
