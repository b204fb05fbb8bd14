import Canboat.Input.ReadBack
import Canboat.Lib.Json.Scan
import Canboat.Snapshot.Keys

/-!
# Cache keys of a line

The inputs of the snapshot cache that come from a line of analyzer JSON, by searches in its text.
A line whose key is inside a list is stored once for each element, with that element alone in the
list.
-/

namespace Canboat

open Json

namespace AnalyzerJson

/-- The number of a lookup, else its name; other values as they are. -/
def lookupText (msg field : List Char) : Option (List Char) :=
  (value msg field).bind fun v =>
    if v.head? = some '\x7b' then (value v "value".toList).or (value v "name".toList) else some v

/-- Up to the bracket that closes the first, and the rest. -/
def arrayText : ℕ → Quote → List Char → Option (List Char × List Char)
  | _, _, [] => none
  | depth, .outside, c :: s =>
      if c = '[' then (arrayText (depth + 1) .outside s).map fun r => (c :: r.1, r.2)
      else if c = ']' then
        if depth ≤ 1 then some ([c], s)
        else (arrayText (depth - 1) .outside s).map fun r => (c :: r.1, r.2)
      else if c = '"' then (arrayText depth .inside s).map fun r => (c :: r.1, r.2)
      else (arrayText depth .outside s).map fun r => (c :: r.1, r.2)
  | depth, q, c :: s => (arrayText depth (q.next c) s).map fun r => (c :: r.1, r.2)

/-- The array of a field, with the text before it and the text after it. -/
def arraySpan (msg field : List Char) : Option (List Char × List Char × List Char) :=
  match afterKey? field msg with
  | none => none
  | some s =>
      match s.dropWhile isBlank with
      | '[' :: t =>
          (arrayText 0 .outside ('[' :: t)).map fun r =>
            (msg.take (msg.length - (t.length + 1)), r.1, r.2)
      | _ => none

/-- The objects in the rest of an array; one may be open, with its depth. -/
def splitElements : Option (List Char × ℕ × Quote) → List Char → List (List Char)
  | none, [] => []
  | none, c :: s =>
      if c = ']' then []
      else if c = '\x7b' then splitElements (some ([c], 1, .outside)) s
      else splitElements none s
  | some (element, _, _), [] => [element]
  | some (element, depth, .outside), c :: s =>
      if c = '\x7b' then splitElements (some (element ++ [c], depth + 1, .outside)) s
      else if c = '\x7d' then
        if depth ≤ 1 then (element ++ [c]) :: splitElements none s
        else splitElements (some (element ++ [c], depth - 1, .outside)) s
      else if c = '"' then splitElements (some (element ++ [c], depth, .inside)) s
      else splitElements (some (element ++ [c], depth, .outside)) s
  | some (element, depth, q), c :: s => splitElements (some (element ++ [c], depth, q.next c)) s

def splitObjectArray : List Char → List (List Char)
  | '[' :: s => splitElements none s
  | _ => []

example : splitObjectArray "[\x7b\"a\":\"\x7d\"\x7d,\x7b\"b\":\x7b\x7d\x7d]".toList =
    ["\x7b\"a\":\"\x7d\"\x7d".toList, "\x7b\"b\":\x7b\x7d\x7d".toList] := by decide

end AnalyzerJson

open AnalyzerJson
open Binary64 (digits)

variable {F : Type} [Float64 F]

/-! ## The inputs of a line -/

/-- The text for a field of the key in a line, or in an element of its list; a wrapped record has
its fields under their identifiers. -/
def keyText (line text : List Char) (f : FieldInfo F) : Option (List Char) :=
  lookupText text (fieldKey (camelWrapperId (String.ofList line)).isSome f)

def lineInput (pgn : UInt32) (src : UInt8) (description : List Char) (secondary : Option String)
    (text : List Char) : SnapshotInput where
  pgn
  src
  secondary
  isAis := isAisPgn pgn
  pgnDescription := String.ofList description
  line := String.ofList text

def listKey (set : UInt8) : List Char := if set = 1 then "list".toList else "list2".toList

/-- The line as one record, under its key fields outside the lists. -/
def wholeInput (info : Option (PgnInfo F)) (pgn : UInt32) (src : UInt8) (line : List Char) :
    SnapshotInput :=
  lineInput pgn src ((value line "description".toList).getD [])
    (info.bind fun info => compositeSecondary info (keyText line line)) line

/-- `metric` is the embedded database in metric units. -/
def classifyJsonLine (metric : PgnDatabase F) (line : List Char) : List SnapshotInput :=
  match int line "pgn".toList, int line "src".toList with
  | some pgn, some src =>
      let pgn := pgn.toUInt64.toUInt32
      let src := src.toUInt64.toUInt8
      let info := metric.firstPgn pgn
      match info, info.bind repeatingPkSet with
      | some info, some set =>
          match arraySpan line (listKey set) with
          | none => [wholeInput (some info) pgn src line]
          | some (before, array, after) =>
              (splitObjectArray array).zipIdx.map fun (element, iter) =>
                lineInput pgn src ((value line "description".toList).getD [])
                  (perIterationSecondary info set (UInt32.ofNat iter) (keyText line line)
                    fun f _ => keyText line element f)
                  (before ++ '[' :: (element ++ ']' :: after))
      | _, _ => [wholeInput info pgn src line]
  | _, _ => []

/-! ## Lines of records without key fields -/

/-- No field tells records of the PGN apart. -/
def PgnInfo.Keyless (info : PgnInfo F) : Prop :=
  ∀ f ∈ info.fields, isPartOfPrimaryKey info.pgn f = false

omit [Float64 F] in
theorem PgnInfo.Keyless.filter {info : PgnInfo F} (h : info.Keyless) :
    info.fields.filter (isPartOfPrimaryKey info.pgn) = [] := by
  rw [List.filter_eq_nil_iff]
  intro f hf
  rw [h f hf]
  exact Bool.false_ne_true

omit [Float64 F] in
theorem PgnInfo.Keyless.secondary {info : PgnInfo F} (h : info.Keyless)
    (getText : FieldInfo F → Option (List Char)) : compositeSecondary info getText = none := by
  rw [compositeSecondary, h.filter]
  rfl

omit [Float64 F] in
theorem PgnInfo.Keyless.set {info : PgnInfo F} (h : info.Keyless) : repeatingPkSet info = none := by
  rw [repeatingPkSet, h.filter]
  rfl

/-- The one input of the line. -/
def keylessInput (pgn : UInt32) (src : UInt8) (line : List Char) : SnapshotInput :=
  lineInput pgn src ((value line "description".toList).getD []) none line

omit [Float64 F] in
theorem classifyJsonLine_keyless (metric : PgnDatabase F) {line : List Char} {pgn src : Int64}
    (hpgn : int line "pgn".toList = some pgn) (hsrc : int line "src".toList = some src)
    {info : PgnInfo F} (hinfo : metric.firstPgn pgn.toUInt64.toUInt32 = some info)
    (hkeyless : info.Keyless) :
    classifyJsonLine metric line =
      [keylessInput pgn.toUInt64.toUInt32 src.toUInt64.toUInt8 line] := by
  rw [classifyJsonLine, hpgn, hsrc]
  simp only [hinfo, Option.bind_some, hkeyless.set]
  rw [wholeInput, keylessInput, Option.bind_some, hkeyless.secondary]

/-- The number of a header. -/
theorem int_header {opts : JsonOptions} {d : DecodedPgn F} {key : List Char} {n : ℕ}
    (hkey : IsKey key)
    (hplain : opts.camelCase ≠ .off →
      ∀ c ∈ displayName opts.camelCase d.description d.id, isPlain c = true)
    (hne : opts.camelCase ≠ .off → displayName opts.camelCase d.description d.id ≠ key)
    (hmem : (key, digits n) ∈ fixedHeaders opts d) (hn : n < 9223372036854775808) :
    int (writeJson opts d) key = some (Int64.ofNat n) := by
  have hheader : (key, digits n) ∈ headers opts d := by
    rw [headers]
    split
    · exact List.mem_cons_of_mem _ hmem
    · exact hmem
  obtain ⟨t, ht, hsearch⟩ := afterKey?_header hkey hplain hne hheader
  exact NumberText.int_eq .bare hsearch ht hn

end Canboat
