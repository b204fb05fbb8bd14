import Canboat.Format.Timestamp
import Canboat.Lib.IndexMap

/-!
# Snapshot cache

The latest record for each `(pgn, src, secondary)`, kept in the order the keys were
first stored, and the three documents read from it. A read drops what has expired.
Instants are nanoseconds of the monotonic clock.
-/

namespace Canboat

/-! ## Time to live -/

def seconds (n : ℕ) : ℕ := n * 1000000000

def SENSOR_TTL : ℕ := seconds 120

def AIS_TTL : ℕ := seconds 3600

def DEVICE_CLAIM_TTL : ℕ := seconds 3600

def DEVICE_INFO_PGNS : List UInt32 := [126996, 126998]

def ISO_ADDRESS_CLAIM_PGN : UInt32 := 60928

/-- `none` for a PGN that never expires. -/
def ttlForPgn (pgn : UInt32) (isAis : Bool) : Option ℕ :=
  if pgn ∈ DEVICE_INFO_PGNS then none
  else if pgn = ISO_ADDRESS_CLAIM_PGN then some DEVICE_CLAIM_TTL
  else if isAis then some AIS_TTL
  else some SENSOR_TTL

/-! ## The cache -/

/-- A line already serialized, or one to be serialized when it is read. -/
inductive LinePayload
  | ready (line : String)
  | lazy (line : Unit → String)

def LinePayload.render : LinePayload → String
  | .ready line => line
  | .lazy line => line ()

structure CacheKey where
  pgn : UInt32
  src : UInt8
  secondary : Option String
deriving DecidableEq, Repr

structure CacheEntry where
  payload : LinePayload
  pgnShortDescription : String
  /-- `none` means "never expires". -/
  expiresAt : Option ℕ
  lastTimestamp : Option UInt64
  count : UInt64
  previousStoreAt : Option ℕ
  intervalMs : UInt64

structure SnapshotStore where
  cache : IndexMap CacheKey CacheEntry
  epochInstant : ℕ
  epochWallMs : UInt64

def SnapshotStore.new (epochInstant : ℕ) (epochWallMs : UInt64) : SnapshotStore :=
  { cache := IndexMap.empty, epochInstant, epochWallMs }

/-- The text up to the first colon. -/
def shortDescription (desc : String) : String :=
  String.ofList (desc.toList.takeWhile (· ≠ ':'))

/-- The arguments of `store_entry`. -/
structure StoreCall where
  key : CacheKey
  isAis : Bool
  pgnDescription : String
  payload : LinePayload
  now : ℕ

/-- Milliseconds between two instants, zero when the second is the later one. -/
def millisSince (now t : ℕ) : UInt64 := UInt64.ofNat ((now - t) / 1000000)

def saturatingAdd (a b : UInt64) : UInt64 := UInt64.ofNat (min (a.toNat + b.toNat) 18446744073709551615)

/-- The entry a call writes over what the key held. -/
def SnapshotStore.entryFor (st : SnapshotStore) (c : StoreCall) : CacheEntry :=
  let prev := st.cache.get? c.key
  { payload := c.payload
    pgnShortDescription := shortDescription c.pgnDescription
    expiresAt := (ttlForPgn c.key.pgn c.isAis).map (c.now + ·)
    lastTimestamp := some (saturatingAdd st.epochWallMs (millisSince c.now st.epochInstant))
    count := (prev.map (·.count)).getD 0 + 1
    previousStoreAt := some c.now
    intervalMs := ((prev.bind (·.previousStoreAt)).map (millisSince c.now)).getD 0 }

def SnapshotStore.storeEntry (st : SnapshotStore) (c : StoreCall) : SnapshotStore :=
  { st with cache := st.cache.insert c.key (st.entryFor c) }

def CacheEntry.fresh (now : ℕ) (e : CacheEntry) : Bool :=
  (e.expiresAt.map fun t => decide (now < t)).getD true

/-- Drop the expired entries. -/
def SnapshotStore.prune (st : SnapshotStore) (now : ℕ) : SnapshotStore :=
  { st with cache := st.cache.retain fun _ e => e.fresh now }

/-! ## Camel-case lines -/

def stripPrefix? (p s : List Char) : Option (List Char) :=
  if p.isPrefixOf s then some (s.drop p.length) else none

/-- What comes before the first quote. -/
def untilQuote? (s : List Char) : Option String :=
  if '"' ∈ s then some (String.ofList (s.takeWhile (· ≠ '"'))) else none

def headerKeys : List String :=
  ["timestamp", "prio", "src", "dst", "pgn", "description", "fields"]

/-- The key a `-camel` line wraps its record in. -/
def camelWrapperId (line : String) : Option String :=
  (((stripPrefix? ['\x7b'] (trimStart line.toList)).bind fun s =>
    stripPrefix? ['"'] (trimStart s)).bind untilQuote?).bind fun key =>
      if key ∈ headerKeys then none else some key

/-- The escape of a character in a JSON string, if it needs one. -/
def snapshotEscape (c : Char) : List Char :=
  if c = '"' then "\\\"".toList
  else if c = '\\' then "\\\\".toList
  else if c = '\n' then "\\n".toList
  else if c = '\r' then "\\r".toList
  else if c = '\t' then "\\t".toList
  else if c.toNat < 0x20 then
    "\\u00".toList ++ [Nat.digitChar (c.toNat / 16), Nat.digitChar (c.toNat % 16)]
  else [c]

def snapshotString (s : String) : String :=
  "\"" ++ String.ofList (s.toList.flatMap snapshotEscape) ++ "\""

/-- Replace the first occurrence of `needle`. -/
def replaceFirst (needle repl : List Char) : List Char → List Char
  | [] => if needle.isEmpty then repl else []
  | c :: s =>
      if needle.isPrefixOf (c :: s) then repl ++ (c :: s).drop needle.length
      else c :: replaceFirst needle repl s

def stripBrace (s : List Char) : List Char :=
  if s.getLast? = some '\x7d' then s.dropLast else s

/-- The record inside a camel line, under its full description. -/
def unwrapCamelRecord (payload camelId fullDesc : String) : String :=
  match stripPrefix? ("\x7b\"" ++ camelId ++ "\":").toList (trim payload.toList) with
  | none => payload
  | some inner =>
      String.ofList (replaceFirst ("\"description\":\"" ++ camelId ++ "\"").toList
        ("\"description\":" ++ snapshotString fullDesc).toList (stripBrace inner))

/-! ## Documents -/

abbrev CacheGroup := UInt32 × List (CacheKey × CacheEntry)

/-- The entries kept, one group for each PGN. -/
def SnapshotStore.groups (st : SnapshotStore) (keep : UInt32 → CacheEntry → Bool) :
    List CacheGroup :=
  (IndexMap.groupBy (fun e : CacheKey × CacheEntry => e.1.pgn)
    (st.cache.entries.filter fun e => keep e.1.pgn e.2)).entries

/-- The member name of an entry. -/
def CacheKey.member (k : CacheKey) : String :=
  k.src.toNat.repr ++ (k.secondary.map ("_" ++ ·)).getD ""

def groupText (id desc : String) (members : List (CacheKey × String)) : String :=
  id ++ "\":\n  \x7b\"description\":" ++ snapshotString desc ++
    String.join (members.map fun m => "\n  ,\"" ++ m.1.member ++ "\":" ++ m.2) ++ "\n  \x7d"

/-- The loop over the groups. -/
def documentText : Bool → List String → String
  | firstPgn, [] => if firstPgn then "\n" else "\n\x7d\n"
  | firstPgn, g :: gs => (if firstPgn then "\x7b\"" else "\n,\"") ++ g ++ documentText false gs

/-- `description` of the group's first entry; no group is empty. -/
def CacheGroup.description (g : CacheGroup) : String :=
  (g.2.head?.map (·.2.pgnShortDescription)).getD ""

/-- One group of a snapshot. `pgnDescription` is the database's description of a PGN id. -/
def CacheGroup.text (pgnDescription : String → Option String) (g : CacheGroup) : String :=
  let rendered := g.2.map fun e => (e.1, e.2.payload.render)
  match rendered.head?.bind fun m => camelWrapperId m.2 with
  | none => groupText g.1.toNat.repr g.description rendered
  | some id =>
      let fullDesc := (pgnDescription id).getD g.description
      groupText id g.description
        (rendered.map fun m => (m.1, unwrapCamelRecord m.2 id fullDesc))

def SnapshotStore.filteredSnapshot (pgnDescription : String → Option String)
    (keep : UInt32 → CacheEntry → Bool) (st : SnapshotStore) (now : ℕ) :
    String × SnapshotStore :=
  let st := st.prune now
  (documentText true ((st.groups keep).map (CacheGroup.text pgnDescription)), st)

def startsWithAis (desc : String) : Bool := "AIS".toList.isPrefixOf desc.toList

def keepSnapshot (pgn : UInt32) (e : CacheEntry) : Bool :=
  pgn == 129026 || pgn == 129029 || !startsWithAis e.pgnShortDescription

def keepAis (pgn : UInt32) (e : CacheEntry) : Bool :=
  pgn == 129026 || pgn == 129029 || startsWithAis e.pgnShortDescription

def SnapshotStore.snapshot (pgnDescription : String → Option String) :
    SnapshotStore → ℕ → String × SnapshotStore :=
  SnapshotStore.filteredSnapshot pgnDescription keepSnapshot

def SnapshotStore.aisSnapshot (pgnDescription : String → Option String) :
    SnapshotStore → ℕ → String × SnapshotStore :=
  SnapshotStore.filteredSnapshot pgnDescription keepAis

def CacheEntry.status (e : CacheEntry) : String :=
  "\x7b\"last\":" ++ snapshotString ((e.lastTimestamp.map formatIsoMs).getD "") ++
    ",\"interval\":" ++ e.intervalMs.toNat.repr ++ ",\"count\":" ++ e.count.toNat.repr ++ "\x7d"

def SnapshotStore.statusSnapshot (st : SnapshotStore) (now : ℕ) : String × SnapshotStore :=
  let st := st.prune now
  (documentText true ((st.groups fun _ _ => true).map fun g =>
    groupText g.1.toNat.repr g.description (g.2.map fun e => (e.1, e.2.status))), st)

/-! ## Runs -/

structure SnapshotInput where
  pgn : UInt32
  src : UInt8
  secondary : Option String
  isAis : Bool
  pgnDescription : String
  line : String

def SnapshotInput.call (input : SnapshotInput) (now : ℕ) : StoreCall :=
  { key := ⟨input.pgn, input.src, input.secondary⟩
    isAis := input.isAis
    pgnDescription := input.pgnDescription
    payload := .ready input.line
    now }

def lazyCall (key : CacheKey) (isAis : Bool) (pgnDescription : String) (render : Unit → String)
    (now : ℕ) : StoreCall :=
  { key, isAis, pgnDescription, payload := .lazy render, now }

/-- The calls on a store, each with the clock it reads or is given. -/
inductive Op
  | store (input : SnapshotInput) (now : ℕ)
  | storeLazy (key : CacheKey) (isAis : Bool) (pgnDescription : String) (render : Unit → String)
      (now : ℕ)
  | snapshot (now : ℕ)
  | aisSnapshot (now : ℕ)
  | statusSnapshot (now : ℕ)

def Op.time : Op → ℕ
  | .store _ now => now
  | .storeLazy _ _ _ _ now => now
  | .snapshot now => now
  | .aisSnapshot now => now
  | .statusSnapshot now => now

/-- The `store_entry` call of a store; `none` for a read. -/
def Op.call : Op → Option StoreCall
  | .store input now => some (input.call now)
  | .storeLazy key isAis pgnDescription render now =>
      some (lazyCall key isAis pgnDescription render now)
  | .snapshot _ => none
  | .aisSnapshot _ => none
  | .statusSnapshot _ => none

def SnapshotStore.apply (pgnDescription : String → Option String) (st : SnapshotStore) :
    Op → SnapshotStore
  | .store input now => st.storeEntry (input.call now)
  | .storeLazy key isAis desc render now => st.storeEntry (lazyCall key isAis desc render now)
  | .snapshot now => (st.snapshot pgnDescription now).2
  | .aisSnapshot now => (st.aisSnapshot pgnDescription now).2
  | .statusSnapshot now => (st.statusSnapshot now).2

def SnapshotStore.run (pgnDescription : String → Option String) (st : SnapshotStore)
    (ops : List Op) : SnapshotStore :=
  ops.foldl (SnapshotStore.apply pgnDescription) st

end Canboat
