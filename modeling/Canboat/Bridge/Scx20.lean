import Canboat.Decode.DeviceName
import Canboat.Encode.Builder
import Canboat.Bridge.Overrides
import Canboat.Io.NmeaDevice
import Canboat.Snapshot.Store

/-!
# The SCX-20 quirk

Answers for a satellite compass that forgets to answer requests for its product information. The
addresses to answer from are learned from address claims, and never given up.
-/

namespace Canboat

/-- The addresses learned, with the time of the last answer from each. -/
structure Scx20 where
  learned : UInt8 → Option ℤ

namespace Scx20

def FURUNO_MFG : UInt16 := 1855

def NAV_CLASS : UInt8 := 60

def SCX20_FUNCTION : UInt8 := 140

def MIN_SYNTH_GAP : ℕ := seconds 1

def SCX20_DB_VERSION : Int64 := 2100

def SCX20_PRODUCT_CODE : Int64 := 10571

def SCX20_MODEL_ID : String := "SCX-20"

def SCX20_SOFTWARE_VERSION : String := "2051601-01.04"

def SCX20_MODEL_VERSION : String := "20P8235-00"

def SCX20_MODEL_SERIAL : String := "100118101056"

def SCX20_CERTIFICATION_LEVEL : Int64 := 2

def SCX20_LOAD_EQUIVALENCY : Int64 := 4

variable {F : Type} [Float64 F]

def new : Scx20 := ⟨fun _ => none⟩

/-- Manufacturer, class and function of the device. -/
def isScx20Name (name : UInt64) : Bool :=
  let mfg := ((name >>> 21) &&& 0x7ff).toUInt16
  let function := ((name >>> 40) &&& 0xff).toUInt8
  let class' := ((name >>> 49) &&& 0x7f).toUInt8
  mfg = FURUNO_MFG ∧ class' = NAV_CLASS ∧ function = SCX20_FUNCTION

def productInformation : Identifier := ⟨"productInformation", by decide⟩

/-- Text for a field of this order and id. -/
def pushText (order : UInt8) (id : Identifier) (text : String) (b : PgnBuilder F) :
    Encoded F (PgnBuilder F) :=
  b.push order id (.text text.toList)

def pushInt (order : UInt8) (id : Identifier) (n : Int64) (b : PgnBuilder F) :
    Encoded F (PgnBuilder F) :=
  b.push order id (.int n)

/-- The fields of the message, with the clock's time of the host. -/
def scx20Message (db : PgnDatabase F) (wall : UInt64) (src : UInt8) : Encoded F RawFrame := do
  let b ← db.encode productInformation
  let b : PgnBuilder F :=
    { b with prio := 6, src := src, dst := ADDR_GLOBAL, timestamp := some (formatIsoMs wall) }
  let b ← pushInt 1 ⟨"nmea2000Version", by decide⟩ SCX20_DB_VERSION b
  let b ← pushInt 2 ⟨"productCode", by decide⟩ SCX20_PRODUCT_CODE b
  let b ← pushText 3 ⟨"modelId", by decide⟩ SCX20_MODEL_ID b
  let b ← pushText 4 ⟨"softwareVersionCode", by decide⟩ SCX20_SOFTWARE_VERSION b
  let b ← pushText 5 ⟨"modelVersion", by decide⟩ SCX20_MODEL_VERSION b
  let b ← pushText 6 ⟨"modelSerialCode", by decide⟩ SCX20_MODEL_SERIAL b
  let b ← pushInt 7 ⟨"certificationLevel", by decide⟩ SCX20_CERTIFICATION_LEVEL b
  let b ← pushInt 8 ⟨"loadEquivalency", by decide⟩ SCX20_LOAD_EQUIVALENCY b
  b.build

/-- No frame where the message does not encode. -/
def buildScx20ProductInfo (db : PgnDatabase F) (wall : UInt64) (src : UInt8) : Option RawFrame :=
  (scx20Message db wall src).toOption

/-- The request names the product information. -/
def requestsProductInfo (d : DecodedPgn F) : Bool :=
  d.pgn = PGN_ISO_REQUEST ∧ (d.field 1).bind (·.value.asI64) = some 126996

/-- The addresses that the request reaches, in order. -/
def targets (q : Scx20) (d : DecodedPgn F) : List UInt8 :=
  if d.dst = ADDR_GLOBAL then allSources.filter fun src => (q.learned src).isSome
  else if (q.learned d.dst).isSome then [d.dst]
  else []

def stamp (q : Scx20) (src : UInt8) (now : ℤ) : Scx20 :=
  ⟨Function.update q.learned src (some now)⟩

/-- From each address an answer, where the last is not less than the gap ago. -/
def answer (db : PgnDatabase F) (now : ℤ) (wall : UInt64) :
    List UInt8 → Scx20 → Scx20 × List RawFrame
  | [], q => (q, [])
  | src :: rest, q =>
      match q.learned src with
      -- does not come about: the targets are learned
      | none => answer db now wall rest q
      | some last =>
          if now - last < MIN_SYNTH_GAP then answer db now wall rest q
          else
            let (q, out) := answer db now wall rest (q.stamp src now)
            (q, (buildScx20ProductInfo db wall src).toList ++ out)

/-- A new address is taken down as if it had answered a gap ago. -/
def learn (q : Scx20) (src : UInt8) (now : ℤ) : Scx20 :=
  q.stamp src ((q.learned src).getD (now - MIN_SYNTH_GAP))

def process (db : PgnDatabase F) (q : Scx20) (d : DecodedPgn F) (now : ℤ) (wall : UInt64) :
    Scx20 × List RawFrame :=
  if d.pgn = PGN_ISO_ADDRESS_CLAIM then
    match d.isoName with
    | some name => if isScx20Name name then (q.learn d.src now, []) else (q, [])
    | none => (q, [])
  else if requestsProductInfo d then answer db now wall (q.targets d) q
  else (q, [])

/-! ## Runs -/

/-- A record, with both clocks when it is processed. -/
structure Arrival (F : Type) where
  now : ℤ
  wall : UInt64
  d : DecodedPgn F

def run (db : PgnDatabase F) (arrivals : List (Arrival F)) : Scx20 :=
  arrivals.foldl (fun q a => (q.process db a.d a.now a.wall).1) new

/-- The frames that the arrival brings forth, after those before it. -/
def emitted (db : PgnDatabase F) (before : List (Arrival F)) (a : Arrival F) : List RawFrame :=
  ((run db before).process db a.d a.now a.wall).2

/-- The arrival is an address claim of the source. -/
def Arrival.isClaimOf (a : Arrival F) (src : UInt8) : Bool :=
  a.d.pgn = PGN_ISO_ADDRESS_CLAIM ∧ a.d.src = src

/-- The record carries the NAME of an SCX-20. -/
def Arrival.isScx20 (a : Arrival F) : Bool := a.d.isoName.any isScx20Name

/-- The latest claim of the source carries the NAME of an SCX-20. -/
def IsScx20 (arrivals : List (Arrival F)) (src : UInt8) : Prop :=
  ∃ a, arrivals.reverse.find? (·.isClaimOf src) = some a ∧ a.isScx20 = true

/-- Some claim of the source carried the NAME of an SCX-20. -/
def WasScx20 (arrivals : List (Arrival F)) (src : UInt8) : Prop :=
  ∃ a ∈ arrivals, a.isClaimOf src = true ∧ a.isScx20 = true

/-- The request reaches the source. -/
def Arrival.Reaches (a : Arrival F) (src : UInt8) : Prop := a.d.dst = ADDR_GLOBAL ∨ a.d.dst = src

/-- What a frame may answer, and for whom, after these arrivals. -/
structure Answers (before : List (Arrival F)) (a : Arrival F) (f : RawFrame) : Prop where
  pgn : f.pgn = PGN_PRODUCT_INFO
  requested : requestsProductInfo a.d = true
  reached : a.Reaches f.src
  scx20 : IsScx20 before f.src

/-- Each frame answers a request for a compass, and those of one source are apart. -/
def AnswersInTurn (db : PgnDatabase F) (arrivals : List (Arrival F)) : Prop :=
  ∀ before a after, arrivals = before ++ a :: after →
    ((emitted db before a).map (·.src)).Nodup ∧
    ∀ f ∈ emitted db before a, Answers before a f ∧
      ∀ first earlier rest, before = first ++ earlier :: rest →
        ∀ g ∈ emitted db first earlier, g.src = f.src → MIN_SYNTH_GAP ≤ a.now - earlier.now

/-- The records come in the order of the clock. -/
def Clocked (arrivals : List (Arrival F)) : Prop := arrivals.Pairwise fun a b => a.now ≤ b.now

/-- No request for product information reaches a source that a compass has left: one that claimed
with its NAME, and now with another. -/
def NoneLeft (arrivals : List (Arrival F)) : Prop :=
  ∀ before a after, arrivals = before ++ a :: after → requestsProductInfo a.d = true →
    ∀ src, a.Reaches src → WasScx20 before src → IsScx20 before src

/-! ## The frames -/

variable {db : PgnDatabase F} {q : Scx20} {d : DecodedPgn F} {now : ℤ} {wall : UInt64}
  {src : UInt8} {f : RawFrame}

/-- The definition of product information in the database is the one of its PGN. -/
def DefinesProductInfo (db : PgnDatabase F) : Prop :=
  ∀ info, db.pgnById productInformation = some info → info.pgn = PGN_PRODUCT_INFO

theorem buildScx20ProductInfo_header (hdb : DefinesProductInfo db)
    (h : buildScx20ProductInfo db wall src = some f) : f.pgn = PGN_PRODUCT_INFO ∧ f.src = src := by
  have hmessage : scx20Message db wall src = .ok f := by
    rw [buildScx20ProductInfo] at h
    cases hm : scx20Message db wall src with
    | error e =>
        rw [hm] at h
        cases h
    | ok g =>
        rw [hm] at h
        cases h
        rfl
  rw [scx20Message] at hmessage
  obtain ⟨b, hb, h⟩ := encoded_bind_ok hmessage
  obtain ⟨b1, h1, h⟩ := encoded_bind_ok h
  obtain ⟨b2, h2, h⟩ := encoded_bind_ok h
  obtain ⟨b3, h3, h⟩ := encoded_bind_ok h
  obtain ⟨b4, h4, h⟩ := encoded_bind_ok h
  obtain ⟨b5, h5, h⟩ := encoded_bind_ok h
  obtain ⟨b6, h6, h⟩ := encoded_bind_ok h
  obtain ⟨b7, h7, h⟩ := encoded_bind_ok h
  obtain ⟨b8, h8, h⟩ := encoded_bind_ok h
  have hpgn : b.pgn.pgn = PGN_PRODUCT_INFO := hdb _ (PgnDatabase.encode_pgn hb)
  obtain ⟨hbuilt, hsrc⟩ := PgnBuilder.build_header h
  have hkept := (PgnBuilder.push_kept h1).trans <| (PgnBuilder.push_kept h2).trans <|
    (PgnBuilder.push_kept h3).trans <| (PgnBuilder.push_kept h4).trans <|
    (PgnBuilder.push_kept h5).trans <| (PgnBuilder.push_kept h6).trans <|
    (PgnBuilder.push_kept h7).trans (PgnBuilder.push_kept h8)
  rw [hbuilt, hsrc, hkept.pgn, hkept.src]
  exact ⟨hpgn, rfl⟩

/-! ## One call -/

/-- An answer from the source is due: its last is the gap ago or more. -/
def Due (q : Scx20) (now : ℤ) (src : UInt8) : Prop :=
  ∃ last, q.learned src = some last ∧ MIN_SYNTH_GAP ≤ now - last

@[simp] theorem stamp_learned_self : (q.stamp src now).learned src = some now :=
  Function.update_self ..

theorem stamp_learned_of_ne {src' : UInt8} (h : src' ≠ src) :
    (q.stamp src now).learned src' = q.learned src' :=
  Function.update_of_ne h ..

/-- A source that has answered is not due at once. -/
theorem due_of_due_stamp {src' : UInt8} (h : (q.stamp src now).Due now src') :
    src' ≠ src ∧ q.Due now src' := by
  obtain ⟨last, hlast, hgap⟩ := h
  by_cases hsrc : src' = src
  · subst hsrc
    rw [stamp_learned_self] at hlast
    cases hlast
    rw [sub_self] at hgap
    exact absurd hgap (by decide)
  · rw [stamp_learned_of_ne hsrc] at hlast
    exact ⟨hsrc, last, hlast, hgap⟩

theorem answer_frames {ts : List UInt8} (h : f ∈ (answer db now wall ts q).2) :
    ∃ src ∈ ts, q.Due now src ∧ buildScx20ProductInfo db wall src = some f := by
  induction ts generalizing q with
  | nil => cases h
  | cons src rest ih =>
      rw [answer] at h
      cases hlast : q.learned src with
      | none =>
          rw [hlast] at h
          obtain ⟨src', hmem, hdue, hbuild⟩ := ih h
          exact ⟨src', List.mem_cons_of_mem _ hmem, hdue, hbuild⟩
      | some last =>
          rw [hlast] at h
          by_cases hgap : now - last < MIN_SYNTH_GAP
          · simp only [if_pos hgap] at h
            obtain ⟨src', hmem, hdue, hbuild⟩ := ih h
            exact ⟨src', List.mem_cons_of_mem _ hmem, hdue, hbuild⟩
          · simp only [if_neg hgap] at h
            rcases List.mem_append.mp h with h | h
            · exact ⟨src, List.mem_cons_self, ⟨last, hlast, not_lt.mp hgap⟩, Option.mem_toList.mp h⟩
            · obtain ⟨src', hmem, hdue, hbuild⟩ := ih h
              exact ⟨src', List.mem_cons_of_mem _ hmem, (due_of_due_stamp hdue).2, hbuild⟩

theorem answer_nodup (hdb : DefinesProductInfo db) {ts : List UInt8} :
    ((answer db now wall ts q).2.map (·.src)).Nodup := by
  induction ts generalizing q with
  | nil => exact List.nodup_nil
  | cons src rest ih =>
      rw [answer]
      cases hlast : q.learned src with
      | none => exact ih
      | some last =>
          by_cases hgap : now - last < MIN_SYNTH_GAP
          · simp only [if_pos hgap]
            exact ih
          · simp only [if_neg hgap]
            cases hbuild : buildScx20ProductInfo db wall src with
            | none => exact ih
            | some f =>
                rw [Option.toList_some, List.singleton_append, List.map_cons, List.nodup_cons]
                refine ⟨?_, ih⟩
                intro hmem
                obtain ⟨g, hg, hsame⟩ := List.mem_map.mp hmem
                obtain ⟨src', -, hdue, hbuild'⟩ := answer_frames hg
                have hne := (due_of_due_stamp hdue).1
                rw [(buildScx20ProductInfo_header hdb hbuild').2,
                  (buildScx20ProductInfo_header hdb hbuild).2] at hsame
                exact hne hsame

/-- The stamp of a source is as it was, or now if it was learned. -/
theorem answer_learned (ts : List UInt8) (src' : UInt8) :
    (answer db now wall ts q).1.learned src' = q.learned src' ∨
      (q.learned src').isSome ∧ (answer db now wall ts q).1.learned src' = some now := by
  induction ts generalizing q with
  | nil => exact Or.inl rfl
  | cons src rest ih =>
      rw [answer]
      cases hlast : q.learned src with
      | none => exact ih
      | some last =>
          by_cases hgap : now - last < MIN_SYNTH_GAP
          · simp only [if_pos hgap]
            exact ih
          · simp only [if_neg hgap]
            by_cases hsrc : src' = src
            · subst hsrc
              refine Or.inr ⟨by rw [hlast]; rfl, ?_⟩
              rcases @ih (q.stamp src' now) with h | ⟨-, h⟩
              · rw [h, stamp_learned_self]
              · exact h
            · have h := @ih (q.stamp src now)
              rw [stamp_learned_of_ne hsrc] at h
              exact h

/-- A source that answers is stamped. -/
theorem answer_stamped (hdb : DefinesProductInfo db) {ts : List UInt8}
    (h : f ∈ (answer db now wall ts q).2) :
    (answer db now wall ts q).1.learned f.src = some now := by
  induction ts generalizing q with
  | nil => cases h
  | cons src rest ih =>
      rw [answer] at h ⊢
      cases hlast : q.learned src with
      | none =>
          rw [hlast] at h
          exact ih h
      | some last =>
          rw [hlast] at h
          by_cases hgap : now - last < MIN_SYNTH_GAP
          · simp only [if_pos hgap] at h ⊢
            exact ih h
          · simp only [if_neg hgap] at h ⊢
            rcases List.mem_append.mp h with h | h
            · rw [(buildScx20ProductInfo_header hdb (Option.mem_toList.mp h)).2]
              rcases @answer_learned F _ db (q.stamp src now) now wall rest src with h' | ⟨-, h'⟩
              · rw [h', stamp_learned_self]
              · exact h'
            · exact ih h

omit [Float64 F] in
theorem mem_targets {src : UInt8} (h : src ∈ q.targets d) : d.dst = ADDR_GLOBAL ∨ d.dst = src := by
  rw [targets] at h
  split_ifs at h with hglobal hlearned
  · exact Or.inl hglobal
  · exact Or.inr (List.mem_singleton.mp h).symm
  · cases h

/-- A frame answers a request that reaches its source, which is due; it is stamped. -/
theorem process_frames (hdb : DefinesProductInfo db) (h : f ∈ (q.process db d now wall).2) :
    f.pgn = PGN_PRODUCT_INFO ∧ requestsProductInfo d = true ∧
      (d.dst = ADDR_GLOBAL ∨ d.dst = f.src) ∧ q.Due now f.src ∧
      (q.process db d now wall).1.learned f.src = some now := by
  rw [process] at h ⊢
  by_cases hclaim : d.pgn = PGN_ISO_ADDRESS_CLAIM
  · simp only [if_pos hclaim] at h
    cases hname : d.isoName with
    | none =>
        rw [hname] at h
        cases h
    | some name =>
        rw [hname] at h
        dsimp only at h
        split_ifs at h <;> cases h
  · simp only [if_neg hclaim] at h ⊢
    by_cases hrequest : requestsProductInfo d = true
    · simp only [if_pos hrequest] at h ⊢
      obtain ⟨src, hmem, hdue, hbuild⟩ := answer_frames h
      obtain ⟨hpgn, hsrc⟩ := buildScx20ProductInfo_header hdb hbuild
      have hstamped := answer_stamped hdb h
      rw [hsrc] at hstamped ⊢
      exact ⟨hpgn, hrequest, mem_targets hmem, hdue, hstamped⟩
    · simp only [if_neg hrequest] at h
      cases h

theorem process_nodup (hdb : DefinesProductInfo db) :
    ((q.process db d now wall).2.map (·.src)).Nodup := by
  rw [process]
  by_cases hclaim : d.pgn = PGN_ISO_ADDRESS_CLAIM
  · simp only [if_pos hclaim]
    cases hname : d.isoName with
    | none => exact List.nodup_nil
    | some name =>
        dsimp only
        split_ifs <;> exact List.nodup_nil
  · simp only [if_neg hclaim]
    by_cases hrequest : requestsProductInfo d = true
    · simp only [if_pos hrequest]
      exact answer_nodup hdb
    · simp only [if_neg hrequest]
      exact List.nodup_nil

/-- A stamp is kept, or renewed. -/
theorem process_learned {last : ℤ} (h : q.learned src = some last) :
    (q.process db d now wall).1.learned src = some last ∨
      (q.process db d now wall).1.learned src = some now := by
  rw [process]
  by_cases hclaim : d.pgn = PGN_ISO_ADDRESS_CLAIM
  · simp only [if_pos hclaim]
    refine Or.inl ?_
    cases hname : d.isoName with
    | none => exact h
    | some name =>
        dsimp only
        split_ifs
        · rw [learn]
          by_cases hsrc : src = d.src
          · subst hsrc
            rw [stamp_learned_self, h, Option.getD_some]
          · rw [stamp_learned_of_ne hsrc, h]
        · exact h
  · simp only [if_neg hclaim]
    by_cases hrequest : requestsProductInfo d = true
    · simp only [if_pos hrequest]
      rcases @answer_learned F _ db q now wall (q.targets d) src
        with h' | ⟨-, h'⟩
      · exact Or.inl (h'.trans h)
      · exact Or.inr h'
    · simp only [if_neg hrequest]
      exact Or.inl h

/-- What is learned was learned before, or claims the NAME of a compass. -/
theorem learned_of_process (h : ((q.process db d now wall).1.learned src).isSome = true) :
    (q.learned src).isSome = true ∨
      d.pgn = PGN_ISO_ADDRESS_CLAIM ∧ d.src = src ∧ d.isoName.any isScx20Name = true := by
  rw [process] at h
  by_cases hclaim : d.pgn = PGN_ISO_ADDRESS_CLAIM
  · simp only [if_pos hclaim] at h
    cases hname : d.isoName with
    | none =>
        rw [hname] at h
        exact Or.inl h
    | some name =>
        rw [hname] at h
        dsimp only at h
        by_cases hscx : isScx20Name name = true
        · rw [if_pos hscx, learn] at h
          by_cases hsrc : src = d.src
          · exact Or.inr ⟨hclaim, hsrc.symm, hscx⟩
          · rw [stamp_learned_of_ne hsrc] at h
            exact Or.inl h
        · rw [if_neg hscx] at h
          exact Or.inl h
  · simp only [if_neg hclaim] at h
    by_cases hrequest : requestsProductInfo d = true
    · simp only [if_pos hrequest] at h
      rcases @answer_learned F _ db q now wall (q.targets d) src
        with h' | ⟨h', -⟩
      · rw [h'] at h
        exact Or.inl h
      · exact Or.inl h'
    · simp only [if_neg hrequest] at h
      exact Or.inl h

/-! ## Whole runs -/

variable {before rest : List (Arrival F)} {a : Arrival F}

theorem run_append : run db (before ++ [a]) = ((run db before).process db a.d a.now a.wall).1 := by
  rw [run, List.foldl_append]
  rfl

/-- Learned sources have claimed the NAME of a compass. -/
theorem wasScx20_of_learned (h : ((run db before).learned src).isSome = true) :
    WasScx20 before src := by
  induction before using List.reverseRecOn with
  | nil => cases h
  | append_singleton before a ih =>
      rw [run_append] at h
      rcases learned_of_process h with h | ⟨hclaim, hsrc, hname⟩
      · obtain ⟨a', hmem, hclaim, hname⟩ := ih h
        exact ⟨a', List.mem_append_left _ hmem, hclaim, hname⟩
      · exact ⟨a, List.mem_append_right _ List.mem_cons_self,
          decide_eq_true ⟨hclaim, hsrc⟩, hname⟩

/-- From an answer on the stamp of its source is not earlier. -/
theorem stamp_of_emitted (hdb : DefinesProductInfo db) {g : RawFrame}
    (hclock : Clocked (before ++ a :: rest)) (hg : g ∈ emitted db before a) :
    ∃ last, (run db (before ++ a :: rest)).learned g.src = some last ∧ a.now ≤ last := by
  induction rest using List.reverseRecOn with
  | nil =>
      rw [run_append]
      exact ⟨a.now, (process_frames hdb hg).2.2.2.2, le_rfl⟩
  | append_singleton rest last ih =>
      rw [← List.cons_append, ← List.append_assoc] at hclock ⊢
      rw [Clocked, List.pairwise_append] at hclock
      obtain ⟨stamp, hstamp, hle⟩ := ih hclock.1
      rw [run_append]
      rcases @process_learned F _ db _ last.d last.now last.wall _ _ hstamp with h | h
      · exact ⟨stamp, h, hle⟩
      · exact ⟨last.now, h, hclock.2.2 a (by simp) last List.mem_cons_self⟩

/-- Where no request reaches a source that a compass has left, each frame answers for one, and
those of one source are apart. -/
theorem answersInTurn (db : PgnDatabase F) (hdb : DefinesProductInfo db)
    (arrivals : List (Arrival F)) (hclock : Clocked arrivals) (hleft : NoneLeft arrivals) :
    AnswersInTurn db arrivals := by
  rintro before a after rfl
  refine ⟨process_nodup hdb, ?_⟩
  intro f hf
  obtain ⟨hpgn, hrequest, hreached, ⟨last, hlast, hgap⟩, -⟩ := process_frames hdb hf
  have hwas : WasScx20 before f.src := by
    have hlearned : ((run db before).learned f.src).isSome = true := by
      rw [hlast]
      rfl
    exact wasScx20_of_learned hlearned
  refine ⟨⟨hpgn, hrequest, hreached, hleft before a after rfl hrequest f.src hreached hwas⟩, ?_⟩
  rintro first earlier rest rfl g hg hsrc
  rw [Clocked, List.pairwise_append] at hclock
  obtain ⟨stamp, hstamp, hle⟩ := stamp_of_emitted hdb hclock.1 hg
  rw [hsrc, hlast] at hstamp
  cases hstamp
  exact hgap.trans (sub_le_sub_left hle a.now)

/-! ## An address that a compass has left -/

def isoRequest : PgnInfo Binary64 where
  pgn := PGN_ISO_REQUEST
  id := ⟨"isoRequest", by decide⟩
  description := "ISO Request"
  packetType := .single
  fallback := none
  priority := some 6
  length := some 3
  fields :=
    [ { claimNumber 1 ⟨"pgn", Eq.refl true⟩ "PGN" 0 24 with fieldType := some .pgn } ]
  repeatingFieldSet1 := .none
  repeatingFieldSet2 := .none
  idIsPinned := false

/-- A text of 32 bytes. -/
def infoText (order : UInt8) (id : Identifier) (name : String) (bitOffset : UInt32) :
    FieldInfo Binary64 :=
  { claimNumber order id name bitOffset 256 with
    resolution := none, signed := none, fieldType := some .stringFix }

def productInfo : PgnInfo Binary64 where
  pgn := PGN_PRODUCT_INFO
  id := productInformation
  description := "Product Information"
  packetType := .fast
  fallback := none
  priority := some 6
  length := some 134
  fields :=
    [ { claimNumber 1 ⟨"nmea2000Version", by decide⟩ "NMEA 2000 Version" 0 16 with
        resolution := some (Float64.ofRat 0.001) },
      claimNumber 2 ⟨"productCode", by decide⟩ "Product Code" 16 16,
      infoText 3 ⟨"modelId", by decide⟩ "Model ID" 32,
      infoText 4 ⟨"softwareVersionCode", by decide⟩ "Software Version Code" 288,
      infoText 5 ⟨"modelVersion", by decide⟩ "Model Version" 544,
      infoText 6 ⟨"modelSerialCode", by decide⟩ "Model Serial Code" 800,
      { claimNumber 7 ⟨"certificationLevel", by decide⟩ "Certification Level" 1056 8 with
        fieldType := some .lookup, lookupEnumeration := some "CERTIFICATION_LEVEL" },
      claimNumber 8 ⟨"loadEquivalency", by decide⟩ "Load Equivalency" 1064 8 ]
  repeatingFieldSet1 := .none
  repeatingFieldSet2 := .none
  idIsPinned := false

/-- A database of claims, requests and product information. -/
def quirkDatabase : PgnDatabase Binary64 where
  units := .si
  pgns := [isoRequest, isoAddressClaim, productInfo]
  lookups := []
  bitLookups := []
  indirectLookups := []
  fieldTypeLookups := []
  claimFlat := by decide +kernel

theorem quirkDatabase_definesProductInfo : DefinesProductInfo quirkDatabase := by
  intro info h
  have hall : (quirkDatabase.pgnById productInformation).all fun info =>
      info.pgn = PGN_PRODUCT_INFO := by
    decide +kernel
  rw [h] at hall
  exact of_decide_eq_true hall

/-- A frame that is heard at this time. -/
def heard (now : ℤ) (pgn : UInt32) (src dst : UInt8) (data : List UInt8) :
    List (Arrival Binary64) :=
  (quirkDatabase.decode ⟨none, 6, pgn, src, dst, data⟩).toOption.toList.map fun d => ⟨now, 0, d⟩

/-- A compass claims an address, and the product information of all is asked for. -/
def compassAsked : List (Arrival Binary64) :=
  heard 0 60928 52 255 [0x64, 0x43, 0xe0, 0xe7, 0x00, 0x8c, 0x78, 0xc0] ++
    heard 2000000000 59904 7 255 [0x14, 0xf0, 0x01]

/-- Between them a device with another function claims the address. -/
def displayAsked : List (Arrival Binary64) :=
  heard 0 60928 52 255 [0x64, 0x43, 0xe0, 0xe7, 0x00, 0x8c, 0x78, 0xc0] ++
    heard 1000000000 60928 52 255 [0x64, 0x43, 0xe0, 0xe7, 0x00, 0x82, 0x78, 0xc0] ++
    heard 2000000000 59904 7 255 [0x14, 0xf0, 0x01]

theorem isScx20_of_one {before : List (Arrival Binary64)} (hlen : before.length ≤ 1)
    (h : WasScx20 before src) : IsScx20 before src := by
  obtain ⟨a, hmem, hclaim, hscx⟩ := h
  rcases before with _ | ⟨c, rest⟩
  · cases hmem
  · obtain rfl : rest = [] := List.eq_nil_of_length_eq_zero (by simpa using hlen)
    rw [List.mem_singleton.mp hmem] at hclaim hscx
    exact ⟨c, List.find?_cons_of_pos hclaim, hscx⟩

theorem answersInTurn_compassAsked : AnswersInTurn quirkDatabase compassAsked := by
  refine answersInTurn quirkDatabase quirkDatabase_definesProductInfo compassAsked ?_ ?_
  · rw [Clocked]
    decide +kernel
  · intro before a after hsplit _ src _
    have hlen : compassAsked.length = 2 := by decide +kernel
    rw [hsplit, List.length_append, List.length_cons] at hlen
    exact isScx20_of_one (by omega)

theorem displayAsked_length : 2 < displayAsked.length := by decide +kernel

/-- The frame from the address that the compass has left is sent all the same. -/
theorem not_answersInTurn_displayAsked : ¬∀ arrivals : List (Arrival Binary64),
    Clocked arrivals → AnswersInTurn quirkDatabase arrivals := by
  intro h
  have hclock : Clocked displayAsked := by
    rw [Clocked]
    decide +kernel
  have hsplit : displayAsked = displayAsked.take 2 ++
      displayAsked.get ⟨2, displayAsked_length⟩ :: displayAsked.drop 3 := by
    rw [List.get_eq_getElem, ← List.drop_eq_getElem_cons, List.take_append_drop]
  have hanswers := (h displayAsked hclock _ _ _ hsplit).2
  have hsent : (emitted quirkDatabase (displayAsked.take 2)
      (displayAsked.get ⟨2, displayAsked_length⟩)).any (fun f => f.src = 52) = true := by
    decide +kernel
  obtain ⟨f, hf, hsrc⟩ := List.any_eq_true.mp hsent
  obtain ⟨a, ha, hscx⟩ := (hanswers f hf).1.scx20
  have hleft : ((displayAsked.take 2).reverse.find? (·.isClaimOf 52)).all
      (fun a => !a.isScx20) = true := by
    decide +kernel
  rw [of_decide_eq_true hsrc] at ha
  rw [ha, Option.all_some, hscx] at hleft
  cases hleft

end Scx20

end Canboat
