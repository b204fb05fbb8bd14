import Canboat.Bridge.Nmea0183

/-!
# What the limiter drops

A class is let through once a second. The slot is stamped before the record is looked at, so one
without the fields of a sentence keeps back the complete ones behind it.
-/

namespace Canboat.Nmea0183

variable {F : Type} [Float64 F]

/-! ## Runs -/

/-- A record, with the time when it is converted. -/
structure Arrival (F : Type) where
  now : ℕ
  d : DecodedPgn F

def run (ais : DecodedPgn F → UInt8 → List Char × UInt8) (arrivals : List (Arrival F)) :
    RateLimiter F :=
  arrivals.foldl (fun rl a => (convertNmea0183 ais a.now a.d rl).2) (newLimiter true)

/-- The class of the record, where it is not AIS. -/
def Arrival.rate (a : Arrival F) : Option Rate :=
  if isAisPgn a.d.pgn then none else rateOf a.d.id

/-- Something is sent for the record, after those before it. -/
def Emits (ais : DecodedPgn F → UInt8 → List Char × UInt8) (before : List (Arrival F))
    (a : Arrival F) : Prop :=
  (convertNmea0183 ais a.now a.d (run ais before)).1 ≠ []

/-- Something would be sent without the limit. -/
def WouldEmit (ais : DecodedPgn F → UInt8 → List Char × UInt8) (before : List (Arrival F))
    (a : Arrival F) : Prop :=
  (convertNmea0183 ais a.now a.d { run ais before with enabled := false }).1 ≠ []

/-- The records are of one source and one class. -/
def SameClass (a b : Arrival F) : Prop := a.d.src = b.d.src ∧ a.rate.isSome ∧ a.rate = b.rate

def Clocked (arrivals : List (Arrival F)) : Prop := arrivals.Pairwise fun a b => a.now ≤ b.now

/-- What is sent of one source and class is a second apart. -/
def Spaced (ais : DecodedPgn F → UInt8 → List Char × UInt8) (arrivals : List (Arrival F)) : Prop :=
  ∀ first a mid b rest, arrivals = first ++ a :: mid ++ b :: rest → SameClass a b →
    Emits ais first a → Emits ais (first ++ a :: mid) b → RATE_GAP ≤ b.now - a.now

/-- What is kept back comes within a second after something that was sent. -/
def DropsRepeats (ais : DecodedPgn F → UInt8 → List Char × UInt8) (arrivals : List (Arrival F)) :
    Prop :=
  ∀ before b rest, arrivals = before ++ b :: rest → isAisPgn b.d.pgn = false →
    WouldEmit ais before b → ¬Emits ais before b →
    ∃ first a mid, before = first ++ a :: mid ∧ SameClass a b ∧ Emits ais first a ∧
      b.now - a.now < RATE_GAP

/-- The gate of the record's class is open. -/
def Passes (ais : DecodedPgn F → UInt8 → List Char × UInt8) (before : List (Arrival F))
    (a : Arrival F) : Prop :=
  ∃ rate, a.rate = some rate ∧
    (shouldDropFast (run ais before) a.now a.d.src rate).1 = false

/-- No record that takes the slot without a sentence is followed within a second by one of its
source and class that has one. -/
def NoneWasted (ais : DecodedPgn F → UInt8 → List Char × UInt8) (arrivals : List (Arrival F)) :
    Prop :=
  ∀ first a mid b rest, arrivals = first ++ a :: mid ++ b :: rest → SameClass a b →
    Passes ais first a → ¬WouldEmit ais first a → WouldEmit ais (first ++ a :: mid) b →
    RATE_GAP ≤ b.now - a.now

/-! ## One record -/

variable {ais : DecodedPgn F → UInt8 → List Char × UInt8} {arrivals before first mid : List (Arrival F)}
  {a b : Arrival F} {rl : RateLimiter F} {d : DecodedPgn F} {now : ℕ} {rate : Rate} {src : UInt8}

theorem create_ne_nil (src : UInt8) (body : List Char) : create src body ≠ [] := List.cons_ne_nil _ _

/-- Whether a converter writes anything is a matter of the record alone. -/
theorem sentences_nil_iff (now now' : ℕ) (rl rl' : RateLimiter F) :
    (sentences rate d now rl).1 = [] ↔ (sentences rate d now' rl').1 = [] := by
  cases rate with
  | GpsSpeed =>
      simp only [sentences, sogCog]
      cases numberOf d 5 with
      | none => exact Iff.rfl
      | some sog =>
          cases numberIn d 4 "deg" with
          | none => exact Iff.rfl
          | some cog => exact iff_of_false (create_ne_nil _ _) (create_ne_nil _ _)
  | GpsPosition =>
      simp only [sentences, position]
      cases numberOf d 4 with
      | none => exact Iff.rfl
      | some lat =>
          cases numberOf d 5 with
          | none => exact Iff.rfl
          | some lon =>
              exact iff_of_false (List.append_ne_nil_of_left_ne_nil (create_ne_nil _ _) _)
                (List.append_ne_nil_of_left_ne_nil (create_ne_nil _ _) _)
  | _ => exact Iff.rfl

/-- The converters leave the slots alone. -/
theorem sentences_lastPassed (rate : Rate) (d : DecodedPgn F) (now : ℕ) (rl : RateLimiter F) :
    (sentences rate d now rl).2.lastPassed = rl.lastPassed ∧
      (sentences rate d now rl).2.enabled = rl.enabled := by
  cases rate with
  | GpsSpeed =>
      simp only [sentences, sogCog]
      cases numberOf d 5 with
      | none => exact ⟨rfl, rfl⟩
      | some sog =>
          cases numberIn d 4 "deg" with
          | none => exact ⟨rfl, rfl⟩
          | some cog => exact ⟨rfl, rfl⟩
  | _ => exact ⟨rfl, rfl⟩

omit [Float64 F] in
/-- The limiter's slots are a gate. -/
theorem shouldDropFast_eq (hon : rl.enabled = true) :
    shouldDropFast rl now src rate =
      (!Gate.passes RATE_GAP rl.lastPassed now (src, rate),
        { rl with lastPassed := Gate.step RATE_GAP rl.lastPassed (now, some (src, rate)) }) := by
  have hlimit : (!rl.enabled) = false := by
    rw [hon]
    rfl
  rw [shouldDropFast, hlimit, if_neg Bool.false_ne_true, Gate.step]
  simp only [Gate.passes]
  by_cases hslot : ((rl.lastPassed (src, rate)).any fun prev => now - prev < RATE_GAP) = true
  · simp [hslot]
  · simp [hslot]

/-- What comes to the gate with a record. -/
def Arrival.call (a : Arrival F) : ℕ × Option (UInt8 × Rate) :=
  (a.now, a.rate.map fun rate => (a.d.src, rate))

theorem convert_of_off (hon : rl.enabled = false) (hrate : a.rate = some rate) :
    (convertNmea0183 ais a.now a.d rl).1 = (sentences rate a.d a.now rl).1 := by
  rw [Arrival.rate] at hrate
  split_ifs at hrate with hais
  rw [convertNmea0183, if_neg hais, hrate]
  simp only [shouldDropFast, hon]
  rfl

theorem convert_of_on (hon : rl.enabled = true) (hrate : a.rate = some rate) :
    convertNmea0183 ais a.now a.d rl =
      if Gate.passes RATE_GAP rl.lastPassed a.now (a.d.src, rate) = true then
        sentences rate a.d a.now
          { rl with lastPassed := Gate.step RATE_GAP rl.lastPassed a.call }
      else
        ([], { rl with lastPassed := Gate.step RATE_GAP rl.lastPassed a.call }) := by
  have hcall : a.call = (a.now, some (a.d.src, rate)) := by rw [Arrival.call, hrate, Option.map_some]
  rw [Arrival.rate] at hrate
  split_ifs at hrate with hais
  rw [convertNmea0183, if_neg hais, hrate, hcall]
  simp only [shouldDropFast_eq hon]
  cases Gate.passes RATE_GAP rl.lastPassed a.now (a.d.src, rate) <;> rfl

/-- A record moves the slots as the gate does. -/
theorem convert_lastPassed (hon : rl.enabled = true) :
    (convertNmea0183 ais a.now a.d rl).2.lastPassed = Gate.step RATE_GAP rl.lastPassed a.call ∧
      (convertNmea0183 ais a.now a.d rl).2.enabled = true := by
  cases hrate : a.rate with
  | some rate =>
      rw [convert_of_on hon hrate]
      split_ifs
      · obtain ⟨hslots, hkept⟩ := sentences_lastPassed rate a.d a.now
          { rl with lastPassed := Gate.step RATE_GAP rl.lastPassed a.call }
        exact ⟨hslots, hkept.trans hon⟩
      · exact ⟨rfl, hon⟩
  | none =>
      have hcall : a.call = (a.now, none) := by rw [Arrival.call, hrate, Option.map_none]
      rw [hcall]
      rw [Arrival.rate] at hrate
      rw [convertNmea0183]
      split_ifs at hrate with hais
      · rw [if_pos hais]
        exact ⟨rfl, hon⟩
      · rw [if_neg hais, hrate]
        exact ⟨rfl, hon⟩

/-! ## Whole runs -/

theorem run_append : run ais (before ++ [a]) = (convertNmea0183 ais a.now a.d (run ais before)).2 := by
  rw [run, List.foldl_append]
  rfl

theorem run_lastPassed (ais : DecodedPgn F → UInt8 → List Char × UInt8)
    (arrivals : List (Arrival F)) :
    (run ais arrivals).lastPassed = Gate.after RATE_GAP (arrivals.map Arrival.call) ∧
      (run ais arrivals).enabled = true := by
  induction arrivals using List.reverseRecOn with
  | nil => exact ⟨rfl, rfl⟩
  | append_singleton before a ih =>
      obtain ⟨hslots, hon⟩ := ih
      obtain ⟨hstep, hkept⟩ := @convert_lastPassed F _ ais a _ hon
      rw [run_append, List.map_append, List.map_singleton, Gate.after_append, ← hslots]
      exact ⟨hstep, hkept⟩

theorem run_on (ais : DecodedPgn F → UInt8 → List Char × UInt8) (arrivals : List (Arrival F)) :
    (run ais arrivals).enabled = true := (run_lastPassed ais arrivals).2

/-- The gate that a record of a class finds open or closed. -/
def isOpen (before : List (Arrival F)) (a : Arrival F) (rate : Rate) : Bool :=
  Gate.passes RATE_GAP (Gate.after RATE_GAP (before.map Arrival.call)) a.now (a.d.src, rate)

theorem passes_iff (hrate : a.rate = some rate) :
    Passes ais before a ↔ isOpen before a rate = true := by
  have hdrop : (shouldDropFast (run ais before) a.now a.d.src rate).1 = !isOpen before a rate := by
    rw [shouldDropFast_eq (run_on ais before), (run_lastPassed ais before).1]
    rfl
  constructor
  · rintro ⟨rate', hrate', hpass⟩
    rw [hrate] at hrate'
    cases hrate'
    rw [hdrop, Bool.not_eq_false'] at hpass
    exact hpass
  · intro hopen
    refine ⟨rate, hrate, ?_⟩
    rw [hdrop, hopen]
    rfl

theorem wouldEmit_iff (hrate : a.rate = some rate) (now : ℕ) (rl : RateLimiter F) :
    WouldEmit ais before a ↔ (sentences rate a.d now rl).1 ≠ [] := by
  rw [WouldEmit, convert_of_off rfl hrate]
  exact not_congr (sentences_nil_iff _ _ _ _)

/-- A record of a class is sent where its gate is open and its fields are there. -/
theorem emits_iff (hrate : a.rate = some rate) :
    Emits ais before a ↔ isOpen before a rate = true ∧ WouldEmit ais before a := by
  rw [Emits, convert_of_on (run_on ais before) hrate, (run_lastPassed ais before).1]
  have hgate : Gate.passes RATE_GAP (Gate.after RATE_GAP (before.map Arrival.call)) a.now
      (a.d.src, rate) = isOpen before a rate := rfl
  rw [hgate]
  by_cases hopen : isOpen before a rate = true
  · rw [if_pos hopen, wouldEmit_iff hrate]
    exact (and_iff_right hopen).symm
  · rw [if_neg hopen]
    constructor
    · exact fun h => absurd rfl h
    · exact fun h => absurd h.1 hopen

/-- Without a class nothing is sent, with the limit or without. -/
theorem rate_of_wouldEmit (hais : isAisPgn a.d.pgn = false) (h : WouldEmit ais before a) :
    ∃ rate, a.rate = some rate := by
  rw [WouldEmit, convertNmea0183, if_neg (Bool.eq_false_iff.mp hais)] at h
  cases hrate : rateOf a.d.id with
  | none =>
      rw [hrate] at h
      exact absurd rfl h
  | some rate => exact ⟨rate, by rw [Arrival.rate, if_neg (Bool.eq_false_iff.mp hais), hrate]⟩

omit [Float64 F] in
theorem call_of_rate (hrate : a.rate = some rate) : a.call = (a.now, some (a.d.src, rate)) := by
  rw [Arrival.call, hrate, Option.map_some]

omit [Float64 F] in
theorem Clocked.calls (h : Clocked arrivals) :
    (arrivals.map Arrival.call).Pairwise fun x y => x.1 ≤ y.1 := by
  rw [List.pairwise_map]
  exact h

omit [Float64 F] in
/-- Two that find the gate of one slot open are the gap apart. -/
theorem gap_le (hclock : Clocked (first ++ a :: mid)) (hsrc : a.d.src = b.d.src)
    (ha : a.rate = some rate) (hfirst : isOpen first a rate = true)
    (hnow : isOpen (first ++ a :: mid) b rate = true) : RATE_GAP ≤ b.now - a.now := by
  have hcalls := hclock.calls
  rw [isOpen, List.map_append, List.map_cons, call_of_rate ha, ← hsrc] at hnow
  rw [List.map_append, List.map_cons, call_of_rate ha] at hcalls
  exact Gate.gap_le hcalls hfirst hnow

omit [Float64 F] in
/-- Where the gate is closed, one of the slot found it open within the gap before. -/
theorem opened_of_closed (hclosed : isOpen before b rate = false) :
    ∃ first a mid, before = first ++ a :: mid ∧ a.d.src = b.d.src ∧ a.rate = some rate ∧
      isOpen first a rate = true ∧ b.now - a.now < RATE_GAP := by
  obtain ⟨first', t, rest', hsplit, hpass, hlt⟩ := Gate.blocked hclosed
  obtain ⟨first, tail, rfl, rfl, htail⟩ := List.map_eq_append_iff.mp hsplit
  obtain ⟨a, mid, rfl, hcall, rfl⟩ := List.map_eq_cons_iff.mp htail
  have htime : a.now = t := congrArg Prod.fst hcall
  have hkey : a.rate.map (fun rate => (a.d.src, rate)) = some (b.d.src, rate) :=
    congrArg Prod.snd hcall
  obtain ⟨rate', hrate, heq⟩ := Option.map_eq_some_iff.mp hkey
  obtain ⟨hsrc, rfl⟩ := Prod.mk.inj heq
  subst htime
  rw [← hsrc] at hpass
  exact ⟨first, a, mid, rfl, hsrc, hrate, hpass, hlt⟩

omit [Float64 F] in
theorem sameClass_of (hsrc : a.d.src = b.d.src) (ha : a.rate = some rate) (hb : b.rate = some rate) :
    SameClass a b :=
  ⟨hsrc, by rw [ha]; rfl, ha.trans hb.symm⟩

omit [Float64 F] in
theorem SameClass.both (h : SameClass a b) : ∃ rate, a.rate = some rate ∧ b.rate = some rate := by
  obtain ⟨rate, ha⟩ := Option.isSome_iff_exists.mp h.2.1
  exact ⟨rate, ha, h.2.2 ▸ ha⟩

/-- The first law holds of every run. -/
theorem spaced (hclock : Clocked arrivals) : Spaced ais arrivals := by
  rintro first a mid b rest rfl hclass ha hb
  obtain ⟨rate, harate, hbrate⟩ := hclass.both
  rw [Clocked, List.pairwise_append] at hclock
  exact gap_le hclock.1 hclass.1 harate ((emits_iff harate).mp ha).1 ((emits_iff hbrate).mp hb).1

theorem dropsRepeats_of_noneWasted (hnone : NoneWasted ais arrivals) : DropsRepeats ais arrivals := by
  rintro before b rest rfl hais hwould hnot
  obtain ⟨rate, hb⟩ := rate_of_wouldEmit hais hwould
  have hclosed : isOpen before b rate = false := by
    by_contra hopen
    exact hnot ((emits_iff hb).mpr ⟨Bool.not_eq_false _ ▸ hopen, hwould⟩)
  obtain ⟨first, a, mid, rfl, hsrc, ha, hopen, hlt⟩ := opened_of_closed hclosed
  have hclass := sameClass_of hsrc ha hb
  refine ⟨first, a, mid, rfl, hclass, (emits_iff ha).mpr ⟨hopen, ?_⟩, hlt⟩
  by_contra hsilent
  have hgap := hnone first a mid b rest rfl hclass ((passes_iff ha).mpr hopen) hsilent hwould
  exact absurd hgap (Nat.not_le.mpr hlt)

theorem noneWasted_of_dropsRepeats (hclock : Clocked arrivals) (hdrops : DropsRepeats ais arrivals) :
    NoneWasted ais arrivals := by
  rintro first a mid b rest rfl hclass hpass hsilent hwould
  obtain ⟨rate, ha, hb⟩ := hclass.both
  have hopen := (passes_iff ha).mp hpass
  rw [Clocked, List.pairwise_append] at hclock
  by_contra hgap
  have hnot : ¬Emits ais (first ++ a :: mid) b := by
    intro hemits
    exact hgap (gap_le hclock.1 hclass.1 ha hopen ((emits_iff hb).mp hemits).1)
  have hais : isAisPgn b.d.pgn = false := by
    rw [Arrival.rate] at hb
    split_ifs at hb with h
    exact Bool.eq_false_of_not_eq_true h
  obtain ⟨first', c, mid', hsplit, hsame, hemits, hlt⟩ := hdrops _ b rest rfl hais hwould hnot
  have hc : c.rate = some rate := hsame.2.2.trans hb
  have hcopen := ((emits_iff hc).mp hemits).1
  have hsrc : c.d.src = a.d.src := hsame.1.trans hclass.1.symm
  -- the record that was sent is before the silent one, or after it
  rcases List.append_eq_append_iff.mp hsplit with ⟨gone, rfl, htail⟩ | ⟨gone, rfl, htail⟩
  · cases gone with
    | nil =>
        rw [List.nil_append] at htail
        cases htail
        rw [List.append_nil] at hemits
        exact hsilent ((emits_iff ha).mp hemits).2
    | cons x gone =>
        cases htail
        have hclock' : Clocked (first ++ a :: gone) := by
          have h : Clocked ((first ++ a :: gone) ++ c :: mid') := by
            rw [List.append_assoc, List.cons_append]
            exact hclock.1
          exact (List.pairwise_append.mp h).1
        have hac := gap_le hclock' hsrc.symm ha hopen hcopen
        have hle : c.now ≤ b.now := hclock.2.2 c (by simp) b List.mem_cons_self
        omega
  · cases gone with
    | nil =>
        rw [List.nil_append] at htail
        cases htail
        rw [List.append_nil] at hsilent hopen
        exact hsilent ((emits_iff ha).mp hemits).2
    | cons x gone =>
        cases htail
        have hclock' : Clocked (first' ++ c :: gone) := (List.pairwise_append.mp hclock.1).1
        have hca := gap_le hclock' hsrc hc hcopen hopen
        have hle : a.now ≤ b.now := hclock.2.2 a (by simp) b List.mem_cons_self
        omega

/-- What is kept back repeats what was sent, just where no record without a sentence takes the slot
of one that has one. -/
theorem spaced_and_dropsRepeats_iff (ais : DecodedPgn F → UInt8 → List Char × UInt8)
    (arrivals : List (Arrival F)) (hclock : Clocked arrivals) :
    Spaced ais arrivals ∧ DropsRepeats ais arrivals ↔ NoneWasted ais arrivals := by
  constructor
  · exact fun h => noneWasted_of_dropsRepeats hclock h.2
  · exact fun h => ⟨spaced hclock, dropsRepeats_of_noneWasted h⟩

/-! ## Two references of one sensor -/

/-- PGN 130306, of which there is one definition. -/
def windDataInfo : PgnInfo Binary64 where
  pgn := 130306
  id := windDataId
  description := "Wind Data"
  packetType := .single
  fallback := none
  priority := some 2
  length := some 8
  fields :=
    [ claimNumber 1 ⟨"sid", Eq.refl true⟩ "SID" 0 8,
      { claimNumber 2 ⟨"windSpeed", by decide⟩ "Wind Speed" 8 16 with
        resolution := some (Float64.ofRat 0.01), unit := some "m/s" },
      { claimNumber 3 ⟨"windAngle", by decide⟩ "Wind Angle" 24 16 with
        resolution := some (Float64.ofRat 0.0001), unit := some "rad" },
      { claimNumber 4 ⟨"reference", by decide⟩ "Reference" 40 3 with
        fieldType := some .lookup, lookupEnumeration := some "WIND_REFERENCE" },
      { claimNumber 5 ⟨"reserved", Eq.refl true⟩ "Reserved" 43 21 with
        fieldType := some .reserved } ]
  repeatingFieldSet1 := .none
  repeatingFieldSet2 := .none
  idIsPinned := false

def windDatabase : PgnDatabase Binary64 where
  units := .si
  pgns := [windDataInfo]
  lookups := []
  bitLookups := []
  indirectLookups := []
  fieldTypeLookups := []
  claimFlat := by decide +kernel

/-- Five metres a second from ahead, against this reference. -/
def windAt (now : ℕ) (reference : UInt8) : List (Arrival Binary64) :=
  (windDatabase.decode ⟨none, 2, 130306, 35, 255,
    [0, 0xf4, 0x01, 0, 0, reference ||| 0xf8, 0xff, 0xff]⟩).toOption.toList.map fun d => ⟨now, d⟩

def noAis (_ : DecodedPgn Binary64) (seq : UInt8) : List Char × UInt8 := ([], seq)

theorem spaced_and_dropsRepeats_iff_wind :
    Spaced noAis (windAt 0 2 ++ windAt 500000000 2) ∧
        DropsRepeats noAis (windAt 0 2 ++ windAt 500000000 2) ↔
      NoneWasted noAis (windAt 0 2 ++ windAt 500000000 2) := by
  refine spaced_and_dropsRepeats_iff noAis (windAt 0 2 ++ windAt 500000000 2) ?_
  rw [Clocked]
  decide +kernel

/-- Against true north, and half a second later against the boat. -/
def bothWinds : List (Arrival Binary64) := windAt 0 0 ++ windAt 500000000 2

theorem bothWinds_length : 1 < bothWinds.length := by decide +kernel

/-- The wind against true north has no sentence, and it keeps the apparent wind back. -/
theorem not_dropsRepeats_bothWinds : ¬∀ (ais : DecodedPgn Binary64 → UInt8 → List Char × UInt8)
    (arrivals : List (Arrival Binary64)), Clocked arrivals →
      Spaced ais arrivals ∧ DropsRepeats ais arrivals := by
  intro h
  have hclock : Clocked bothWinds := by
    rw [Clocked]
    decide +kernel
  have hsplit : bothWinds = bothWinds.take 1 ++
      bothWinds.get ⟨1, bothWinds_length⟩ :: bothWinds.drop 2 := by
    rw [List.get_eq_getElem, ← List.drop_eq_getElem_cons, List.take_append_drop]
  have hais : isAisPgn (bothWinds.get ⟨1, bothWinds_length⟩).d.pgn = false := by decide +kernel
  have hwould : WouldEmit noAis (bothWinds.take 1) (bothWinds.get ⟨1, bothWinds_length⟩) := by
    rw [WouldEmit]
    decide +kernel
  have hnot : ¬Emits noAis (bothWinds.take 1) (bothWinds.get ⟨1, bothWinds_length⟩) := by
    rw [Emits]
    decide +kernel
  obtain ⟨first, a, mid, hbefore, -, hemits, -⟩ :=
    (h noAis bothWinds hclock).2 _ _ _ hsplit hais hwould hnot
  have hlen : (bothWinds.take 1).length = 1 := by decide +kernel
  rw [hbefore, List.length_append, List.length_cons] at hlen
  obtain rfl : first = [] := List.eq_nil_of_length_eq_zero (by omega)
  have hsilent : (bothWinds.take 1).all (fun a =>
      (convertNmea0183 noAis a.now a.d (run noAis [])).1 = []) = true := by
    decide +kernel
  have hmem : a ∈ bothWinds.take 1 := by
    rw [hbefore]
    exact List.mem_cons_self
  exact hemits (of_decide_eq_true (List.all_eq_true.mp hsilent a hmem))

end Canboat.Nmea0183
