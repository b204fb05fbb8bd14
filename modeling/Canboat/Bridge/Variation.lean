import Canboat.Bridge.Quirks

/-!
# The intervals of the variation quirk

What a run of calls sends, when it evaluates the model of the Earth's field, and which sources it
asks to stop.
-/

namespace Canboat

structure WmmCall (F : Type) where
  d : DecodedPgn F
  now : ℕ
  wall : UInt64

/-- A call, the evaluation of the model that it makes, and the frames it returns. -/
structure WmmOutcome (F : Type) where
  call : WmmCall F
  evaluated : Option (Option F)
  frames : List RawFrame

namespace WmmQuirk

variable {F : Type} [Float64 F]

/-! ## The evaluations -/

/-- What the model says where a position is known. -/
def sight (env : WmmEnv F) (q : WmmQuirk F) (wall : UInt64) : Option (Option F) :=
  q.lastPos.map fun (lat, lon) => env.variationRad lat lon (dateFromDays (q.days wall))

/-- The evaluation in `maybeEmit`. -/
def evaluation (env : WmmEnv F) (q : WmmQuirk F) (now : ℕ) (wall : UInt64) : Option (Option F) :=
  if q.lastEmit.any (fun last => now - last < EMIT_INTERVAL) then none
  else if q.cachedRad.isNone ∨ q.lastCompute.all (fun t => COMPUTE_INTERVAL ≤ now - t) then
    q.sight env wall
  else none

variable {env : WmmEnv F} {q q' : WmmQuirk F} {d : DecodedPgn F} {now : ℕ} {wall : UInt64}

/-- Without an evaluation the call does not depend on the model. -/
theorem maybeEmit_of_not_evaluated (h : q.evaluation env now wall = none)
    (model : F → F → ℤ × ℕ × ℕ → Option F) :
    q.maybeEmit { env with variationRad := model } now wall = q.maybeEmit env now wall := by
  rw [maybeEmit, maybeEmit]
  cases hpos : q.lastPos with
  | none => rfl
  | some pos =>
      obtain ⟨lat, lon⟩ := pos
      dsimp only
      rw [evaluation, sight, hpos] at h
      split_ifs at h ⊢ with hthrottled hdue
      · rfl
      · cases h
      · rw [recompute, recompute, if_neg hdue, if_neg hdue]

/-- What `maybeEmit` leaves and returns. -/
structure Emitted (env : WmmEnv F) (q : WmmQuirk F) (now : ℕ) (wall : UInt64)
    (res : WmmQuirk F × Option RawFrame) : Prop where
  lastPos : res.1.lastPos = q.lastPos
  lastDays : res.1.lastDays = q.lastDays
  askedStop : res.1.askedStop = q.askedStop
  cachedRad : res.1.cachedRad = (q.evaluation env now wall).join.or q.cachedRad
  lastCompute : res.1.lastCompute =
    if (q.evaluation env now wall).isSome then some now else q.lastCompute
  silent : res.2 = none → res.1.lastEmit = q.lastEmit
  sent : ∀ f, res.2 = some f → res.1.lastEmit = some now ∧
    (∀ last ∈ q.lastEmit, EMIT_INTERVAL ≤ now - last) ∧
    ∃ rad age, res.1.cachedRad = some rad ∧ buildFrame env.db wall rad age = some f

theorem maybeEmit_emitted (env : WmmEnv F) (q : WmmQuirk F) (now : ℕ) (wall : UInt64) :
    Emitted env q now wall (q.maybeEmit env now wall) := by
  have hidle (hevaluation : q.evaluation env now wall = none) : Emitted env q now wall (q, none) := by
    refine ⟨rfl, rfl, rfl, ?_, ?_, fun _ => rfl, by rintro _ ⟨⟩⟩
    · rw [hevaluation]
      rfl
    · rw [hevaluation]
      rfl
  rw [maybeEmit]
  cases hpos : q.lastPos with
  | none =>
      apply hidle
      rw [evaluation, sight, hpos]
      split_ifs
      all_goals rfl
  | some pos =>
      obtain ⟨lat, lon⟩ := pos
      dsimp only
      split_ifs with hthrottled
      · apply hidle
        rw [evaluation, if_pos hthrottled]
      · have hdue : ∀ last ∈ q.lastEmit, EMIT_INTERVAL ≤ now - last := by
          intro last hlast
          rw [hlast] at hthrottled
          exact Nat.not_lt.mp fun hlt => hthrottled (decide_eq_true hlt)
        have hcached : (q.recompute env now wall lat lon).cachedRad =
            (q.evaluation env now wall).join.or q.cachedRad := by
          rw [recompute, evaluation, if_neg hthrottled, sight, hpos]
          split_ifs
          all_goals rfl
        have hcompute : (q.recompute env now wall lat lon).lastCompute =
            if (q.evaluation env now wall).isSome then some now else q.lastCompute := by
          rw [recompute, evaluation, if_neg hthrottled, sight, hpos]
          split_ifs
          all_goals first | rfl | contradiction
        have hkept : (q.recompute env now wall lat lon).lastPos = q.lastPos ∧
            (q.recompute env now wall lat lon).lastDays = q.lastDays ∧
            (q.recompute env now wall lat lon).askedStop = q.askedStop := by
          rw [recompute]
          split_ifs
          all_goals exact ⟨rfl, rfl, rfl⟩
        have hlast : (q.recompute env now wall lat lon).lastEmit = q.lastEmit := recompute_lastEmit
        cases hframe : (q.recompute env now wall lat lon).cachedRad.bind fun rad =>
            buildFrame env.db wall rad ((q.recompute env now wall lat lon).days wall) with
        | none => exact ⟨hkept.1, hkept.2.1, hkept.2.2, hcached, hcompute, fun _ => hlast, by rintro _ ⟨⟩⟩
        | some frame =>
            refine ⟨hkept.1, hkept.2.1, hkept.2.2, hcached, hcompute, by rintro ⟨⟩, ?_⟩
            intro f hf
            cases hf
            obtain ⟨rad, hrad, hbuild⟩ := Option.bind_eq_some_iff.mp hframe
            exact ⟨rfl, hdue, rad, _, hrad, hbuild⟩

/-! ## What is observed -/

/-- The quirks know the same position and date. -/
def SameView (q q' : WmmQuirk F) : Prop := q.lastPos = q'.lastPos ∧ q.lastDays = q'.lastDays

theorem observePosition_view (h : SameView q q') (d : DecodedPgn F) (latOrder lonOrder : UInt8) :
    SameView (q.observePosition d latOrder lonOrder) (q'.observePosition d latOrder lonOrder) := by
  rw [observePosition, observePosition]
  split
  · exact ⟨rfl, h.2⟩
  · exact h

theorem observeDate_view (h : SameView q q') (d : DecodedPgn F) (order : UInt8) :
    SameView (q.observeDate d order) (q'.observeDate d order) := by
  rw [observeDate, observeDate]
  split
  · split_ifs
    · exact ⟨h.1, rfl⟩
    · exact h
  · exact h

theorem maybeRequestStop_view (q : WmmQuirk F) (d : DecodedPgn F) :
    SameView (q.maybeRequestStop d).1 q := by
  rw [maybeRequestStop]
  split
  · exact ⟨rfl, rfl⟩
  · split_ifs
    all_goals exact ⟨rfl, rfl⟩

/-- What is observed of a record does not depend on the rest of the quirk. -/
theorem observe_view (h : SameView q q') (d : DecodedPgn F) :
    SameView (q.observe d).1 (q'.observe d).1 := by
  rw [observe, observe]
  split_ifs
  · exact observePosition_view h d 1 2
  · exact observeDate_view (observePosition_view h d 4 5) d 2
  · exact observeDate_view h d 4
  · obtain ⟨hpos, hdays⟩ := maybeRequestStop_view q d
    obtain ⟨hpos', hdays'⟩ := maybeRequestStop_view q' d
    exact ⟨(hpos.trans h.1).trans hpos'.symm, (hdays.trans h.2).trans hdays'.symm⟩
  · exact h

/-- The timers and the cache are left alone. -/
structure Observed (q q' : WmmQuirk F) : Prop where
  cachedRad : q'.cachedRad = q.cachedRad
  lastCompute : q'.lastCompute = q.lastCompute
  lastEmit : q'.lastEmit = q.lastEmit
  /-- A position that is known stays known. -/
  lastPos : q.lastPos.isSome → q'.lastPos.isSome

omit [Float64 F] in
theorem Observed.trans {q'' : WmmQuirk F} (h : Observed q q') (h' : Observed q' q'') :
    Observed q q'' where
  cachedRad := h'.cachedRad.trans h.cachedRad
  lastCompute := h'.lastCompute.trans h.lastCompute
  lastEmit := h'.lastEmit.trans h.lastEmit
  lastPos := fun hpos => h'.lastPos (h.lastPos hpos)

theorem observed_observePosition (q : WmmQuirk F) (d : DecodedPgn F) (latOrder lonOrder : UInt8) :
    Observed q (q.observePosition d latOrder lonOrder) := by
  rw [observePosition]
  split
  · exact ⟨rfl, rfl, rfl, fun _ => rfl⟩
  · exact ⟨rfl, rfl, rfl, id⟩

theorem observed_observeDate (q : WmmQuirk F) (d : DecodedPgn F) (order : UInt8) :
    Observed q (q.observeDate d order) := by
  rw [observeDate]
  split
  · split_ifs
    all_goals exact ⟨rfl, rfl, rfl, id⟩
  · exact ⟨rfl, rfl, rfl, id⟩

theorem observed_observe (q : WmmQuirk F) (d : DecodedPgn F) : Observed q (q.observe d).1 := by
  rw [observe]
  split_ifs
  · exact observed_observePosition q d 1 2
  · exact (observed_observePosition q d 4 5).trans (observed_observeDate _ d 2)
  · exact observed_observeDate q d 4
  · rw [maybeRequestStop]
    split
    · exact ⟨rfl, rfl, rfl, id⟩
    · split_ifs
      all_goals exact ⟨rfl, rfl, rfl, id⟩
  · exact ⟨rfl, rfl, rfl, id⟩

/-! ## The requests to stop -/

def stopRequest (src : UInt8) : RawFrame := requestIntervalFrame src PGN_MAGNETIC_VARIATION 0 none none

theorem stopRequest_inj {src src' : UInt8} (h : stopRequest src = stopRequest src') : src = src' :=
  congrArg RawFrame.dst h

/-- The variation is one of an older model. -/
def OlderModel (d : DecodedPgn F) : Prop :=
  d.pgn = PGN_MAGNETIC_VARIATION ∧
    ∃ source, (d.field 2).bind (·.value.asI64) = some source ∧ 4 ≤ source ∧ source ≤ 8

/-- A record asks its own source to stop, once, or no one. -/
theorem observe_stop (q : WmmQuirk F) (d : DecodedPgn F) :
    ((q.observe d).2 = none ∧ (q.observe d).1.askedStop = q.askedStop) ∨
    ((q.observe d).2 = some (stopRequest d.src) ∧ OlderModel d ∧ q.askedStop d.src = false ∧
      (q.observe d).1.askedStop = Function.update q.askedStop d.src true) := by
  have hposition (q : WmmQuirk F) (latOrder lonOrder : UInt8) :
      (q.observePosition d latOrder lonOrder).askedStop = q.askedStop := by
    rw [observePosition]
    split
    all_goals rfl
  have hdate (q : WmmQuirk F) (order : UInt8) : (q.observeDate d order).askedStop = q.askedStop := by
    rw [observeDate]
    split
    · split_ifs
      all_goals rfl
    · rfl
  rw [observe]
  split_ifs with hrapid hgnss htime hvariation
  · exact Or.inl ⟨rfl, hposition q 1 2⟩
  · exact Or.inl ⟨rfl, (hdate _ 2).trans (hposition q 4 5)⟩
  · exact Or.inl ⟨rfl, hdate q 4⟩
  · rw [maybeRequestStop]
    split
    · exact Or.inl ⟨rfl, rfl⟩
    next source hsource =>
      split_ifs with hskip
      · exact Or.inl ⟨rfl, rfl⟩
      · rw [not_or, not_not, Bool.not_eq_true] at hskip
        exact Or.inr ⟨rfl, ⟨hvariation, source, hsource, hskip.1⟩, hskip.2, rfl⟩
  · exact Or.inl ⟨rfl, rfl⟩

/-- A variation goes out from the own node, so it is no request to stop. -/
theorem buildFrame_src {db : PgnDatabase F} {rad : F} {age : UInt16} {f : RawFrame}
    (h : buildFrame db wall rad age = some f) : f.src = ADDR_GLOBAL := by
  have hmessage : variationMessage db wall rad age = .ok f := by
    rw [buildFrame] at h
    cases hm : variationMessage db wall rad age with
    | error e =>
        rw [hm] at h
        cases h
    | ok g =>
        rw [hm] at h
        cases h
        rfl
  rw [variationMessage] at hmessage
  obtain ⟨b, -, h⟩ := encoded_bind_ok hmessage
  obtain ⟨b1, h1, h⟩ := encoded_bind_ok h
  obtain ⟨b2, h2, h⟩ := encoded_bind_ok h
  obtain ⟨b3, h3, h⟩ := encoded_bind_ok h
  have hkept := (PgnBuilder.push_kept h1).trans <|
    (PgnBuilder.push_kept h2).trans (PgnBuilder.push_kept h3)
  rw [(PgnBuilder.build_header h).2, hkept.src]

/-! ## Runs -/

variable (env) in
def step (q : WmmQuirk F) (c : WmmCall F) : WmmQuirk F × WmmOutcome F :=
  let res := q.process env c.d c.now c.wall
  (res.1, ⟨c, (q.observe c.d).1.evaluation env c.now c.wall, res.2⟩)

variable (env) in
def outcomes : WmmQuirk F → List (WmmCall F) → List (WmmOutcome F)
  | _, [] => []
  | q, c :: rest => (q.step env c).2 :: outcomes (q.step env c).1 rest

variable (env) in
/-- The quirk after the calls. -/
def after (q : WmmQuirk F) (calls : List (WmmCall F)) : WmmQuirk F :=
  calls.foldl (fun q c => (q.step env c).1) q

/-- What the calls tell of position and date. -/
def known (q : WmmQuirk F) (calls : List (WmmCall F)) : WmmQuirk F :=
  calls.foldl (fun q c => (q.observe c.d).1) q

variable (env) in
/-- What the model says at each call where a position is known. -/
def sights : WmmQuirk F → List (WmmCall F) → List (Option F)
  | _, [] => []
  | q, c :: rest => ((q.observe c.d).1.sight env c.wall).toList ++ sights (q.observe c.d).1 rest

theorem outcomes_append (q : WmmQuirk F) (calls calls' : List (WmmCall F)) :
    outcomes env q (calls ++ calls') =
      outcomes env q calls ++ outcomes env (after env q calls) calls' := by
  induction calls generalizing q with
  | nil => rfl
  | cons c rest ih =>
      rw [List.cons_append, outcomes, outcomes, ih, List.cons_append]
      rfl

theorem sights_append (q : WmmQuirk F) (calls calls' : List (WmmCall F)) :
    sights env q (calls ++ calls') = sights env q calls ++ sights env (known q calls) calls' := by
  induction calls generalizing q with
  | nil => rfl
  | cons c rest ih =>
      rw [List.cons_append, sights, sights, ih, List.append_assoc]
      rfl

theorem after_snoc (q : WmmQuirk F) (calls : List (WmmCall F)) (c : WmmCall F) :
    after env q (calls ++ [c]) = ((after env q calls).step env c).1 := by
  rw [after, List.foldl_append]
  rfl

theorem known_snoc (q : WmmQuirk F) (calls : List (WmmCall F)) (c : WmmCall F) :
    known q (calls ++ [c]) = ((known q calls).observe c.d).1 := by
  rw [known, List.foldl_append]
  rfl

theorem outcomes_snoc (q : WmmQuirk F) (calls : List (WmmCall F)) (c : WmmCall F) :
    outcomes env q (calls ++ [c]) =
      outcomes env q calls ++ [((after env q calls).step env c).2] := by
  rw [outcomes_append]
  rfl

theorem sights_snoc (q : WmmQuirk F) (calls : List (WmmCall F)) (c : WmmCall F) :
    sights env q (calls ++ [c]) =
      sights env q calls ++ (((known q calls).observe c.d).1.sight env c.wall).toList := by
  rw [sights_append, sights, sights, List.append_nil]

/-- The 127258 frames with the times they are sent at. -/
def emissions (h : List (WmmOutcome F)) : List (ℕ × RawFrame) :=
  h.flatMap fun o => (o.frames.filter (·.pgn = PGN_MAGNETIC_VARIATION)).map (o.call.now, ·)

/-- The evaluations of the model with their times. -/
def evaluations (h : List (WmmOutcome F)) : List (ℕ × Option F) :=
  h.filterMap fun o => o.evaluated.map (o.call.now, ·)

/-- The value of the latest evaluation that had one. -/
def latestValue (h : List (WmmOutcome F)) : Option F :=
  ((evaluations h).filterMap Prod.snd).getLast?

/-- What is said of the intervals of a run. -/
structure KeepsIntervals (env : WmmEnv F) (h : List (WmmOutcome F)) : Prop where
  emissions : (emissions h).Pairwise fun a b => a.1 + EMIT_INTERVAL ≤ b.1
  evaluations : (evaluations h).Pairwise fun a b => a.1 + COMPUTE_INTERVAL ≤ b.1
  latest : ∀ pre o post, h = pre ++ o :: post → ∀ f ∈ o.frames, f.pgn = PGN_MAGNETIC_VARIATION →
    ∃ rad age, latestValue (pre ++ [o]) = some rad ∧
      buildFrame env.db o.call.wall rad age = some f
  stopsOnce : ∀ src, (h.flatMap (·.frames)).count (stopRequest src) ≤ 1
  stopsOlder : ∀ o ∈ h, ∀ src, stopRequest src ∈ o.frames →
    OlderModel o.call.d ∧ o.call.d.src = src

/-- While the model has said nothing since a position is known, each call is followed by no other
within the interval of the evaluations. -/
def Patient (env : WmmEnv F) (calls : List (WmmCall F)) : Prop :=
  ∀ pre c c' post, calls = pre ++ c :: c' :: post → sights env new (pre ++ [c]) ≠ [] →
    (∀ v ∈ sights env new (pre ++ [c]), v = none) → c.now + COMPUTE_INTERVAL ≤ c'.now

/-! ## One call of a run -/

omit [Float64 F] in
theorem sight_view (h : SameView q q') : q.sight env wall = q'.sight env wall := by
  rw [sight, sight, days, days, h.1, h.2]

omit [Float64 F] in
theorem sight_eq_none_iff : q.sight env wall = none ↔ q.lastPos = none := by
  rw [sight, Option.map_eq_none_iff]

omit [Float64 F] in
/-- A quirk that has no value and has sent nothing evaluates the model at each call. -/
theorem evaluation_of_blind (hcached : q.cachedRad = none) (hlast : q.lastEmit = none) :
    q.evaluation env now wall = q.sight env wall := by
  rw [evaluation, hlast, hcached]
  rfl

omit [Float64 F] in
theorem emissions_append (h h' : List (WmmOutcome F)) :
    emissions (h ++ h') = emissions h ++ emissions h' := List.flatMap_append

omit [Float64 F] in
theorem evaluations_append (h h' : List (WmmOutcome F)) :
    evaluations (h ++ h') = evaluations h ++ evaluations h' := List.filterMap_append

omit [Float64 F] in
theorem evaluations_one (o : WmmOutcome F) :
    evaluations [o] = (o.evaluated.map (o.call.now, ·)).toList := by
  rw [evaluations, List.filterMap_cons]
  cases o.evaluated with
  | none => rfl
  | some v => rfl

omit [Float64 F] in
theorem latestValue_snoc (h : List (WmmOutcome F)) (o : WmmOutcome F) :
    latestValue (h ++ [o]) = o.evaluated.join.or (latestValue h) := by
  rw [latestValue, evaluations_append, evaluations_one, List.filterMap_append]
  cases o.evaluated with
  | none =>
      rw [Option.map_none, Option.toList_none, List.filterMap_nil, List.append_nil]
      rfl
  | some v =>
      cases v with
      | none =>
          rw [Option.map_some, Option.toList_some]
          exact congrArg List.getLast? (List.append_nil _)
      | some rad => exact List.getLast?_concat

/-- The frames of a call: a request to stop, then a variation. -/
theorem step_frames (env : WmmEnv F) (q : WmmQuirk F) (c : WmmCall F) :
    (q.step env c).2.frames =
      (q.observe c.d).2.toList ++ ((q.observe c.d).1.maybeEmit env c.now c.wall).2.toList := rfl

/-- The variations among the frames of a call. -/
theorem mem_variations {c : WmmCall F} {f : RawFrame} (hf : f ∈ (q.step env c).2.frames)
    (hpgn : f.pgn = PGN_MAGNETIC_VARIATION) :
    ((q.observe c.d).1.maybeEmit env c.now c.wall).2 = some f := by
  rw [step_frames] at hf
  rcases List.mem_append.mp hf with hf | hf
  · exfalso
    have hstop := ((q.observe_spec c.d).2 f (Option.mem_toList.mp hf)).2
    rw [hpgn] at hstop
    exact absurd hstop (by decide)
  · exact Option.mem_toList.mp hf

/-- The requests to stop among the frames of a call. -/
theorem mem_stops {c : WmmCall F} {src : UInt8} (hf : stopRequest src ∈ (q.step env c).2.frames) :
    (q.observe c.d).2 = some (stopRequest src) := by
  rw [step_frames] at hf
  rcases List.mem_append.mp hf with hf | hf
  · exact Option.mem_toList.mp hf
  · obtain ⟨-, -, rad, age, -, hbuild⟩ :=
      (maybeEmit_emitted env (q.observe c.d).1 c.now c.wall).sent _ (Option.mem_toList.mp hf)
    have hsrc := buildFrame_src hbuild
    have hlocal : (stopRequest src).src = LOCAL_SRC := rfl
    rw [hlocal] at hsrc
    exact absurd hsrc (by decide)

theorem emissions_step (env : WmmEnv F) (q : WmmQuirk F) (c : WmmCall F) :
    (emissions [(q.step env c).2]).Pairwise (fun a b => a.1 + EMIT_INTERVAL ≤ b.1) ∧
    ∀ e ∈ emissions [(q.step env c).2], e.1 = c.now ∧
      ((q.observe c.d).1.maybeEmit env c.now c.wall).2 = some e.2 := by
  have hsplit : emissions [(q.step env c).2] =
      (((q.step env c).2.frames.filter (·.pgn = PGN_MAGNETIC_VARIATION)).map (c.now, ·)) := by
    rw [emissions, List.flatMap_singleton]
    rfl
  constructor
  · -- at most one of the frames is a variation
    have hstop : ((q.observe c.d).2.toList.filter (·.pgn = PGN_MAGNETIC_VARIATION)) = [] := by
      rw [List.filter_eq_nil_iff]
      intro f hf hpgn
      have hother := ((q.observe_spec c.d).2 f (Option.mem_toList.mp hf)).2
      rw [of_decide_eq_true hpgn] at hother
      exact absurd hother (by decide)
    rw [hsplit, step_frames, List.filter_append, hstop, List.nil_append]
    cases ((q.observe c.d).1.maybeEmit env c.now c.wall).2 with
    | none => exact List.Pairwise.nil
    | some f =>
        rw [Option.toList_some, List.filter_singleton]
        cases decide (f.pgn = PGN_MAGNETIC_VARIATION) with
        | true => exact List.pairwise_singleton _ _
        | false => exact List.Pairwise.nil
  · intro e he
    rw [hsplit] at he
    obtain ⟨f, hf, rfl⟩ := List.mem_map.mp he
    obtain ⟨hframe, hpgn⟩ := List.mem_filter.mp hf
    exact ⟨rfl, mem_variations hframe (of_decide_eq_true hpgn)⟩

/-! ## Whole runs -/

/-- What the quirk holds after the calls, and what the run shows of it. -/
structure Ledger (env : WmmEnv F) (calls : List (WmmCall F)) (q : WmmQuirk F)
    (h : List (WmmOutcome F)) : Prop where
  view : SameView q (known new calls)
  sighted : sights env new calls ≠ [] → q.lastPos.isSome
  blind : q.cachedRad = none ↔ ∀ v ∈ sights env new calls, v = none
  silent : q.cachedRad = none → q.lastEmit = none
  cached : q.cachedRad = latestValue h
  emitted : ∀ e ∈ emissions h, ∃ last, q.lastEmit = some last ∧ e.1 ≤ last
  evaluated : ∀ e ∈ evaluations h, ∃ c ∈ calls, e.1 = c.now
  computed : ∀ e ∈ evaluations h, ∃ t, q.lastCompute = some t ∧ e.1 ≤ t
  placed : q.lastCompute.isSome → q.lastPos.isSome
  asked : ∀ src, (h.flatMap (·.frames)).count (stopRequest src) =
    if q.askedStop src = true then 1 else 0

theorem ledger_new (env : WmmEnv F) : Ledger env [] new [] where
  view := ⟨rfl, rfl⟩
  sighted := fun h => absurd rfl h
  blind := iff_of_true rfl (by nofun)
  silent := fun _ => rfl
  cached := rfl
  emitted := nofun
  evaluated := nofun
  computed := nofun
  placed := nofun
  asked := fun _ => rfl

variable {calls : List (WmmCall F)} {c : WmmCall F} {h : List (WmmOutcome F)}

/-- A call without a throttle that knows a position evaluates the model while it has no value. -/
theorem Ledger.evaluation_eq (hq : Ledger env calls q h) (hcached : q.cachedRad = none)
    (c : WmmCall F) :
    (q.observe c.d).1.evaluation env c.now c.wall =
      ((known new calls).observe c.d).1.sight env c.wall := by
  have hobserved := observed_observe q c.d
  rw [evaluation_of_blind (hobserved.cachedRad.trans hcached)
    (hobserved.lastEmit.trans (hq.silent hcached))]
  exact sight_view (observe_view hq.view c.d)

omit [Float64 F] in
/-- An evaluation is of what the model says of the observed position and date. -/
theorem evaluation_eq_or (env : WmmEnv F) (q : WmmQuirk F) (now : ℕ) (wall : UInt64) :
    q.evaluation env now wall = none ∨ q.evaluation env now wall = q.sight env wall := by
  rw [evaluation]
  split_ifs
  · exact Or.inl rfl
  · exact Or.inr rfl
  · exact Or.inl rfl

theorem Ledger.snoc (hq : Ledger env calls q h) (hsorted : ∀ c' ∈ calls, c'.now ≤ c.now) :
    Ledger env (calls ++ [c]) (q.step env c).1 (h ++ [(q.step env c).2]) := by
  have hobserved := observed_observe q c.d
  have hview := observe_view hq.view c.d
  have hemitted := maybeEmit_emitted env (q.observe c.d).1 c.now c.wall
  have hsight : (q.observe c.d).1.sight env c.wall =
      ((known new calls).observe c.d).1.sight env c.wall := sight_view hview
  have hcached : (q.step env c).1.cachedRad =
      ((q.observe c.d).1.evaluation env c.now c.wall).join.or q.cachedRad :=
    hemitted.cachedRad.trans (by rw [hobserved.cachedRad])
  have hcompute : (q.step env c).1.lastCompute =
      if ((q.observe c.d).1.evaluation env c.now c.wall).isSome then some c.now
      else q.lastCompute :=
    hemitted.lastCompute.trans (by rw [hobserved.lastCompute])
  have hlastPos : (q.step env c).1.lastPos = (q.observe c.d).1.lastPos := hemitted.lastPos
  refine ⟨?_, ?_, ?_, ?_, ?_, ?_, ?_, ?_, ?_, ?_⟩
  · rw [known_snoc]
    exact ⟨hlastPos.trans hview.1, hemitted.lastDays.trans hview.2⟩
  · intro hsights
    rw [sights_snoc, ← hsight] at hsights
    rw [hlastPos]
    by_cases hbefore : sights env new calls = []
    · rw [hbefore, List.nil_append] at hsights
      rw [Option.isSome_iff_ne_none]
      intro hnone
      rw [sight_eq_none_iff.mpr hnone] at hsights
      exact hsights rfl
    · exact hobserved.lastPos (hq.sighted hbefore)
  · rw [hcached, sights_snoc, ← hsight]
    constructor
    · intro hnone v hv
      obtain ⟨hjoin, hblind⟩ := Option.or_eq_none_iff.mp hnone
      rcases List.mem_append.mp hv with hv | hv
      · exact hq.blind.mp hblind v hv
      · rw [hq.evaluation_eq hblind, ← hsight, Option.mem_toList.mp hv] at hjoin
        exact hjoin
    · intro hall
      have hblind : q.cachedRad = none :=
        hq.blind.mpr fun v hv => hall v (List.mem_append_left _ hv)
      rw [hblind, Option.or_none]
      rcases evaluation_eq_or env (q.observe c.d).1 c.now c.wall with hnone | hsame
      · rw [hnone]
        rfl
      · rw [hsame]
        cases hv : (q.observe c.d).1.sight env c.wall with
        | none => rfl
        | some v =>
            have hmem : v ∈ ((q.observe c.d).1.sight env c.wall).toList := by
              rw [hv]
              exact List.mem_singleton_self v
            rw [hall v (List.mem_append_right _ hmem)]
            rfl
  · intro hnone
    change ((q.observe c.d).1.maybeEmit env c.now c.wall).1.lastEmit = none
    have hblind := (Option.or_eq_none_iff.mp (hcached.symm.trans hnone)).2
    cases hres : ((q.observe c.d).1.maybeEmit env c.now c.wall).2 with
    | none => rw [hemitted.silent hres, hobserved.lastEmit, hq.silent hblind]
    | some f =>
        obtain ⟨-, -, rad, age, hrad, -⟩ := hemitted.sent f hres
        exact absurd (hrad.symm.trans hnone) nofun
  · rw [latestValue_snoc, ← hq.cached]
    exact hcached
  · intro e he
    rw [emissions_append] at he
    change ∃ last, ((q.observe c.d).1.maybeEmit env c.now c.wall).1.lastEmit = some last ∧ e.1 ≤ last
    rcases List.mem_append.mp he with he | he
    · obtain ⟨last, hlast, hle⟩ := hq.emitted e he
      cases hres : ((q.observe c.d).1.maybeEmit env c.now c.wall).2 with
      | none =>
          rw [hemitted.silent hres, hobserved.lastEmit]
          exact ⟨last, hlast, hle⟩
      | some f =>
          obtain ⟨hnow, hdue, -⟩ := hemitted.sent f hres
          have hafter := hdue last (hobserved.lastEmit.trans hlast)
          have hpos : 0 < EMIT_INTERVAL := by decide
          exact ⟨c.now, hnow, by omega⟩
    · obtain ⟨hnow, hres⟩ := (emissions_step env q c).2 e he
      exact ⟨c.now, (hemitted.sent e.2 hres).1, hnow.le⟩
  · intro e he
    rw [evaluations_append, evaluations_one] at he
    rcases List.mem_append.mp he with he | he
    · obtain ⟨c', hc', htime⟩ := hq.evaluated e he
      exact ⟨c', List.mem_append_left _ hc', htime⟩
    · obtain ⟨v, -, rfl⟩ := Option.map_eq_some_iff.mp (Option.mem_toList.mp he)
      exact ⟨c, List.mem_append_right _ (List.mem_singleton_self c), rfl⟩
  · intro e he
    rw [hcompute]
    rw [evaluations_append, evaluations_one] at he
    rcases List.mem_append.mp he with he | he
    · split_ifs
      · obtain ⟨c', hc', htime⟩ := hq.evaluated e he
        exact ⟨c.now, rfl, htime.trans_le (hsorted c' hc')⟩
      · exact hq.computed e he
    · obtain ⟨v, hv, rfl⟩ := Option.map_eq_some_iff.mp (Option.mem_toList.mp he)
      have hsome : ((q.observe c.d).1.evaluation env c.now c.wall).isSome = true :=
        Option.isSome_iff_exists.mpr ⟨v, hv⟩
      rw [if_pos hsome]
      exact ⟨c.now, rfl, le_rfl⟩
  · rw [hcompute, hlastPos]
    split_ifs with hsome
    · intro _
      rcases evaluation_eq_or env (q.observe c.d).1 c.now c.wall with hnone | hsame
      · rw [hnone] at hsome
        cases hsome
      · rw [hsame, sight, Option.isSome_map] at hsome
        exact hsome
    · exact fun hcomputed => hobserved.lastPos (hq.placed hcomputed)
  · intro src
    rw [List.flatMap_append, List.count_append, hq.asked src, List.flatMap_singleton]
    change _ = if ((q.observe c.d).1.maybeEmit env c.now c.wall).1.askedStop src = true then 1 else 0
    rw [hemitted.askedStop, step_frames, List.count_append]
    have hvariation : ((q.observe c.d).1.maybeEmit env c.now c.wall).2.toList.count
        (stopRequest src) = 0 := by
      apply List.count_eq_zero.mpr
      intro hmem
      obtain ⟨-, -, rad, age, -, hbuild⟩ := hemitted.sent _ (Option.mem_toList.mp hmem)
      have hsrc := buildFrame_src hbuild
      have hlocal : (stopRequest src).src = LOCAL_SRC := rfl
      rw [hlocal] at hsrc
      exact absurd hsrc (by decide)
    rw [hvariation, Nat.add_zero]
    rcases observe_stop q c.d with ⟨hnone, hasked⟩ | ⟨hsome, -, hfresh, hasked⟩
    · rw [hnone, hasked]
      rfl
    · rw [hsome, hasked, Option.toList_some]
      by_cases hsrc : src = c.d.src
      · rw [hsrc, Function.update_self, hfresh, List.count_singleton_self]
        rfl
      · have hother : stopRequest c.d.src ≠ stopRequest src := fun hsame =>
          hsrc (stopRequest_inj hsame).symm
        rw [Function.update_of_ne hsrc, List.count_cons_of_ne hother]
        rfl

theorem ledger_run (env : WmmEnv F) (hsorted : (calls.map (·.now)).Pairwise (· ≤ ·)) :
    Ledger env calls (after env new calls) (outcomes env new calls) := by
  induction calls using List.reverseRecOn with
  | nil => exact ledger_new env
  | append_singleton calls c ih =>
      rw [List.map_append, List.pairwise_append] at hsorted
      rw [after_snoc, outcomes_snoc]
      apply (ih hsorted.1).snoc
      intro c' hc'
      exact hsorted.2.2 _ (List.mem_map_of_mem hc') _ (List.mem_singleton_self _)

/-- A call of the run, among its outcomes. -/
theorem outcomes_split {q : WmmQuirk F} {calls : List (WmmCall F)} {pre post : List (WmmOutcome F)}
    {o : WmmOutcome F} (h : outcomes env q calls = pre ++ o :: post) :
    ∃ before c after', calls = before ++ c :: after' ∧ pre = outcomes env q before ∧
      o = ((after env q before).step env c).2 := by
  induction pre generalizing q calls with
  | nil =>
      cases calls with
      | nil => cases h
      | cons c rest =>
          obtain ⟨ho, -⟩ := List.cons.inj h
          exact ⟨[], c, rest, rfl, rfl, ho.symm⟩
  | cons p pre ih =>
      cases calls with
      | nil => cases h
      | cons c rest =>
          obtain ⟨hp, htail⟩ := List.cons.inj h
          obtain ⟨before, c', after', hcalls, hpre, ho⟩ := ih htail
          refine ⟨c :: before, c', after', ?_, ?_, ho⟩
          · rw [hcalls, List.cons_append]
          · rw [outcomes, hpre, hp]

omit [Float64 F] in
theorem sorted_of_append {calls calls' : List (WmmCall F)}
    (h : ((calls ++ calls').map (·.now)).Pairwise (· ≤ ·)) :
    (calls.map (·.now)).Pairwise (· ≤ ·) := by
  rw [List.map_append, List.pairwise_append] at h
  exact h.1

theorem emissions_apart (hsorted : (calls.map (·.now)).Pairwise (· ≤ ·)) :
    (emissions (outcomes env new calls)).Pairwise fun a b => a.1 + EMIT_INTERVAL ≤ b.1 := by
  induction calls using List.reverseRecOn with
  | nil => exact List.Pairwise.nil
  | append_singleton calls c ih =>
      have hbefore := sorted_of_append hsorted
      have hledger := ledger_run env hbefore
      obtain ⟨hone, hsent⟩ := emissions_step env (after env new calls) c
      rw [outcomes_snoc, emissions_append, List.pairwise_append]
      refine ⟨ih hbefore, hone, ?_⟩
      intro a ha b hb
      obtain ⟨last, hlast, hle⟩ := hledger.emitted a ha
      obtain ⟨hnow, hres⟩ := hsent b hb
      have hemitted := maybeEmit_emitted env ((after env new calls).observe c.d).1 c.now c.wall
      have hdue := (hemitted.sent b.2 hres).2.1 last
        ((observed_observe _ c.d).lastEmit.trans hlast)
      have hpos : 0 < EMIT_INTERVAL := by decide
      omega

/-- Once a position is known, a call of a quirk without a value is an evaluation. -/
theorem Ledger.evaluates (hq : Ledger env calls q h) (hcached : q.cachedRad = none)
    (hpos : (q.observe c.d).1.lastPos.isSome) :
    ∃ v, (q.step env c).2.evaluated = some v ∧ (q.step env c).1.lastCompute = some c.now := by
  have hobserved := observed_observe q c.d
  have hevaluation : (q.observe c.d).1.evaluation env c.now c.wall =
      (q.observe c.d).1.sight env c.wall :=
    evaluation_of_blind (hobserved.cachedRad.trans hcached)
      (hobserved.lastEmit.trans (hq.silent hcached))
  have hsome : ((q.observe c.d).1.evaluation env c.now c.wall).isSome := by
    rw [hevaluation, sight, Option.isSome_map]
    exact hpos
  obtain ⟨v, hv⟩ := Option.isSome_iff_exists.mp hsome
  have hcompute := (maybeEmit_emitted env (q.observe c.d).1 c.now c.wall).lastCompute
  rw [if_pos hsome] at hcompute
  exact ⟨v, hv, hcompute⟩

theorem Patient.of_append {calls calls' : List (WmmCall F)} (h : Patient env (calls ++ calls')) :
    Patient env calls := by
  intro pre c c' post hcalls
  refine h pre c c' (post ++ calls') ?_
  rw [hcalls, List.append_assoc]
  rfl

theorem evaluations_apart (hsorted : (calls.map (·.now)).Pairwise (· ≤ ·)) (hpatient : Patient env calls) :
    (evaluations (outcomes env new calls)).Pairwise fun a b => a.1 + COMPUTE_INTERVAL ≤ b.1 := by
  induction calls using List.reverseRecOn with
  | nil => exact List.Pairwise.nil
  | append_singleton calls c ih =>
      have hbefore := sorted_of_append hsorted
      have hledger := ledger_run env hbefore
      rw [outcomes_snoc, evaluations_append, evaluations_one, List.pairwise_append]
      refine ⟨ih hbefore hpatient.of_append, ?_, ?_⟩
      · cases ((after env new calls).step env c).2.evaluated with
        | none => exact List.Pairwise.nil
        | some v => exact List.pairwise_singleton _ _
      intro a ha b hb
      obtain ⟨v, hv, rfl⟩ := Option.map_eq_some_iff.mp (Option.mem_toList.mp hb)
      obtain ⟨t, ht, hle⟩ := hledger.computed a ha
      have hobserved := observed_observe (after env new calls) c.d
      change ((after env new calls).observe c.d).1.evaluation env c.now c.wall = some v at hv
      rw [evaluation, hobserved.cachedRad, hobserved.lastCompute, ht] at hv
      split_ifs at hv with hthrottled hdue
      change a.1 + COMPUTE_INTERVAL ≤ c.now
      have hpos : 0 < COMPUTE_INTERVAL := by decide
      rcases hdue with hblind | hdue
      · -- the call before was an evaluation too
        obtain ⟨c', hc', -⟩ := hledger.evaluated a ha
        rcases List.eq_nil_or_concat calls with hnil | ⟨pre, last, hlast⟩
        · rw [hnil] at hc'
          cases hc'
        · rw [List.concat_eq_append] at hlast
          subst hlast
          have hpre := ledger_run env (sorted_of_append hbefore)
          have hcached : (after env new (pre ++ [last])).cachedRad = none :=
            Option.isNone_iff_eq_none.mp hblind
          have hplaced : (after env new (pre ++ [last])).lastPos.isSome := hledger.placed (by rw [ht]; rfl)
          have hsights := hledger.blind.mp hcached
          have hcachedPre : (after env new pre).cachedRad = none := by
            apply hpre.blind.mpr
            intro w hw
            apply hsights w
            rw [sights_snoc]
            exact List.mem_append_left _ hw
          have hknown : (known new (pre ++ [last])).lastPos.isSome := by
            rw [← hledger.view.1]
            exact hplaced
          have hseen : sights env new (pre ++ [last]) ≠ [] := by
            rw [sights_snoc]
            intro hnil
            obtain ⟨-, hnone⟩ := List.append_eq_nil_iff.mp hnil
            rw [known_snoc] at hknown
            rw [Option.toList_eq_nil_iff, sight_eq_none_iff] at hnone
            rw [hnone] at hknown
            cases hknown
          rw [after_snoc] at ht hplaced
          have hposLast : ((after env new pre).observe last.d).1.lastPos.isSome := by
            rw [← (maybeEmit_emitted env _ last.now last.wall).lastPos]
            exact hplaced
          obtain ⟨-, -, hcompute⟩ := hpre.evaluates hcachedPre hposLast
          have hwait := hpatient pre last c [] (List.append_assoc _ _ _) hseen hsights
          have hsame : t = last.now := Option.some.inj (ht.symm.trans hcompute)
          omega
      · have hlate : COMPUTE_INTERVAL ≤ c.now - t := of_decide_eq_true hdue
        omega

theorem patient_of_apart (hsorted : (calls.map (·.now)).Pairwise (· ≤ ·))
    (h : (evaluations (outcomes env new calls)).Pairwise fun a b => a.1 + COMPUTE_INTERVAL ≤ b.1) :
    Patient env calls := by
  intro pre c c' post hcalls hseen hblind
  have hsplit : calls = (pre ++ [c]) ++ c' :: post := by
    rw [hcalls, List.append_assoc]
    rfl
  have hsortedSplit := hsorted
  rw [hsplit] at hsortedSplit
  have hledger := ledger_run env (sorted_of_append hsortedSplit)
  have hpre := ledger_run env (sorted_of_append (sorted_of_append hsortedSplit))
  have hcached := hledger.blind.mpr hblind
  have hcachedPre : (after env new pre).cachedRad = none := by
    apply hpre.blind.mpr
    intro w hw
    apply hblind w
    rw [sights_snoc]
    exact List.mem_append_left _ hw
  have hplaced := hledger.sighted hseen
  have hposLater := (observed_observe _ c'.d).lastPos hplaced
  rw [after_snoc] at hplaced
  have hpos : ((after env new pre).observe c.d).1.lastPos.isSome := by
    rw [← (maybeEmit_emitted env _ c.now c.wall).lastPos]
    exact hplaced
  obtain ⟨v, hv, -⟩ := hpre.evaluates (c := c) hcachedPre hpos
  obtain ⟨v', hv', -⟩ := hledger.evaluates (c := c') hcached hposLater
  have hlist : outcomes env new calls =
      (outcomes env new pre ++ [((after env new pre).step env c).2]) ++
        ([((after env new (pre ++ [c])).step env c').2] ++
          outcomes env ((after env new (pre ++ [c])).step env c').1 post) := by
    rw [hsplit, outcomes_append, outcomes_snoc]
    rfl
  rw [hlist, evaluations_append, evaluations_append, evaluations_append, evaluations_one,
    evaluations_one, hv, hv'] at h
  obtain ⟨-, -, hcross⟩ := List.pairwise_append.mp h
  exact hcross (c.now, v) (List.mem_append_right _ (List.mem_singleton_self _)) (c'.now, v')
    (List.mem_append_left _ (List.mem_singleton_self _))

/-- **The intervals of the quirk** are kept in a run exactly when, while the model has said nothing
since a position is known, the calls are as far apart as the evaluations are to be. -/
theorem keepsIntervals_iff (env : WmmEnv F) (calls : List (WmmCall F))
    (hsorted : (calls.map (·.now)).Pairwise (· ≤ ·)) :
    KeepsIntervals env (outcomes env new calls) ↔ Patient env calls := by
  constructor
  · intro hkeeps
    exact patient_of_apart hsorted hkeeps.evaluations
  · intro hpatient
    refine ⟨emissions_apart hsorted, evaluations_apart hsorted hpatient, ?_, ?_, ?_⟩
    · intro pre o post hh f hf hpgn
      obtain ⟨before, c, later, hcalls, hpre, ho⟩ := outcomes_split hh
      subst ho hpre
      have hsplit : calls = (before ++ [c]) ++ later := by
        rw [hcalls, List.append_assoc]
        rfl
      rw [hsplit] at hsorted
      have hledger := ledger_run env (sorted_of_append hsorted)
      obtain ⟨-, -, rad, age, hrad, hbuild⟩ :=
        (maybeEmit_emitted env _ c.now c.wall).sent f (mem_variations hf hpgn)
      refine ⟨rad, age, ?_, hbuild⟩
      rw [← outcomes_snoc, ← hledger.cached, after_snoc]
      exact hrad
    · intro src
      rw [(ledger_run env hsorted).asked src]
      split_ifs
      · exact le_rfl
      · exact Nat.zero_le 1
    · intro o ho src hstop
      obtain ⟨pre, post, hh⟩ := List.append_of_mem ho
      obtain ⟨before, c, later, -, -, rfl⟩ := outcomes_split hh
      have hasks := mem_stops hstop
      rcases observe_stop (after env new before) c.d with ⟨hnone, -⟩ | ⟨hsome, holder, -, -⟩
      · rw [hnone] at hasks
        cases hasks
      · rw [hsome] at hasks
        exact ⟨holder, stopRequest_inj (Option.some.inj hasks)⟩

end WmmQuirk

/-! ## A first position -/

namespace WmmQuirk

open Pipeline

def coordinate (order : UInt8) (id : Identifier) (degrees : ℚ) : DecodedField Binary64 where
  info := claimNumber order id id.1 0 32
  value := .number (Float64.ofRat degrees)
  bitOffset := some 0
  bitLength := some 32
  repeatIndex := none
  repeatSet := 0
  overrides := none

/-- 52 north, 5 east. -/
def rapidPosition : DecodedPgn Binary64 :=
  let fields := [coordinate 1 ⟨"latitude", by decide⟩ 52, coordinate 2 ⟨"longitude", by decide⟩ 5]
  { timestamp := none, prio := 2, pgn := PGN_POSITION_RAPID, src := 5, dst := 255
    description := "Position, Rapid Update", id := ⟨"positionRapidUpdate", by decide⟩
    idIsPinned := false, data := [], fields, hasRepeatingSet := (false, false)
    indexByOrder := buildIndexByOrder fields }

/-- Twice in a second. -/
def twoPositions : List (WmmCall Binary64) :=
  [⟨rapidPosition, 0, 0⟩, ⟨rapidPosition, seconds 1, 1000⟩]

/-- A model that has nothing to say is asked again with the next record. -/
theorem asked_again :
    (twoPositions.map (·.now)).Pairwise (· ≤ ·) ∧
      ¬KeepsIntervals feedbackEnv.wmm (outcomes feedbackEnv.wmm new twoPositions) := by
  refine ⟨by decide, fun hkeeps => ?_⟩
  have htwice : evaluations (outcomes feedbackEnv.wmm new twoPositions) =
      [(0, none), (seconds 1, none)] := by
    decide +kernel
  have hapart := hkeeps.evaluations
  rw [htwice] at hapart
  exact absurd hapart (by decide)

/-- East by two degrees, everywhere and always. -/
def steadyEnv : WmmEnv Binary64 :=
  { feedbackEnv.wmm with variationRad := fun _ _ _ => some (Float64.ofRat 0.035) }

theorem keepsIntervals_twoPositions :
    KeepsIntervals steadyEnv (outcomes steadyEnv new twoPositions) := by
  refine (keepsIntervals_iff steadyEnv twoPositions (by decide)).mpr ?_
  intro pre c c' post hcalls _ hblind
  have hlength : twoPositions.length = pre.length + (post.length + 1 + 1) := by
    rw [hcalls, List.length_append]
    rfl
  have hnil : pre = [] := by
    apply List.eq_nil_of_length_eq_zero
    have htwo : twoPositions.length = 2 := rfl
    omega
  rw [hnil] at hcalls hblind
  obtain ⟨rfl, -⟩ := List.cons.inj hcalls
  have hsees : (some (Float64.ofRat 0.035) : Option Binary64) ∈
      sights steadyEnv new ([] ++ [⟨rapidPosition, 0, 0⟩]) := by
    decide +kernel
  exact absurd (hblind _ hsees) nofun

end WmmQuirk

end Canboat
