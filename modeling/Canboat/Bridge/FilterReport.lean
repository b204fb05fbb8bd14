import Canboat.Bridge.NmeaFilter

/-!
# What the filter drops

The report lists the decisions of the filter, and the filter drops what is listed: whole sentences
of a source, and lines of other kinds where the whole source is muted. A sentence that is muted
and unmuted leaves the decisions as they were, where it takes no last rule away.
-/

namespace Canboat

namespace NmeaFilter

/-- What is asked of a filter. -/
inductive FilterCall
  | noteAddressClaim (src : UInt8) (name : UInt64)
  | set (src : UInt8) (sentence : String) (muted : Bool)
  | applySetFrame (data : List UInt8)
  | apply (src : UInt8) (buf : List Char)

def call (f : NmeaFilter) : FilterCall → NmeaFilter
  | .noteAddressClaim src name => f.noteAddressClaim src name
  | .set src sentence muted => (f.set src sentence muted).1
  | .applySetFrame data => f.applySetFrame data
  | .apply src buf => (f.apply src buf).1

/-- From the rules of the file, by these calls. -/
def calls (rules : IndexMap UInt64 DeviceRule) (cs : List FilterCall) : NmeaFilter :=
  cs.foldl call (load rules)

/-! ## Dropped lines -/

/-- No row lists the line's formatter as muted. -/
def unlisted (rows : List FilterReportRow) (src : UInt8) (line : List Char) : Bool :=
  match sentenceFormatter line with
  | some fmt => !Decidable.decide (⟨src, fmt, true⟩ ∈ rows)
  | none => true

/-- The block loses the sentences that the report after it lists. -/
def FollowsReport (f : NmeaFilter) (src : UInt8) (buf : List Char) : Prop :=
  (f.apply src buf).2 =
    ((splitInclusive buf).filter (unlisted (f.apply src buf).1.report src)).flatten

theorem flatten_splitInclusive (buf : List Char) : (splitInclusive buf).flatten = buf := by
  induction buf with
  | nil => rfl
  | cons c s ih =>
      rw [splitInclusive]
      by_cases hc : c = '\n'
      · rw [if_pos hc, List.flatten_cons, ih, List.singleton_append]
      · rw [if_neg hc]
        cases hs : splitInclusive s with
        | nil =>
            rw [hs] at ih
            rw [← ih]
            rfl
        | cons l ls =>
            rw [hs] at ih
            rw [List.flatten_cons, List.cons_append, ← List.flatten_cons, ih]

theorem ne_nil_of_mem_splitInclusive {buf line : List Char} (h : line ∈ splitInclusive buf) :
    line ≠ [] := by
  induction buf generalizing line with
  | nil => cases h
  | cons c s ih =>
      rw [splitInclusive] at h
      by_cases hc : c = '\n'
      · rw [if_pos hc] at h
        rcases List.mem_cons.mp h with rfl | h
        · exact List.cons_ne_nil _ _
        · exact ih h
      · rw [if_neg hc] at h
        cases hs : splitInclusive s with
        | nil =>
            rw [hs] at h
            rw [List.mem_singleton.mp h]
            exact List.cons_ne_nil _ _
        | cons l ls =>
            rw [hs] at h ih
            rcases List.mem_cons.mp h with rfl | h
            · exact List.cons_ne_nil _ _
            · exact ih (List.mem_cons_of_mem _ h)

variable {f : NmeaFilter} {src : UInt8}

/-- A formatter that was seen is listed as it is decided. -/
theorem mem_report {fmt : String} (hseen : fmt ∈ f.observed src) :
    ⟨src, fmt, true⟩ ∈ f.report ↔ f.isMuted src fmt = true := by
  have hsrc : src ∈ allSources.filter fun src => f.observed src ≠ [] := by
    rw [List.mem_filter]
    exact ⟨List.mem_map.mpr ⟨src.toNat, List.mem_range.mpr src.toNat_lt, UInt8.ofNat_toNat⟩,
      decide_eq_true (List.ne_nil_of_mem hseen)⟩
  have hrows : ⟨src, fmt, true⟩ ∈ f.report ↔ ⟨src, fmt, true⟩ ∈ f.reportOf src := by
    rw [report, List.mem_flatMap]
    constructor
    · rintro ⟨src', -, h⟩
      have heq : src' = src := by
        rw [reportOf, List.mem_cons, List.mem_map] at h
        rcases h with h | ⟨_, -, h⟩
        · exact (congrArg FilterReportRow.src h).symm
        · exact congrArg FilterReportRow.src h
      rwa [heq] at h
    · exact fun h => ⟨src, hsrc, h⟩
  rw [hrows, reportOf, List.mem_cons, List.mem_map]
  constructor
  · rintro (h | ⟨fmt', -, h⟩)
    · have hall := congrArg FilterReportRow.muted h
      rw [isMuted, of_decide_eq_true hall.symm]
    · have hfmt := congrArg FilterReportRow.sentence h
      have hmuted := congrArg FilterReportRow.muted h
      dsimp only at hfmt hmuted
      rwa [hfmt] at hmuted
  · intro h
    exact Or.inr ⟨fmt, List.mem_mergeSort.mpr hseen, by rw [h]⟩

/-- What is seen before anything is dropped is in the report. -/
theorem observed_apply {buf line : List Char} {fmt : String} (hline : line ∈ splitInclusive buf)
    (hfmt : sentenceFormatter line = some fmt) : fmt ∈ (f.apply src buf).1.observed src := by
  have hobserved : (f.observe src buf).observed src =
      ((splitInclusive buf).filterMap sentenceFormatter).foldl addSentence (f.observed src) :=
    Function.update_self ..
  rw [apply_observed, hobserved, mem_foldl_addSentence]
  exact Or.inr (List.mem_filterMap.mpr ⟨line, hline, hfmt⟩)

theorem decide_observe (src' : UInt8) (buf : List Char) : (f.observe src buf).decide src' = f.decide src' :=
  rfl

theorem unlisted_report {buf line : List Char} (hline : line ∈ splitInclusive buf) :
    unlisted (f.apply src buf).1.report src line =
      match sentenceFormatter line with
      | some fmt => !f.isMuted src fmt
      | none => true := by
  rw [unlisted]
  cases hfmt : sentenceFormatter line with
  | none => rfl
  | some fmt =>
      have hlisted := mem_report (@observed_apply f src _ _ _ hline hfmt)
      have hmuted : (f.apply src buf).1.isMuted src fmt = f.isMuted src fmt := by
        rw [apply_observed]
        rfl
      rw [hmuted] at hlisted
      dsimp only
      rw [Bool.not_inj_iff, ← Bool.coe_iff_coe, decide_eq_true_eq]
      exact hlisted

theorem flatMap_kept (muted : List String) (lines : List (List Char)) :
    (lines.flatMap fun line =>
        match sentenceFormatter line with
        | some fmt => if fmt ∈ muted then [] else line
        | none => line) =
      (lines.filter fun line =>
        match sentenceFormatter line with
        | some fmt => !Decidable.decide (fmt ∈ muted)
        | none => true).flatten := by
  induction lines with
  | nil => rfl
  | cons line lines ih =>
      rw [List.flatMap_cons, List.filter_cons, ih]
      cases sentenceFormatter line with
      | none => rfl
      | some fmt =>
          dsimp only
          by_cases hmem : fmt ∈ muted
          · simp [hmem]
          · simp [hmem]

/-- A block whose lines are sentences, or a source that is not muted as a whole. -/
theorem followsReport_iff (f : NmeaFilter) (src : UInt8) (buf : List Char) :
    f.FollowsReport src buf ↔ (f.decide src = .dropAll →
      ∀ line ∈ splitInclusive buf, (sentenceFormatter line).isSome) := by
  have hkept : (splitInclusive buf).filter (unlisted (f.apply src buf).1.report src) =
      (splitInclusive buf).filter fun line =>
        match sentenceFormatter line with
        | some fmt => !f.isMuted src fmt
        | none => true :=
    List.filter_congr fun line hline => unlisted_report hline
  rw [FollowsReport, hkept, apply, decide_observe]
  cases hdecide : f.decide src with
  | dropAll =>
      have hmuted : ∀ fmt, f.isMuted src fmt = true := by
        intro fmt
        rw [isMuted, hdecide]
      simp only [hmuted, forall_const]
      constructor
      · intro h line hline
        cases hfmt : sentenceFormatter line with
        | some fmt => rfl
        | none =>
            have hempty := List.flatten_eq_nil_iff.mp h.symm line
              (List.mem_filter.mpr ⟨hline, by rw [hfmt]⟩)
            exact absurd hempty (ne_nil_of_mem_splitInclusive hline)
      · intro h
        symm
        rw [List.flatten_eq_nil_iff]
        intro line hline
        obtain ⟨hmem, hunlisted⟩ := List.mem_filter.mp hline
        obtain ⟨fmt, hfmt⟩ := Option.isSome_iff_exists.mp (h line hmem)
        rw [hfmt] at hunlisted
        cases hunlisted
  | keep muted =>
      have hmuted : ∀ fmt, f.isMuted src fmt = Decidable.decide (fmt ∈ muted) := by
        intro fmt
        rw [isMuted, hdecide]
      simp only [hmuted, reduceCtorEq, false_implies, iff_true]
      by_cases hnone : muted = []
      · rw [if_pos hnone, hnone]
        have hall : ∀ line ∈ splitInclusive buf, (match sentenceFormatter line with
            | some fmt => !Decidable.decide (fmt ∈ ([] : List String))
            | none => true) = true := by
          intro line _
          cases sentenceFormatter line <;> simp
        rw [List.filter_eq_self.mpr hall, flatten_splitInclusive]
      · rw [if_neg hnone]
        exact flatMap_kept muted (splitInclusive buf)

/-! ## Mutes that are taken back -/

/-- The rule of the source's NAME mutes the sentence, or the source. -/
def mutes (f : NmeaFilter) (src : UInt8) (sentence : String) : Bool :=
  match (f.srcName src).bind f.rules.get? with
  | some rule => if sentence = ALL_SENTENCES then rule.muted else sentence ∈ rule.mutedSentences
  | none => false

/-- A mute that is taken back changes no decision. -/
def Restores (f : NmeaFilter) (src : UInt8) (sentence : String) : Prop :=
  f.mutes src sentence = false →
    ∀ src', ((f.set src sentence true).1.set src sentence false).1.decide src' = f.decide src'

/-- A rule without effect. -/
def idleRule : DeviceRule := ⟨false, []⟩

/-- The source's rule is the only one and has no effect, and some source has no NAME. -/
def HoldsGate (f : NmeaFilter) (src : UInt8) : Prop :=
  ∃ name, f.srcName src = some name ∧ f.rules.entries = [(name, idleRule)] ∧
    ∃ src', f.srcName src' = none

/-- The rule of a NAME, a rule without effect where there is none. -/
def ruleOf (f : NmeaFilter) (name : UInt64) : DeviceRule := (f.rules.get? name).getD idleRule

/-- The rule as a client changes it. -/
def edited (rule : DeviceRule) (sentence : String) (muted : Bool) : DeviceRule :=
  if sentence = ALL_SENTENCES then { rule with muted := muted }
  else if muted then { rule with mutedSentences := addSentence rule.mutedSentences sentence }
  else { rule with mutedSentences := rule.mutedSentences.filter (· ≠ sentence) }

theorem get?_setRule (f : NmeaFilter) (name : UInt64) (sentence : String) (muted : Bool)
    (name' : UInt64) :
    (f.setRule name sentence muted).rules.get? name' =
      if name' = name then
        if edited (f.ruleOf name) sentence muted = idleRule then none
        else some (edited (f.ruleOf name) sentence muted)
      else f.rules.get? name' := by
  have hidle : ∀ rule : DeviceRule,
      (¬rule.muted = true ∧ rule.mutedSentences = []) ↔ rule = idleRule := by
    rintro ⟨muted, sentences⟩
    simp [idleRule]
  have hrule : f.setRule name sentence muted =
      if ¬(edited (f.ruleOf name) sentence muted).muted = true ∧
          (edited (f.ruleOf name) sentence muted).mutedSentences = [] then
        { f with rules := f.rules.remove name }
      else { f with rules := f.rules.insert name (edited (f.ruleOf name) sentence muted) } := rfl
  rw [hrule]
  by_cases hempty : edited (f.ruleOf name) sentence muted = idleRule
  · rw [if_pos ((hidle _).mpr hempty), if_pos hempty]
    exact IndexMap.get?_remove ..
  · rw [if_neg (mt (hidle _).mp hempty), if_neg hempty]
    exact IndexMap.get?_insert ..

theorem srcName_setRule (f : NmeaFilter) (name : UInt64) (sentence : String) (muted : Bool) :
    (f.setRule name sentence muted).srcName = f.srcName := by
  rw [setRule]
  split_ifs <;> rfl

theorem set_of_name {name : UInt64} (hname : f.srcName src = some name) (sentence : String)
    (muted : Bool) : (f.set src sentence muted).1 = f.setRule name sentence muted := by
  rw [set, hname]

/-- What was not muted is as before, once muted and unmuted. -/
theorem edited_edited {rule : DeviceRule} {sentence : String}
    (h : (if sentence = ALL_SENTENCES then rule.muted else
      Decidable.decide (sentence ∈ rule.mutedSentences)) = false) :
    edited rule sentence true ≠ idleRule ∧ edited (edited rule sentence true) sentence false = rule := by
  by_cases hall : sentence = ALL_SENTENCES
  · rw [if_pos hall] at h
    simp only [edited, if_pos hall]
    constructor
    · intro hidle
      cases congrArg DeviceRule.muted hidle
    · obtain ⟨muted, sentences⟩ := rule
      cases h
      rfl
  · rw [if_neg hall] at h
    have hnot : sentence ∉ rule.mutedSentences := of_decide_eq_false h
    have hfilter : rule.mutedSentences.filter (fun s => Decidable.decide (s ≠ sentence)) =
        rule.mutedSentences := by
      rw [List.filter_eq_self]
      intro s hs
      refine decide_eq_true ?_
      rintro rfl
      exact hnot hs
    simp only [edited, if_neg hall, if_true, Bool.false_eq_true, if_false, addSentence,
      if_neg hnot]
    constructor
    · intro hidle
      have hsentences := congrArg DeviceRule.mutedSentences hidle
      exact List.append_ne_nil_of_right_ne_nil _ (List.cons_ne_nil _ _) hsentences
    · rw [List.filter_append, hfilter, List.filter_cons_of_neg (by simp), List.filter_nil,
        List.append_nil]

/-- The rules after a mute that is taken back: the same, but for an idle one. -/
theorem get?_restored {name : UInt64} {sentence : String} (hname : f.srcName src = some name)
    (h : f.mutes src sentence = false) (name' : UInt64) :
    ((f.set src sentence true).1.set src sentence false).1.rules.get? name' =
      if name' = name ∧ f.ruleOf name = idleRule then none else f.rules.get? name' := by
  have hset : ((f.set src sentence true).1.set src sentence false).1 =
      (f.setRule name sentence true).setRule name sentence false := by
    rw [set_of_name hname]
    exact set_of_name (by rw [srcName_setRule, hname]) sentence false
  have hfree : (if sentence = ALL_SENTENCES then (f.ruleOf name).muted else
      Decidable.decide (sentence ∈ (f.ruleOf name).mutedSentences)) = false := by
    rw [mutes, hname, Option.bind_some] at h
    rw [ruleOf]
    cases hget : f.rules.get? name with
    | none => simp [idleRule]
    | some rule =>
        rw [hget] at h
        exact h
  obtain ⟨hne, hback⟩ := edited_edited hfree
  have hmuted : (f.setRule name sentence true).ruleOf name = edited (f.ruleOf name) sentence true := by
    rw [ruleOf, get?_setRule, if_pos rfl, if_neg hne]
    rfl
  rw [hset, get?_setRule, hmuted, hback, get?_setRule]
  by_cases hn : name' = name
  · subst hn
    rw [if_pos rfl]
    by_cases hidle : f.ruleOf name' = idleRule
    · rw [if_pos hidle, if_pos ⟨rfl, hidle⟩]
    · rw [if_neg hidle, if_neg fun h => hidle h.2]
      cases hget : f.rules.get? name' with
      | none =>
          rw [ruleOf, hget] at hidle
          exact absurd rfl hidle
      | some rule => rw [ruleOf, hget]; rfl
  · rw [if_neg hn, if_neg hn, if_neg fun h => hn h.1]

theorem entries_eq_nil_iff {rules : IndexMap UInt64 DeviceRule} :
    rules.entries = [] ↔ ∀ name, rules.get? name = none := by
  constructor
  · intro h name
    rw [IndexMap.get?, h]
    rfl
  · intro h
    rw [List.eq_nil_iff_forall_not_mem]
    rintro ⟨name, rule⟩ hmem
    rw [← IndexMap.get?_eq_some, h name] at hmem
    cases hmem

/-- The decisions are those of the rules, however they came about. -/
theorem decide_congr {f g : NmeaFilter} (hname : g.srcName = f.srcName)
    (hget : ∀ name, g.rules.get? name = f.rules.get? name) (src : UInt8) :
    g.decide src = f.decide src := by
  have hempty : g.rules.entries = [] ↔ f.rules.entries = [] := by
    rw [entries_eq_nil_iff, entries_eq_nil_iff]
    simp only [hget]
  rw [decide, decide, hname]
  simp only [hempty, hget]

theorem entries_of_only {rules : IndexMap UInt64 DeviceRule} {name : UInt64} {rule : DeviceRule}
    (hget : rules.get? name = some rule) (honly : ∀ name' ≠ name, rules.get? name' = none) :
    rules.entries = [(name, rule)] := by
  have hall : ∀ e ∈ rules.entries, e = (name, rule) := by
    rintro ⟨name', rule'⟩ hmem
    have hsome := IndexMap.get?_eq_some.mpr hmem
    by_cases hn : name' = name
    · subst hn
      rw [hget] at hsome
      rw [Option.some.inj hsome]
    · rw [honly name' hn] at hsome
      nomatch hsome
  have hnodup := rules.nodup
  have hmem := IndexMap.get?_eq_some.mp hget
  cases hentries : rules.entries with
  | nil =>
      rw [hentries] at hmem
      nomatch hmem
  | cons e l =>
      rw [hentries] at hall hnodup
      obtain ⟨rfl, hl⟩ := List.forall_mem_cons.mp hall
      cases l with
      | nil => rfl
      | cons e' l =>
          rw [hl e' List.mem_cons_self, List.map_cons, List.map_cons, List.nodup_cons] at hnodup
          exact absurd List.mem_cons_self hnodup.1

/-- A mute is taken back, but where its rule is the only one and idle: the gate for sources without
a NAME goes with it. -/
theorem restores_iff (f : NmeaFilter) (src : UInt8) (sentence : String) :
    f.Restores src sentence ↔ ¬f.HoldsGate src := by
  constructor
  · rintro h ⟨name, hname, hentries, src', hnone⟩
    have hget : f.rules.get? name = some idleRule :=
      IndexMap.get?_eq_some.mpr (by rw [hentries]; exact List.mem_cons_self)
    have hfree : f.mutes src sentence = false := by
      rw [mutes, hname, Option.bind_some, hget]
      simp [idleRule]
    have hrestored := get?_restored hname hfree
    have hgone : ((f.set src sentence true).1.set src sentence false).1.rules.entries = [] := by
      rw [entries_eq_nil_iff]
      intro name'
      rw [hrestored, ruleOf, hget, Option.getD_some, IndexMap.get?, hentries]
      by_cases hn : name' = name
      · rw [if_pos ⟨hn, rfl⟩]
      · rw [if_neg fun h => hn h.1, List.lookup_cons, beq_false_of_ne hn]
        rfl
    have hsame := h hfree src'
    have hne : f.rules.entries ≠ [] := by
      rw [hentries]
      exact List.cons_ne_nil _ _
    rw [decide, if_pos hgone, decide, if_neg hne, hnone] at hsame
    cases hsame
  · intro hgate hfree src'
    cases hname : f.srcName src with
    | none =>
        have hset : ∀ muted, (f.set src sentence muted).1 = f := by
          intro muted
          rw [set, hname]
        rw [hset, hset]
    | some name =>
        have hrestored := get?_restored hname hfree
        have hsrc : ((f.set src sentence true).1.set src sentence false).1.srcName = f.srcName := by
          rw [set_of_name hname, set_of_name (by rw [srcName_setRule, hname]), srcName_setRule,
            srcName_setRule]
        generalize ((f.set src sentence true).1.set src sentence false).1 = g at hrestored hsrc
        by_cases hidle : f.rules.get? name = some idleRule
        · have hrule : f.ruleOf name = idleRule := by rw [ruleOf, hidle, Option.getD_some]
          simp only [hrule, and_true] at hrestored
          have hkept : ∀ name', (match g.rules.get? name' with
              | some rule => if rule.muted then Decision.dropAll else .keep rule.mutedSentences
              | none => .keep []) =
              match f.rules.get? name' with
              | some rule => if rule.muted then .dropAll else .keep rule.mutedSentences
              | none => .keep [] := by
            intro name'
            rw [hrestored]
            by_cases hn : name' = name
            · rw [if_pos hn, hn, hidle]
              rfl
            · rw [if_neg hn]
          have hne : f.rules.entries ≠ [] := by
            intro h
            rw [entries_eq_nil_iff.mp h] at hidle
            cases hidle
          rw [decide, decide, if_neg hne, hsrc]
          cases hsrc' : f.srcName src' with
          | none =>
              -- an other rule keeps the gate
              rw [if_neg]
              intro hempty
              refine hgate ⟨name, hname, entries_of_only hidle fun name' hn => ?_, src', hsrc'⟩
              have hnone := entries_eq_nil_iff.mp hempty name'
              rwa [hrestored, if_neg hn] at hnone
          | some name' =>
              refine Eq.trans ?_ (hkept name')
              split_ifs with hempty
              · rw [entries_eq_nil_iff.mp hempty]
              · rfl
        · refine decide_congr hsrc (fun name' => ?_) src'
          rw [hrestored]
          by_cases h : name' = name ∧ f.ruleOf name = idleRule
          · rw [if_pos h, h.1]
            cases hget : f.rules.get? name with
            | none => rfl
            | some rule =>
                have hrule := h.2
                rw [ruleOf, hget, Option.getD_some] at hrule
                rw [hget, hrule] at hidle
                exact absurd rfl hidle
          · rw [if_neg h]

/-! ## Runs -/

/-- After every run of calls: the filter drops what it reports, and forgets what is taken back, but
for lines without a formatter of a source that is muted as a whole, and for the last rule. -/
theorem report_iff (rules : IndexMap UInt64 DeviceRule) (cs : List FilterCall) (src : UInt8)
    (buf : List Char) (sentence : String) :
    ((calls rules cs).FollowsReport src buf ∧ (calls rules cs).Restores src sentence) ↔
      ((calls rules cs).decide src = .dropAll →
        ∀ line ∈ splitInclusive buf, (sentenceFormatter line).isSome) ∧
      ¬(calls rules cs).HoldsGate src := by
  rw [followsReport_iff, restores_iff]

/-- A remark of a device that is muted is dropped, and is in no report. -/
theorem not_followsReport_remark :
    ¬(calls .empty [.noteAddressClaim 1 7, .set 1 ALL_SENTENCES true]).FollowsReport 1
      "# a remark\n".toList := by
  rw [followsReport_iff]
  intro h
  exact absurd (h (by decide) "# a remark\n".toList (by decide)) (by decide)

end NmeaFilter

end Canboat
