import Canboat.Format.Instant
import Canboat.Format.ParseLine
import Canboat.Format.PlainHeader

/-!
# PLAIN lines as carriers of other formats

A frame that some parser has read, written as a PLAIN line and read from it. The line carries it
where no comma is left in its timestamp.
-/

namespace Canboat

open Checked

/-- The frame with its timestamp in canonical form, and none for an empty one. -/
def carried (f : RawFrame) : RawFrame :=
  { f with
    timestamp := (f.timestamp.map fun ts => normalizeTimestamp ts.toList).bind fun ts =>
      if ts = [] then none else some (String.ofList ts) }

/-- `HH:MM:SS` of a day, with nothing behind it or with a fraction. -/
def TimeOfDay (s : List Char) : Prop :=
  fits "dd:dd:dd".toList s = true ∧ digitsValue (s.take 2) < 24 ∧
    digitsValue ((s.drop 3).take 2) < 60 ∧ digitsValue ((s.drop 6).take 2) < 60 ∧
    ∀ c ∈ s[8]?, c = '.' ∨ c = ','

/-- A time of day, or a date and a time of day behind it. -/
def Recognized (ts : List Char) : Prop :=
  TimeOfDay (trim ts) ∨
    fits "dddd-dd-dd".toList (trim ts) = true ∧
      ((trim ts)[10]? = some 'T' ∨ (trim ts)[10]? = some '-' ∨ (trim ts)[10]? = some ' ') ∧
      TimeOfDay ((trim ts).drop 11)

/-- No comma in the timestamp, or one that the canonical form takes away. -/
def Carriable (f : RawFrame) : Prop :=
  ∀ ts ∈ f.timestamp, ',' ∉ ts.toList ∨ Recognized ts.toList

/-! ## Commas of a timestamp -/

theorem normalizeTime_isSome (s : List Char) : (normalizeTime s).isSome ↔ TimeOfDay s := by
  have hget : s[8]? = (s.drop 8).head? := List.head?_drop.symm
  rw [normalizeTime, TimeOfDay, hget]
  split_ifs with h
  · obtain ⟨h₁, h₂, h₃, h₄⟩ := h
    rw [and_iff_right h₁, and_iff_right h₂, and_iff_right h₃, and_iff_right h₄]
    cases s.drop 8 with
    | nil => exact iff_of_true rfl (by rintro _ ⟨⟩)
    | cons c fraction =>
        dsimp only
        split_ifs with hc
        · refine iff_of_true rfl ?_
          rintro _ ⟨⟩
          exact hc
        · exact iff_of_false Bool.false_ne_true fun h => hc (h c rfl)
  · refine iff_of_false Bool.false_ne_true ?_
    rintro ⟨h₁, h₂, h₃, h₄, -⟩
    exact h ⟨h₁, h₂, h₃, h₄⟩

theorem comma_not_mem_of_fits {p s : List Char} (hp : ',' ∉ p) (h : fits p s = true) :
    ',' ∉ s.take p.length := by
  induction p generalizing s with
  | nil => exact List.not_mem_nil
  | cons q p ih =>
      cases s with
      | nil => cases h
      | cons c s =>
          rw [fits, Bool.and_eq_true] at h
          rw [List.mem_cons, not_or] at hp
          rw [List.length_cons, List.take_succ_cons, List.mem_cons, not_or]
          refine ⟨?_, ih hp.2 h.2⟩
          rintro rfl
          have hc := h.1
          split_ifs at hc with hd
          · cases hc
          · rw [beq_iff_eq] at hc
            exact hp.1 hc

theorem comma_not_mem_normalizeTime {s time : List Char} (h : normalizeTime s = some time) :
    ',' ∉ time := by
  obtain ⟨hlen, hfits, -⟩ := normalizeTime_spec h
  have hcomma := comma_not_mem_of_fits (by decide) hfits
  rwa [show "dd:dd:dd.ddd".toList.length = 12 by decide, ← hlen, List.take_length] at hcomma

/-- A comma stays in a timestamp that has one and is not recognized. -/
theorem comma_mem_normalizeTimestamp (ts : List Char) :
    ',' ∈ normalizeTimestamp ts ↔ ',' ∈ ts ∧ ¬Recognized ts := by
  by_cases hcanonical : isCanonical ts = true
  · have hcomma : ',' ∉ ts := by
      rw [isCanonical, Bool.and_eq_true, beq_iff_eq] at hcanonical
      have h := comma_not_mem_of_fits (by decide) hcanonical.2
      rwa [show "dddd-dd-ddTdd:dd:dd.dddZ".toList.length = 24 by decide, ← hcanonical.1,
        List.take_length] at h
    rw [normalizeTimestamp, if_pos hcanonical]
    exact iff_of_false hcomma fun h => hcomma h.1
  have hform := normalizeTimestamp.eq_def ts
  rw [if_neg hcanonical] at hform
  dsimp only at hform
  rw [Recognized]
  generalize trim ts = t at hform ⊢
  by_cases hdate : fits "dddd-dd-dd".toList t = true ∧
      (t[10]? = some 'T' ∨ t[10]? = some '-' ∨ t[10]? = some ' ')
  · rw [if_pos hdate] at hform
    cases hlater : normalizeTime (t.drop 11) with
    | some time =>
        have hday : TimeOfDay (t.drop 11) := by
          rw [← normalizeTime_isSome, hlater]
          rfl
        have hout : ',' ∉ normalizeTimestamp ts := by
          rw [hlater, Option.map_some, Option.some_or, Option.getD_some] at hform
          have hten := comma_not_mem_of_fits (by decide) hdate.1
          rw [hform, List.mem_append, List.mem_cons, List.mem_append, List.mem_singleton]
          rintro (h | h | h | h)
          · exact hten h
          · cases h
          · exact comma_not_mem_normalizeTime hlater h
          · cases h
        exact iff_of_false hout fun h => h.2 (.inr ⟨hdate.1, hdate.2, hday⟩)
    | none =>
        have hday : ¬TimeOfDay (t.drop 11) := by
          rw [← normalizeTime_isSome, hlater]
          exact Bool.false_ne_true
        rw [hlater, Option.map_none, Option.none_or] at hform
        cases htime : normalizeTime t with
        | some time =>
            have htimeOfDay : TimeOfDay t := by
              rw [← normalizeTime_isSome, htime]
              rfl
            rw [htime, Option.getD_some] at hform
            rw [hform]
            exact iff_of_false (comma_not_mem_normalizeTime htime) fun h => h.2 (.inl htimeOfDay)
        | none =>
            have htimeOfDay : ¬TimeOfDay t := by
              rw [← normalizeTime_isSome, htime]
              exact Bool.false_ne_true
            rw [htime, Option.getD_none] at hform
            rw [hform, and_iff_left]
            rintro (h | h)
            · exact htimeOfDay h
            · exact hday h.2.2
  · rw [if_neg hdate, Option.none_or] at hform
    cases htime : normalizeTime t with
    | some time =>
        have htimeOfDay : TimeOfDay t := by
          rw [← normalizeTime_isSome, htime]
          rfl
        rw [htime, Option.getD_some] at hform
        rw [hform]
        exact iff_of_false (comma_not_mem_normalizeTime htime) fun h => h.2 (.inl htimeOfDay)
    | none =>
        have htimeOfDay : ¬TimeOfDay t := by
          rw [← normalizeTime_isSome, htime]
          exact Bool.false_ne_true
        rw [htime, Option.getD_none] at hform
        rw [hform, and_iff_left]
        rintro (h | h)
        · exact htimeOfDay h
        · exact hdate ⟨h.1, h.2.1⟩

/-! ## What the line carries -/

theorem comma_not_mem_splitOnce {s ts rest : List Char} (h : splitOnce ',' s = some (ts, rest)) :
    ',' ∉ ts := by
  rw [splitOnce] at h
  split at h
  · cases h
  · obtain ⟨rfl, rfl⟩ := Prod.mk.inj (Option.some.inj h)
    intro hmem
    have := List.mem_takeWhile_imp hmem
    simp at this

open Plain in
/-- A timestamp that was read has no comma. -/
theorem comma_not_mem_of_parseLine {line : List Char} {f : RawFrame}
    (h : Plain.parseLine line = pure f) {ts : String} (hts : f.timestamp = some ts) :
    ',' ∉ ts.toList := by
  rw [parseLine_eq] at h
  obtain ⟨t, rest, -, -, -, -, hsplit, htimestamp, -⟩ := parseLineWith_eq_pure h
  rw [hts] at htimestamp
  split_ifs at htimestamp
  rw [Option.some.inj htimestamp, String.toList_ofList]
  exact comma_not_mem_splitOnce hsplit

theorem carriable_iff (f : RawFrame) : Carriable f ↔ ',' ∉ Plain.stampText f := by
  rw [Carriable, Plain.stampText]
  cases f.timestamp with
  | none => exact iff_of_true (by rintro _ ⟨⟩) List.not_mem_nil
  | some ts =>
      rw [Option.map_some, Option.getD_some, comma_mem_normalizeTimestamp]
      constructor
      · rintro h ⟨hmem, hn⟩
        exact (h ts rfl).elim (fun hc => hc hmem) hn
      · rintro h _ ⟨⟩
        by_contra hn
        rw [not_or, not_not] at hn
        exact h hn

open Plain in
theorem carried_iff {f : RawFrame} (hlen : f.data.length ≤ RAWFRAME_MAX_SIZE) :
    Plain.parseLine (writeLine f) = pure (carried f) ↔ Carriable f := by
  rw [carriable_iff]
  constructor
  · intro h hcomma
    rw [stampText] at hcomma
    cases hts : f.timestamp with
    | none =>
        rw [hts] at hcomma
        exact absurd hcomma List.not_mem_nil
    | some ts =>
        rw [hts, Option.map_some, Option.getD_some] at hcomma
        have hne : normalizeTimestamp ts.toList ≠ [] := List.ne_nil_of_mem hcomma
        have htimestamp : (carried f).timestamp =
            some (String.ofList (normalizeTimestamp ts.toList)) := by
          rw [carried, hts, Option.map_some, Option.bind_some, if_neg hne]
        apply comma_not_mem_of_parseLine h htimestamp
        rwa [String.toList_ofList]
  · intro hcomma
    rw [writeLine_eq, parseLine_line hcomma hlen, pure_inj, stampText, carried]
    cases f.timestamp with
    | none => rfl
    | some ts => rfl

/-! ## Parsers that leave no comma -/

theorem sep_not_mem_splitN {n i : ℕ} {s a b : List Char}
    (ha : (splitN ',' n s)[i]? = some a) (hb : (splitN ',' n s)[i + 1]? = some b) : ',' ∉ a := by
  induction n generalizing s i with
  | zero => cases ha
  | succ n ih =>
      cases n with
      | zero => cases hb
      | succ n =>
          rw [splitN] at ha hb
          cases hsplit : splitOnce ',' s with
          | none =>
              rw [hsplit] at hb
              cases hb
          | some r =>
              obtain ⟨t, rest⟩ := r
              rw [hsplit] at ha hb
              cases i with
              | zero =>
                  rw [List.getElem?_cons_zero, Option.some.injEq] at ha
                  subst ha
                  exact comma_not_mem_splitOnce hsplit
              | succ i => exact ih ha hb

theorem Ikonvert.carriable_of_parseLine {line : List Char} {f : RawFrame}
    (h : Ikonvert.parseLine line = pure (.frame f)) : Carriable f := by
  rw [Ikonvert.parseLine] at h
  obtain ⟨-, h⟩ := ite_throw_eq_pure.mp h
  split at h
  · obtain ⟨f', hf, h⟩ := bind_eq_pure.mp h
    obtain rfl := Ikonvert.IkonvertLine.frame.inj (pure_inj.mp h)
    rw [parseN2kLine] at hf
    obtain ⟨pgn, -, hf⟩ := bind_eq_pure.mp hf
    obtain ⟨prio, -, hf⟩ := bind_eq_pure.mp hf
    obtain ⟨src, -, hf⟩ := bind_eq_pure.mp hf
    obtain ⟨dst, -, hf⟩ := bind_eq_pure.mp hf
    obtain ⟨ts, hts, hf⟩ := bind_eq_pure.mp hf
    obtain ⟨b64, hb64, hf⟩ := bind_eq_pure.mp hf
    obtain ⟨decoded, -, hf⟩ := bind_eq_pure.mp hf
    obtain ⟨data, -, hf⟩ := bind_eq_pure.mp hf
    rw [pure_inj] at hf
    subst hf
    rintro _ ⟨⟩
    rw [String.toList_ofList]
    exact .inl (sep_not_mem_splitN (orError_eq_pure.mp hts) (orError_eq_pure.mp hb64))
  · split at h
    · cases pure_inj.mp h
    · cases pure_inj.mp h

/-- A PLAIN line carries a frame that a parser has read just where no comma is left in its
timestamp; PLAIN and iKonvert leave none. -/
theorem plain_line_carries (clock : Option UInt64) (format : InputFormat) (line : List Char)
    (f : RawFrame) (h : parseWith clock format line = pure (some f))
    (hlen : f.data.length ≤ RAWFRAME_MAX_SIZE) :
    (Plain.parseLine (Plain.writeLine f) = pure (carried f) ↔ Carriable f) ∧
    (format = .plain ∨ format = .plainMixFast ∨ format = .ikonvert → Carriable f) := by
  refine ⟨carried_iff hlen, ?_⟩
  have hplain : some <$> Plain.parseLine line = (pure (some f) : Checked ParseError _) →
      Carriable f := by
    intro h
    rw [map_eq_pure_bind] at h
    obtain ⟨f', hf, h⟩ := bind_eq_pure.mp h
    obtain rfl := Option.some.inj (pure_inj.mp h)
    exact fun ts hts => .inl (comma_not_mem_of_parseLine hf hts)
  rintro (rfl | rfl | rfl)
  · exact hplain h
  · exact hplain h
  · obtain ⟨l, hl, h⟩ := bind_eq_pure.mp h
    cases l with
    | frame f' =>
        obtain rfl := Option.some.inj (pure_inj.mp h)
        exact Ikonvert.carriable_of_parseLine hl
    | control s => cases pure_inj.mp h
    | other => cases pure_inj.mp h

/-- A line of Actisense in the middle of the day, and what its frame is. -/
def afternoonLine : List Char := "A173321.107 23FF7 1F119 01".toList

def afternoonFrame : RawFrame where
  timestamp := some "17:33:21,107"
  prio := 7
  pgn := 127257
  src := 35
  dst := 255
  data := [1]

theorem plain_line_carries_afternoon :
    Plain.parseLine (Plain.writeLine afternoonFrame) = pure (carried afternoonFrame) := by
  have hread : (parseWith none .actisenseAscii afternoonLine).run =
      .ok (.ok (some afternoonFrame)) := by decide +kernel
  refine (plain_line_carries none .actisenseAscii afternoonLine afternoonFrame hread
    (by decide)).1.mpr ?_
  rintro _ ⟨⟩
  refine .inr (.inl ?_)
  refine ⟨by decide, by decide, by decide, by decide, ?_⟩
  rintro _ ⟨⟩
  decide

/-- A line of Actisense at an hour that the day has not, and what its frame is. -/
def midnightLine : List Char := "A240000 23FF7 1F119 01".toList

def midnightFrame : RawFrame where
  timestamp := some "24:00:00,000"
  prio := 7
  pgn := 127257
  src := 35
  dst := 255
  data := [1]

/-- The comma of its timestamp parts the header. -/
theorem midnight_not_carried :
    (parseWith none .actisenseAscii midnightLine).run = .ok (.ok (some midnightFrame)) ∧
    midnightFrame.data.length ≤ RAWFRAME_MAX_SIZE ∧
    Plain.writeLine midnightFrame = "24:00:00,000,7,127257,35,255,1,01".toList ∧
    Plain.parseLine (Plain.writeLine midnightFrame) =
      throw (.badInteger "src" "127257".toList (some 15)) := by
  refine ⟨by decide +kernel, by decide, by decide +kernel, ?_⟩
  have herror : (Plain.parseLine (Plain.writeLine midnightFrame)).run =
      .ok (.error (.badInteger "src" "127257".toList (some 15))) := by decide +kernel
  exact herror

end Canboat
