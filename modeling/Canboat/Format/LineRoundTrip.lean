import Canboat.Core.Numeral
import Canboat.Format.LineTimes

/-!
# Lines that are read back

A YDWG-02 line and an Actisense N2K ASCII line carry the message of a frame, and the time of day
of its timestamp as far as `time_of_day` found one.
-/

namespace Canboat

open Checked

/-- The same message, at any time. -/
def SameMessage (g f : RawFrame) : Prop :=
  g.prio = f.prio ∧ g.pgn = f.pgn ∧ g.src = f.src ∧ g.dst = f.dst ∧ g.data = f.data

/-- The line of a frame is read as its message, at the time of day that its timestamp gives. -/
def RoundTrips (write : RawFrame → Except Fault (List Char))
    (parse : List Char → Checked ParseError RawFrame) (f : RawFrame) : Prop :=
  ∃ line g p, write f = .ok line ∧ parse line = pure g ∧ SameMessage g f ∧
    g.timestamp = some p ∧ NormalisesTo p.toList (givenTime (f.timestamp.map (·.toList)))

/-! ## The time that is written -/

theorem sliceText_between (a t b : List Char) :
    sliceText (a ++ t ++ b) (byteLen a) (byteLen (a ++ t)) = .ok t := by
  rw [sliceText, if_neg (by rw [byteLen_append]; omega), splitAtByte_of_append]
  dsimp only [bind, Except.bind]
  rw [splitAtByte_of_append]
  rfl

theorem sliceText_ok {s t : List Char} {lo hi : ℕ} (h : sliceText s lo hi = .ok t) :
    ∃ a b, s = a ++ t ++ b ∧ byteLen a = lo ∧ byteLen (a ++ t) = hi := by
  rw [sliceText] at h
  split_ifs at h with hle
  change (splitAtByte s hi >>= fun r => splitAtByte r.1 lo >>= fun q => pure q.2) = .ok t at h
  obtain ⟨⟨before, after⟩, hbefore, hslice⟩ := Fault.bind_ok_iff.mp h
  obtain ⟨⟨start, text⟩, htext, hpure⟩ := Fault.bind_ok_iff.mp hslice
  obtain ⟨rfl, hhi⟩ := splitAtByte_ok hbefore
  obtain ⟨rfl, hlo⟩ := splitAtByte_ok htext
  obtain rfl := Except.ok.inj hpure
  exact ⟨start, after, rfl, hlo, hhi⟩

theorem byteLen_ascii {s : List Char} (hs : ∀ c ∈ s, Plain.Ascii c) : byteLen s = s.length := by
  rw [← ActisenseAscii.length_utf8Bytes, Plain.utf8Bytes_ascii hs, List.length_map]

theorem IsTime.ascii {t : List Char} (h : IsTime t) : ∀ c ∈ t, Plain.Ascii c := by
  intro c hc
  have hfits := ascii_of_fits
    (show ∀ c ∈ "dd:dd:dd.ddd".toList, c.toNat < 128 by decide) h.2 c
  rw [List.take_of_length_le (by simp [h.1])] at hfits
  exact hfits hc

/-- Nothing is recognised in what stays as it is without being canonical. -/
theorem normalizeTimestamp_cases (raw : List Char) :
    isCanonical (normalizeTimestamp raw) = true ∨
      normalizeTime (normalizeTimestamp raw) = some (normalizeTimestamp raw) ∨
      normalizeTimestamp raw = raw := by
  rw [normalizeTimestamp]
  split_ifs with hcanonical
  · exact .inl hcanonical
  · dsimp only
    split_ifs with hdate
    · cases hdated : normalizeTime ((trim raw).drop 11) with
      | some x => exact .inl (isCanonical_date hdate.1 hdated)
      | none =>
          cases htime : normalizeTime (trim raw) with
          | some x => exact .inr (.inl (normalizeTime_spec htime).2.2)
          | none => exact .inr (.inr rfl)
    · rw [Option.none_or]
      cases htime : normalizeTime (trim raw) with
      | some x => exact .inr (.inl (normalizeTime_spec htime).2.2)
      | none => exact .inr (.inr rfl)

theorem not_isCanonical_of_isTime {n : List Char} (h : IsTime n) : ¬isCanonical n = true := by
  rw [isCanonical, Bool.and_eq_true, beq_iff_eq, h.1]
  exact fun h => absurd h.1 (by decide)

/-- The time of a canonical timestamp is what is written of it. -/
theorem timeOfDay_canonical {raw : List Char} (h : isCanonical (normalizeTimestamp raw) = true) :
    timeOfDay (some raw) = .ok (((normalizeTimestamp raw).drop 11).take 12) := by
  rw [timeOfDay]
  generalize normalizeTimestamp raw = n at h
  rw [isCanonical, Bool.and_eq_true, beq_iff_eq] at h
  obtain ⟨hlen, hfits⟩ := h
  have hascii : ∀ c ∈ n, Plain.Ascii c := by
    intro c hc
    have hall := ascii_of_fits
      (show ∀ c ∈ "dddd-dd-ddTdd:dd:dd.dddZ".toList, c.toNat < 128 by decide) hfits c
    rw [List.take_of_length_le (by simp [hlen])] at hall
    exact hall hc
  have hT : (utf8Bytes n)[10]? = some 0x54 := by
    obtain ⟨c, hc, hT⟩ := fits_getElem? (i := 10) (q := 'T') hfits (by decide)
    rw [if_neg (by decide), beq_iff_eq] at hT
    rw [Plain.utf8Bytes_ascii hascii, List.getElem?_map, hc, hT]
    rfl
  rw [if_pos ⟨by rw [ActisenseAscii.length_utf8Bytes, byteLen_ascii hascii, hlen], hT⟩]
  have hparts : n.take 11 ++ (n.drop 11).take 12 ++ (n.drop 11).drop 12 = n := by
    rw [List.append_assoc, List.take_append_drop, List.take_append_drop]
  have htake : byteLen (n.take 11) = 11 := by
    rw [byteLen_ascii fun c hc => hascii c (List.mem_of_mem_take hc), List.length_take, hlen]
    rfl
  have htwelve : byteLen (n.take 11 ++ (n.drop 11).take 12) = 23 := by
    rw [byteLen_append, htake, byteLen_ascii fun c hc =>
      hascii c (List.mem_of_mem_drop (List.mem_of_mem_take hc)), List.length_take,
      List.length_drop, hlen]
    rfl
  have hslice := sliceText_between (n.take 11) ((n.drop 11).take 12) ((n.drop 11).drop 12)
  rwa [hparts, htake, htwelve] at hslice

theorem timeOfDay_time {raw : List Char} (h : IsTime (normalizeTimestamp raw)) :
    timeOfDay (some raw) = .ok (normalizeTimestamp raw) := by
  rw [timeOfDay]
  generalize normalizeTimestamp raw = n at h
  have hlen : (utf8Bytes n).length = 12 := by
    rw [ActisenseAscii.length_utf8Bytes, byteLen_ascii h.ascii, h.1]
  have hcolon : (utf8Bytes n)[2]? = some 0x3a := by
    obtain ⟨c, hc, hcolon⟩ := fits_getElem? (i := 2) (q := ':') h.2 (by decide)
    rw [if_neg (by decide), beq_iff_eq] at hcolon
    rw [Plain.utf8Bytes_ascii h.ascii, List.getElem?_map, hc, hcolon]
    rfl
  rw [if_neg (by rw [hlen]; exact fun h => absurd h.1 (by decide)), if_pos ⟨hlen, hcolon⟩]

theorem byteLen_of_timeOfDay {ts : Option (List Char)} {w : List Char}
    (h : timeOfDay ts = .ok w) : byteLen w = 12 := by
  cases ts with
  | none =>
      cases h
      decide
  | some raw =>
      rw [timeOfDay] at h
      split_ifs at h with hlong hshort
      · obtain ⟨a, b, -, hlo, hhi⟩ := sliceText_ok h
        rw [byteLen_append, hlo] at hhi
        omega
      · cases h
        rw [← ActisenseAscii.length_utf8Bytes]
        exact hshort.1
      · cases h
        decide

/-- The time that is written comes back where a time in range and a midnight do. -/
theorem timeHeld_iff {carries : List Char → List Char → Prop} {readsMidnight : List Char → Prop}
    (hself : ∀ t, IsTime t → (carries t t ↔ TimeInRange t))
    (hmidnight : ∀ w, carries w midnight ↔ readsMidnight w) (ts : Option (List Char)) :
    (∃ w, timeOfDay ts = .ok w ∧ carries w (givenTime ts)) ↔ TimeHeld readsMidnight ts := by
  have hsame : carries midnight midnight :=
    (hself midnight isTime_midnight.1).mpr isTime_midnight.2
  cases ts with
  | none => exact iff_of_true ⟨midnight, rfl, hsame⟩ nofun
  | some raw =>
      rw [TimeHeld]
      simp only [Option.mem_some_iff, forall_eq']
      by_cases hcanonical : isCanonical (normalizeTimestamp raw) = true
      · have hgiven : givenTime (some raw) = ((normalizeTimestamp raw).drop 11).take 12 :=
          if_pos hcanonical
        rw [timeOfDay_canonical hcanonical, hgiven, if_pos hcanonical,
          ← hself _ (isTime_of_isCanonical hcanonical)]
        exact ⟨fun ⟨w, hw, h⟩ => by cases hw; exact h, fun h => ⟨_, rfl, h⟩⟩
      rw [if_neg hcanonical]
      by_cases htime : normalizeTime (normalizeTimestamp raw) = some (normalizeTimestamp raw)
      · have hgiven : givenTime (some raw) = normalizeTimestamp raw := by
          rw [givenTime, if_neg hcanonical, if_pos htime]
        obtain ⟨hform, hrange⟩ := isTime_of_normalizeTime htime
        rw [timeOfDay_time hform, hgiven]
        exact iff_of_true ⟨_, rfl, (hself _ hform).mpr hrange⟩ (.inl htime)
      · have hraw : normalizeTimestamp raw = raw :=
          ((normalizeTimestamp_cases raw).resolve_left hcanonical).resolve_left htime
        have hgiven : givenTime (some raw) = midnight := by
          rw [givenTime, if_neg hcanonical, if_neg htime]
        rw [or_iff_right htime, hgiven, timeOfDay, hraw]
        rw [ActisenseAscii.length_utf8Bytes]
        simp only [hmidnight]
        have hmid : readsMidnight midnight := (hmidnight midnight).mp hsame
        by_cases hlong : byteLen raw = 24 ∧ (utf8Bytes raw)[10]? = some 0x54
        · rw [if_pos hlong]
          constructor
          · intro h
            refine ⟨fun _ _ => h, fun hshort => ?_⟩
            omega
          · exact fun h => h.1 hlong.1 hlong.2
        · rw [if_neg hlong]
          split_ifs with hshort
          · constructor
            · rintro ⟨w, hw, h⟩
              cases hw
              exact ⟨fun h24 hT => absurd ⟨h24, hT⟩ hlong, fun _ _ => h⟩
            · exact fun h => ⟨raw, rfl, h.2 hshort.1 hshort.2⟩
          · exact iff_of_true ⟨midnight, rfl, hmid⟩
              ⟨fun h24 hT => absurd ⟨h24, hT⟩ hlong, fun h12 hcolon => absurd ⟨h12, hcolon⟩ hshort⟩

/-! ## YDWG-02 -/

theorem toList_padded (width n : ℕ) : (padded width n).toList = Binary64.paddedDigits width n := by
  rw [padded, String.toList_append, String.toList_ofList, Binary64.paddedDigits, Binary64.digits,
    String.length_toList]

theorem fits_replicate {s : List Char} (hs : ∀ c ∈ s, c.isDigit = true) :
    fits (List.replicate s.length 'd') s = true := by
  induction s with
  | nil => rfl
  | cons c s ih =>
      rw [List.forall_mem_cons] at hs
      rw [List.length_cons, List.replicate_succ, fits, if_pos rfl, hs.1, ih hs.2]
      rfl

theorem daysToYmd_lt (days : ℤ) : (daysToYmd days).2.1 < 100 ∧ (daysToYmd days).2.2 < 100 := by
  rw [daysToYmd]
  dsimp only
  have hlo : 0 ≤ days + 719468 - (days + 719468) / 146097 * 146097 := by omega
  have hhi : days + 719468 - (days + 719468) / 146097 * 146097 < 146097 := by omega
  generalize days + 719468 - (days + 719468) / 146097 * 146097 = doe at *
  generalize hyoe : (doe - doe / 1460 + doe / 36524 - doe / 146096) / 365 = yoe
  have hdoy : -10 ≤ doe - (365 * yoe + yoe / 4 - yoe / 100) ∧
      doe - (365 * yoe + yoe / 4 - yoe / 100) ≤ 400 := by omega
  generalize doe - (365 * yoe + yoe / 4 - yoe / 100) = doy at *
  clear hyoe
  split_ifs <;> omega

namespace Ydwg02

/-- The year of the host's date has four digits. -/
def FourDigitYear (clock : Option UInt64) : Prop :=
  0 ≤ (daysToYmd ((clock.map (·.toInt64.toInt)).getD 0 / 86400)).1 ∧
    (daysToYmd ((clock.map (·.toInt64.toInt)).getD 0 / 86400)).1 ≤ 9999

/-- The time stands alone in the text. -/
def Carries (w time : List Char) : Prop :=
  ∃ t, splitWhitespace w = [t] ∧ normalizeTime t = some time

/-- A midnight, with or without blanks around it. -/
def ReadsMidnight (w : List Char) : Prop := Carries w midnight

theorem paddedYear_nonneg {y : ℤ} (hy : 0 ≤ y) :
    paddedYear y = Binary64.paddedDigits 4 y.natAbs := by
  rw [paddedYear, if_neg (by omega), toList_padded]

/-- A year of four digits makes a date. -/
theorem date_fits {y : ℤ} {m d : ℕ} (hlo : 0 ≤ y) (hhi : y ≤ 9999) (hm : m < 100) (hd : d < 100) :
    fits "dddd-dd-dd".toList (paddedYear y ++ '-' :: (Binary64.paddedDigits 2 m ++
      '-' :: Binary64.paddedDigits 2 d)) = true ∧
    (paddedYear y ++ '-' :: (Binary64.paddedDigits 2 m ++
      '-' :: Binary64.paddedDigits 2 d)).length = 10 := by
  have hyear : (Binary64.paddedDigits 4 y.natAbs).length = 4 :=
    length_paddedDigits (by omega) (by decide)
  have hmonth : (Binary64.paddedDigits 2 m).length = 2 := length_paddedDigits hm (by decide)
  have hday : (Binary64.paddedDigits 2 d).length = 2 := length_paddedDigits hd (by decide)
  have hyfits := fits_replicate (all_isDigit_padded 4 y.natAbs)
  have hmfits := fits_replicate (all_isDigit_padded 2 m)
  have hdfits := fits_replicate (all_isDigit_padded 2 d)
  rw [hyear] at hyfits
  rw [hmonth] at hmfits
  rw [hday] at hdfits
  rw [paddedYear_nonneg hlo]
  constructor
  · rw [show "dddd-dd-dd".toList = List.replicate 4 'd' ++ '-' :: (List.replicate 2 'd' ++
      '-' :: List.replicate 2 'd') by decide, fits_append hyear, hyfits, Bool.true_and, fits,
      fits_append hmonth, hmfits, Bool.true_and, fits, hdfits]
    rfl
  · simp only [List.length_append, List.length_cons, hyear, hmonth, hday]

/-- Any other year makes neither a date nor a time. -/
theorem not_fits_year {y : ℤ} (hy : ¬(0 ≤ y ∧ y ≤ 9999)) (s : List Char) :
    ¬fits "dddd-dd-dd".toList (paddedYear y ++ s) = true ∧
      ¬fits "dd:dd:dd".toList (paddedYear y ++ s) = true ∧
      ∀ c ∈ (paddedYear y ++ s).head?, isWhitespace c = false := by
  by_cases hneg : y < 0
  · rw [paddedYear, if_pos hneg]
    refine ⟨?_, ?_, ?_⟩
    · simp [fits]
    · simp [fits]
    · rintro c ⟨⟩
      decide
  · rw [paddedYear_nonneg (by omega)]
    have hlong : 5 ≤ (Binary64.paddedDigits 4 y.natAbs).length := by
      have hdigits : ¬(Binary64.digits y.natAbs).length ≤ 4 := by
        rw [Binary64.digits, Nat.toList_repr,
          Nat.length_toDigits_le_iff (by decide) (by decide)]
        omega
      rw [Binary64.paddedDigits, List.length_append, List.length_replicate]
      omega
    have hget : ∀ i < 5, ∃ c, (Binary64.paddedDigits 4 y.natAbs ++ s)[i]? = some c ∧
        c.isDigit = true := by
      intro i hi
      have hin : i < (Binary64.paddedDigits 4 y.natAbs).length := by omega
      refine ⟨_, (List.getElem?_append_left hin).trans (List.getElem?_eq_getElem hin), ?_⟩
      exact all_isDigit_padded 4 y.natAbs _ (List.getElem_mem hin)
    refine ⟨?_, ?_, ?_⟩
    · intro h
      obtain ⟨c, hc, hdash⟩ := fits_getElem? (i := 4) (q := '-') h (by decide)
      obtain ⟨d, hd, hdigit⟩ := hget 4 (by decide)
      rw [if_neg (by decide), beq_iff_eq] at hdash
      rw [hc, hdash] at hd
      cases hd
      cases hdigit
    · intro h
      obtain ⟨c, hc, hcolon⟩ := fits_getElem? (i := 2) (q := ':') h (by decide)
      obtain ⟨d, hd, hdigit⟩ := hget 2 (by decide)
      rw [if_neg (by decide), beq_iff_eq] at hcolon
      rw [hc, hcolon] at hd
      cases hd
      cases hdigit
    · intro c hc
      obtain ⟨d, hd, hdigit⟩ := hget 0 (by decide)
      rw [List.head?_eq_getElem?, hd] at hc
      obtain rfl := Option.mem_some.mp hc
      exact isWhitespace_of_isDigit hdigit

/-- The host's date with a token behind it. -/
theorem synthIsoTimestamp_normalises (clock : Option UInt64) {t time : List Char} (ht : IsToken t)
    (hshort : t.length ≤ 12) (htime : IsTime time) :
    (∃ p, synthIsoTimestamp clock t = .ok p ∧ NormalisesTo p time) ↔
      FourDigitYear clock ∧ normalizeTime t = some time := by
  have hbounds : -9223372036854775808 ≤ (clock.map (·.toInt64.toInt)).getD 0 ∧
      (clock.map (·.toInt64.toInt)).getD 0 ≤ 9223372036854775807 := by
    cases clock with
    | none => decide
    | some secs => exact ⟨secs.toInt64.le_toInt, Int64.toInt_le _⟩
  rw [FourDigitYear, synthIsoTimestamp]
  generalize (clock.map (·.toInt64.toInt)).getD 0 = secs at hbounds
  rw [checkedDaysToYmd_eq (by omega) (by omega)]
  obtain ⟨hm, hd⟩ := daysToYmd_lt (secs / 86400)
  generalize hymd : daysToYmd (secs / 86400) = ymd at *
  obtain ⟨y, m, d⟩ := ymd
  have htext : (paddedYear y ++ ("-" ++ padded 2 m ++ "-" ++ padded 2 d ++ "T").toList ++ t) =
      (paddedYear y ++ '-' :: (Binary64.paddedDigits 2 m ++
        '-' :: Binary64.paddedDigits 2 d)) ++ 'T' :: t := by
    simp only [String.toList_append, toList_padded]
    simp
  by_cases hfits : y ≤ i32Max
  · rw [if_pos hfits]
    have hsynth : ∀ p, (∃ q, (.ok (paddedYear y ++
        ("-" ++ padded 2 m ++ "-" ++ padded 2 d ++ "T").toList ++ t) : Except Fault (List Char)) =
          .ok q ∧ NormalisesTo q p) ↔ NormalisesTo ((paddedYear y ++ '-' ::
            (Binary64.paddedDigits 2 m ++ '-' :: Binary64.paddedDigits 2 d)) ++ 'T' :: t) p := by
      intro p
      rw [htext]
      simp only [Except.ok.injEq, exists_eq_left']
    refine (hsynth time).trans ?_
    by_cases hyear : 0 ≤ y ∧ y ≤ 9999
    · obtain ⟨hdate, hlen⟩ := date_fits hyear.1 hyear.2 hm hd
      rw [normalisesTo_dated hdate hlen ht hshort htime]
      exact (and_iff_right hyear).symm
    · refine iff_of_false ?_ fun h => hyear h.1
      obtain ⟨hdate, hclock, hhead⟩ := not_fits_year hyear ('-' ::
        (Binary64.paddedDigits 2 m ++ '-' :: Binary64.paddedDigits 2 d) ++ 'T' :: t)
      rw [← List.append_assoc] at hdate hclock hhead
      refine not_normalisesTo (trim_eq_self hhead ?_) hdate hclock htime
      intro c hc
      rw [List.append_cons, List.getLast?_append_of_ne_nil _ ht.1] at hc
      exact ht.2 c (List.mem_of_getLast? hc)
  · rw [if_neg hfits]
    refine iff_of_false (by rintro ⟨p, ⟨⟩, -⟩) fun h => hfits ?_
    have hle : y ≤ 9999 := h.1.2
    rw [i32Max]
    omega

/-- The line behind its time. -/
def message (f : RawFrame) : List Char :=
  'R' :: ' ' :: (paddedHex 8 (iso11783Compose f.prio f.pgn f.src f.dst).toNat ++
    f.data.flatMap fun b => ' ' :: paddedHex 2 b.toNat)

theorem writeLine_ok_iff {f : RawFrame} {line : List Char} :
    writeLine f = .ok line ↔
      ∃ w, timeOfDay (f.timestamp.map (·.toList)) = .ok w ∧ line = w ++ ' ' :: message f := by
  rw [writeLine, Fault.bind_ok_iff]
  refine exists_congr fun w => and_congr_right fun _ => ?_
  constructor
  · intro h
    exact (Except.ok.inj h).symm
  · rintro rfl
    rfl

theorem tokens_line (w : List Char) (f : RawFrame) :
    splitWhitespace (trimNewlines (w ++ ' ' :: message f)) = splitWhitespace w ++
      ['R'] :: paddedHex 8 (iso11783Compose f.prio f.pgn f.src f.dst).toNat ::
        f.data.map fun b => paddedHex 2 b.toNat := by
  have hclean : ∀ c ∈ ' ' :: message f, c ≠ '\r' ∧ c ≠ '\n' := by
    have hblank : ∀ c, isWhitespace c = false → c ≠ '\r' ∧ c ≠ '\n' := by
      rintro c hc
      constructor
      · rintro rfl
        cases hc
      · rintro rfl
        cases hc
    intro c hc
    rw [message, List.mem_cons, List.mem_cons, List.mem_cons, List.mem_append,
      List.mem_flatMap] at hc
    rcases hc with rfl | rfl | rfl | hc | ⟨b, -, hc⟩
    · decide
    · decide
    · decide
    · exact hblank c (isUpperHex_of_mem hc).spec.2.1
    · rcases List.mem_cons.mp hc with rfl | hc
      · decide
      · exact hblank c (isUpperHex_of_mem hc).spec.2.1
  have hR : splitWhitespace ['R'] = [['R']] := splitWhitespace_token (by
    refine ⟨List.cons_ne_nil _ _, ?_⟩
    decide)
  rw [trimNewlines_append (List.cons_ne_nil _ _) hclean, splitWhitespace_append, message,
    show ∀ s, 'R' :: ' ' :: s = ['R'] ++ ' ' :: s from fun _ => rfl, splitWhitespace_append, hR,
    splitWhitespace_flatMap fun b : UInt8 => isToken_paddedHex 2 b.toNat,
    splitWhitespace_token (isToken_paddedHex 8 _)]
  rfl

def appendByte (data : List UInt8) (t : List Char) : Checked ParseError (List UInt8) := do
  let b ← orError (parseHex 255 t) (.badHexByte data.length t none)
  pure (data ++ [UInt8.ofNat b])

/-- A frame is read from a time, a direction, an identifier and bytes. -/
theorem parseLine_pure_iff {clock : Option UInt64} {line : List Char} {g : RawFrame} :
    parseLine clock line = pure g ↔ trimNewlines line ≠ [] ∧
      ∃ time, (splitWhitespace (trimNewlines line))[0]? = some time ∧
      ∃ ts, synthIsoTimestamp clock time = .ok ts ∧
      ∃ dir, (splitWhitespace (trimNewlines line))[1]? = some dir ∧
      ∃ canidTok, (splitWhitespace (trimNewlines line))[2]? = some canidTok ∧
      ∃ canid, parseHex 4294967295 canidTok = some canid ∧
      ∃ data, ((splitWhitespace (trimNewlines line)).drop 3).foldlM appendByte [] = pure data ∧
      { timestamp := some (String.ofList ts), prio := (iso11783Decompose (UInt32.ofNat canid)).1,
        pgn := (iso11783Decompose (UInt32.ofNat canid)).2.1,
        src := (iso11783Decompose (UInt32.ofNat canid)).2.2.1,
        dst := (iso11783Decompose (UInt32.ofNat canid)).2.2.2, data } = g := by
  rw [parseLine, ite_throw_eq_pure]
  refine and_congr Iff.rfl ?_
  simp only [bind_eq_pure, orError_eq_pure, check_eq_pure, pure_inj]
  rfl

theorem appendByte_hex (acc data : List UInt8) :
    (data.map fun b => paddedHex 2 b.toNat).foldlM appendByte acc = pure (acc ++ data) := by
  apply foldlM_map
  intro acc b
  rw [appendByte, parseHex_byte, orError, pure_bind, UInt8.ofNat_toNat]

theorem length_of_appendByte {l : List (List Char)} {acc out : List UInt8}
    (h : l.foldlM appendByte acc = pure out) : out.length = acc.length + l.length := by
  have hlen := length_of_foldlM (k := fun _ => 1) (fun acc t out h => by
    rw [appendByte, bind_eq_pure] at h
    obtain ⟨b, -, h⟩ := h
    rw [pure_inj] at h
    rw [← h, List.length_append]
    rfl) h
  rwa [List.map_const', List.sum_replicate_nat, Nat.mul_one] at hlen

theorem decompose_of_frame {f : RawFrame} (hprio : f.prio.toNat < 8) (hpgn : CarriablePgn f.pgn)
    (hdst : 240 ≤ pduFormat f.pgn → f.dst = 0xff) :
    iso11783Decompose (UInt32.ofNat (iso11783Compose f.prio f.pgn f.src f.dst).toNat) =
      (f.prio, f.pgn, f.src, f.dst) := by
  rw [UInt32.ofNat_toNat, decompose_compose hprio hpgn]
  split_ifs with hpdu
  · rfl
  · rw [hdst (UInt32.not_lt.mp hpdu)]

/-- The message comes back, and the time where it stands alone in front of it. -/
theorem roundTrips_iff_carries (clock : Option UInt64) {f : RawFrame} (hprio : f.prio.toNat < 8)
    (hpgn : CarriablePgn f.pgn) (hdst : 240 ≤ pduFormat f.pgn → f.dst = 0xff) :
    RoundTrips writeLine (parseLine clock) f ↔ FourDigitYear clock ∧
      ∃ w, timeOfDay (f.timestamp.map (·.toList)) = .ok w ∧
        Carries w (givenTime (f.timestamp.map (·.toList))) := by
  have htime := isTime_givenTime (f.timestamp.map (·.toList))
  have hdecompose := decompose_of_frame hprio hpgn hdst
  have hcanid : parseHex 4294967295
      (paddedHex 8 (iso11783Compose f.prio f.pgn f.src f.dst).toNat) =
        some (iso11783Compose f.prio f.pgn f.src f.dst).toNat := by
    have hlt := (iso11783Compose f.prio f.pgn f.src f.dst).toNat_lt
    exact parseHex_paddedHex 8 (by omega)
  have hshort : ∀ {w t : List Char}, timeOfDay (f.timestamp.map (·.toList)) = .ok w →
      t ∈ splitWhitespace w → IsToken t ∧ t.length ≤ 12 := by
    intro w t hw ht
    obtain ⟨htoken, hle⟩ := isToken_of_mem ht
    have hbytes := ActisenseAscii.length_le_byteLen w
    rw [byteLen_of_timeOfDay hw] at hbytes
    exact ⟨htoken, hle.trans hbytes⟩
  constructor
  · rintro ⟨line, g, p, hline, hparse, hsame, hp, hnormal⟩
    obtain ⟨w, hw, rfl⟩ := writeLine_ok_iff.mp hline
    obtain ⟨-, time, htok, ts, hts, dir, -, canidTok, hcanidTok, canid, hparsed, data, hdata, rfl⟩ :=
      parseLine_pure_iff.mp hparse
    rw [tokens_line] at htok hcanidTok hdata
    obtain rfl : p = String.ofList ts := (Option.some.inj hp).symm
    rw [String.toList_ofList] at hnormal
    have hlength : data.length = f.data.length := congrArg List.length hsame.2.2.2.2
    have hread := length_of_appendByte hdata
    rw [List.length_nil, Nat.zero_add, hlength] at hread
    rcases htoks : splitWhitespace w with _ | ⟨t, _ | ⟨t₁, _ | ⟨t₂, toks⟩⟩⟩
    · -- the direction is taken for the time
      rw [htoks] at htok
      obtain rfl := Option.some.inj htok
      have htoken : IsToken ['R'] := ⟨List.cons_ne_nil _ _, by decide⟩
      obtain ⟨-, h⟩ := (synthIsoTimestamp_normalises clock htoken (by decide) htime).mp
        ⟨ts, hts, hnormal⟩
      cases h
    · rw [htoks] at htok
      obtain rfl := Option.some.inj htok
      obtain ⟨htoken, hle⟩ := hshort hw (htoks ▸ List.mem_cons_self)
      obtain ⟨hyear, hfound⟩ := (synthIsoTimestamp_normalises clock htoken hle htime).mp
        ⟨ts, hts, hnormal⟩
      exact ⟨hyear, w, hw, t, htoks, hfound⟩
    · -- the direction is taken for the identifier
      rw [htoks] at hcanidTok
      obtain rfl := Option.some.inj hcanidTok
      cases hparsed
    · -- the direction and the identifier are taken for bytes
      rw [htoks] at hread
      simp only [List.cons_append, List.drop_succ_cons, List.drop_zero, List.length_append,
        List.length_cons, List.length_map] at hread
      omega
  · rintro ⟨hyear, w, hw, t, htoks, hfound⟩
    obtain ⟨htoken, hle⟩ := hshort hw (htoks ▸ List.mem_cons_self)
    obtain ⟨ts, hts, hnormal⟩ := (synthIsoTimestamp_normalises clock htoken hle htime).mpr
      ⟨hyear, hfound⟩
    have htokens := tokens_line w f
    rw [htoks] at htokens
    have hne : trimNewlines (w ++ ' ' :: message f) ≠ [] := by
      intro hnil
      rw [hnil] at htokens
      cases htokens
    refine ⟨_, _, String.ofList ts, writeLine_ok_iff.mpr ⟨w, hw, rfl⟩,
      parseLine_pure_iff.mpr ⟨hne, t, by rw [htokens]; rfl, ts, hts, ['R'], by rw [htokens]; rfl, _,
        by rw [htokens]; rfl, _, hcanid, f.data, ?_, rfl⟩, ?_, rfl, ?_⟩
    · rw [htokens]
      exact appendByte_hex [] f.data
    · rw [hdecompose]
      exact ⟨rfl, rfl, rfl, rfl, rfl⟩
    · rwa [String.toList_ofList]

/-- A time in full stands alone in itself. -/
theorem carries_self (t : List Char) (ht : IsTime t) : Carries t t ↔ TimeInRange t := by
  have htoken : IsToken t := by
    refine ⟨List.ne_nil_of_length_pos (by rw [ht.1]; decide), ?_⟩
    obtain ⟨a, b, c, d, e, f, x, y, z, rfl, hdigits⟩ := ht.form
    simp only [List.forall_mem_cons] at hdigits ⊢
    simp [isWhitespace_of_isDigit, hdigits]
    decide
  rw [Carries, splitWhitespace_token htoken]
  constructor
  · rintro ⟨u, hu, h⟩
    exact (isTime_of_normalizeTime h).2
  · intro h
    exact ⟨t, rfl, by rw [ht.normalizeTime_eq, if_pos h]⟩

end Ydwg02

end Canboat
