import Canboat.Format.LineRoundTrip
import Canboat.Format.OneInstant

/-!
# Instants as they are written

A written instant comes back from every reader of timestamps.
-/

namespace Canboat

open Checked Plain Binary64

/-- The last millisecond of the year 9999. -/
def LAST_MS : ℕ := 253402300799999

/-! ## Numbers with their zeros -/

theorem parseSigned_padded {lo hi : ℤ} {width n : ℕ} (hlo : lo ≤ n) (hhi : (n : ℤ) ≤ hi) :
    parseSigned lo hi (paddedDigits width n) = some (n : ℤ) := by
  have hall := all_isDigit_padded width n
  have hne : paddedDigits width n ≠ [] := List.append_ne_nil_of_right_ne_nil _ (digits_ne_nil n)
  have hsign : splitSign (paddedDigits width n) = (false, paddedDigits width n) := by
    rw [splitSign]
    · intro t ht
      rw [ht] at hall
      cases hall '-' List.mem_cons_self
    · intro t ht
      rw [ht] at hall
      cases hall '+' List.mem_cons_self
  rw [parseSigned, hsign, parseDigits, if_pos ⟨hne, List.all_eq_true.mpr hall⟩, ofDigitChars_padded,
    Option.map_some, if_neg Bool.false_ne_true, Option.filter_some, if_pos (decide_eq_true ⟨hlo, hhi⟩)]

theorem parseU32Int_padded {width n : ℕ} (hn : n ≤ 4294967295) :
    parseU32Int (paddedDigits width n) = some (n : ℤ) := by
  have hall := all_isDigit_padded width n
  have hne : paddedDigits width n ≠ [] := List.append_ne_nil_of_right_ne_nil _ (digits_ne_nil n)
  have hdigits : parseDigits (paddedDigits width n) = some n := by
    rw [parseDigits, if_pos ⟨hne, List.all_eq_true.mpr hall⟩, ofDigitChars_padded]
  rw [parseU32Int]
  unfold parseUnsigned
  split
  · rename_i t ht
    rw [ht] at hall
    cases hall '+' List.mem_cons_self
  · rw [hdigits, Option.filter_some, if_pos (decide_eq_true hn)]
    rfl

theorem digitsValue_padded (width n : ℕ) : digitsValue (paddedDigits width n) = n := by
  have hvalue := ofDigitChars_padded width n
  exact hvalue

theorem fractionMillis_padded {n : ℕ} (hn : n < 1000) :
    fractionMillis (paddedDigits 3 n) = some n := by
  have hall := all_isDigit_padded 3 n
  have hvalue := digitsValue_padded 3 n
  have hlen : (paddedDigits 3 n).length = 3 := length_paddedDigits (by omega) (by decide)
  obtain ⟨x, y, z, hxyz⟩ := List.length_eq_three.mp hlen
  rw [hxyz] at hall hvalue ⊢
  simp only [List.forall_mem_cons] at hall
  obtain ⟨hx, hy, hz, -⟩ := hall
  have hsum : 100 * (x.toNat - 48) + (10 * (y.toNat - 48) + (1 * (z.toNat - 48) + 0)) = n := by
    rw [← hvalue]
    show _ = 10 * (10 * (10 * 0 + (x.toNat - 48)) + (y.toNat - 48)) + (z.toNat - 48)
    omega
  show weighed 100 [x, y, z] = some n
  rw [weighed, if_pos hx, weighed, if_pos hy, weighed, if_pos hz, weighed, ← hsum]
  rfl

/-! ## A written time -/

/-- A date and a time with all their digits. -/
structure WrittenTime where
  date : Date
  h : ℕ
  mi : ℕ
  s : ℕ
  ms : ℕ
  valid : date.Valid
  year : 0 ≤ date.year ∧ date.year ≤ 9999
  inDay : h < 24 ∧ mi < 60 ∧ s < 60 ∧ ms < 1000

namespace WrittenTime

def fields (t : WrittenTime) : TimeFields where
  y := t.date.year
  mo := t.date.month
  d := t.date.day
  h := t.h
  mi := t.mi
  s := t.s
  ms := t.ms

/-- Its parts, with what follows the fraction. -/
def places (t : WrittenTime) (rest : List Char) : Places where
  y := paddedDigits 4 t.date.year.toNat
  mo := paddedDigits 2 t.date.month
  d := paddedDigits 2 t.date.day
  sep := 'T'
  h := paddedDigits 2 t.h
  mi := paddedDigits 2 t.mi
  s := paddedDigits 2 t.s
  rest := '.' :: (paddedDigits 3 t.ms ++ rest)

def text (t : WrittenTime) : List Char := (t.places ['Z']).text

theorem day_le (t : WrittenTime) : t.date.month ≤ 12 ∧ t.date.day ≤ 31 :=
  ⟨t.valid.month_le, t.valid.day_le.trans (Date.monthLength_le _ _)⟩

theorem widths (t : WrittenTime) :
    (paddedDigits 4 t.date.year.toNat).length = 4 ∧ (paddedDigits 2 t.date.month).length = 2 ∧
      (paddedDigits 2 t.date.day).length = 2 ∧ (paddedDigits 2 t.h).length = 2 ∧
      (paddedDigits 2 t.mi).length = 2 ∧ (paddedDigits 2 t.s).length = 2 := by
  have hyear := t.year
  have hday := t.day_le
  have hin := t.inDay
  exact ⟨length_paddedDigits (by omega) (by decide), length_paddedDigits (by omega) (by decide),
    length_paddedDigits (by omega) (by decide), length_paddedDigits (by omega) (by decide),
    length_paddedDigits (by omega) (by decide), length_paddedDigits (by omega) (by decide)⟩

theorem small (t : WrittenTime) : t.fields.Small := by
  have hyear := t.year
  have hin := t.inDay
  constructor <;> dsimp only [fields] <;> omega

/-- The instant of its numbers is the one of its date and time. -/
theorem value_fields (t : WrittenTime) :
    t.fields.value = some (t.fields.total t.date.dayNumber) := by
  rw [TimeFields.value]
  dsimp only [fields]
  rw [t.valid.daysSinceEpoch]
  rfl

theorem fractionRead_text (t : WrittenTime) (rest : List Char) :
    fractionRead (utf8Bytes (t.places rest).text) = t.ms := by
  obtain ⟨hy, hmo, hd, hh, hmi, hs⟩ := t.widths
  have hlen : (t.places rest).front.length = 19 := by
    rw [Places.front, places]
    simp only [List.length_append, List.length_cons]
    omega
  have hascii : ∀ c ∈ (t.places rest).front, Ascii c := by
    have hpad : ∀ width n, ∀ c ∈ paddedDigits width n, Ascii c :=
      fun width n c hc => ascii_of_isDigit (all_isDigit_padded width n c hc)
    rw [Places.front, places]
    simp only [List.forall_mem_append, List.forall_mem_cons]
    exact ⟨hpad _ _, show '-'.toNat < 128 by decide, hpad _ _, show '-'.toNat < 128 by decide,
      hpad _ _, show 'T'.toNat < 128 by decide, hpad _ _, show ':'.toNat < 128 by decide, hpad _ _,
      show ':'.toNat < 128 by decide, hpad _ _⟩
  have hthree : (paddedDigits 3 t.ms).length = 3 :=
    length_paddedDigits (by have := t.inDay; omega) (by decide)
  have htake : ∀ c ∈ (t.places rest).text.take 19, Ascii c := by
    rw [Places.text, List.take_left' hlen]
    exact hascii
  have hdot : (t.places rest).text[19]? = some '.' := by
    rw [Places.text, List.getElem?_append_right hlen.le, hlen]
    rfl
  have hdrop : (t.places rest).text.drop 20 = paddedDigits 3 t.ms ++ rest := by
    rw [show 20 = 19 + 1 from rfl, ← List.drop_drop, Places.text, List.drop_left' hlen]
    rfl
  rw [fractionRead_ascii htake (by rw [Places.text, List.length_append]; omega), if_pos (.inl hdot),
    hdrop]
  obtain ⟨x, y, z, hxyz⟩ := List.length_eq_three.mp hthree
  have hall := all_isDigit_padded 3 t.ms
  have hvalue := digitsValue_padded 3 t.ms
  rw [hxyz] at hall hvalue ⊢
  rw [List.cons_append, List.cons_append, List.cons_append, List.nil_append,
    behindPoint_cons fun c hc => ascii_of_isDigit (hall c hc),
    parseI64Int_digits (List.cons_ne_nil _ _) hall (by simp), hvalue]
  rfl

theorem reads {parse : List Char → Option ℤ}
    (hparse : ∀ width n, n < 100 → parse (paddedDigits width n) = some (n : ℤ)) (t : WrittenTime)
    (rest : List Char) : (t.places rest).Reads parse t.fields := by
  have hyear := t.year
  have hday := t.day_le
  have hin := t.inDay
  have hy : parseI64Int (paddedDigits 4 t.date.year.toNat) = some t.date.year := by
    rw [parseI64Int, parseSigned_padded (by omega) (by omega), Int.toNat_of_nonneg hyear.1]
  exact ⟨t.widths, .inl rfl, hy, hparse 2 _ (by omega), hparse 2 _ (by omega),
    hparse 2 _ (by omega), hparse 2 _ (by omega), hparse 2 _ (by omega),
    (t.fractionRead_text rest).symm⟩

theorem fieldsByPlace_text (t : WrittenTime) (rest : List Char) :
    fieldsByPlace numberBetween (t.places rest).text = some t.fields ∧
      fieldsByPlace unsignedBetween (t.places rest).text = some t.fields := by
  constructor
  · exact fields_of_places (fun b i j => rfl) (fun t v => ascii_of_number)
      (t.reads (fun width n hn => parseSigned_padded (by omega) (by omega)) rest)
  · exact fields_of_places (fun b i j => rfl)
      (fun t v hv => ascii_of_number (parseI64Int_of_unsigned hv).1)
      (t.reads (fun width n hn => parseU32Int_padded (by omega)) rest)

theorem not_mem_padded {c : Char} (hc : ¬c.isDigit = true) (width n : ℕ) :
    c ∉ paddedDigits width n := fun hmem => hc (all_isDigit_padded width n c hmem)

theorem isoFields_text (t : WrittenTime) : isoFields t.text = some t.fields := by
  have hyear := t.year
  have hday := t.day_le
  have hin := t.inDay
  obtain ⟨y, hy⟩ : ∃ y, y = paddedDigits 4 t.date.year.toNat := ⟨_, rfl⟩
  obtain ⟨mo, hmo⟩ : ∃ mo, mo = paddedDigits 2 t.date.month := ⟨_, rfl⟩
  obtain ⟨d, hd⟩ : ∃ d, d = paddedDigits 2 t.date.day := ⟨_, rfl⟩
  obtain ⟨h, hh⟩ : ∃ h, h = paddedDigits 2 t.h := ⟨_, rfl⟩
  obtain ⟨mi, hmi⟩ : ∃ mi, mi = paddedDigits 2 t.mi := ⟨_, rfl⟩
  obtain ⟨s, hs⟩ : ∃ s, s = paddedDigits 2 t.s := ⟨_, rfl⟩
  obtain ⟨ms, hms⟩ : ∃ ms, ms = paddedDigits 3 t.ms := ⟨_, rfl⟩
  have htrim : trimZulu t.text =
      (y ++ '-' :: (mo ++ '-' :: d)) ++ 'T' :: ((h ++ ':' :: (mi ++ ':' :: s)) ++ '.' :: ms) := by
    have hlast : ∀ c ∈ ((y ++ '-' :: (mo ++ '-' :: d)) ++
        'T' :: ((h ++ ':' :: (mi ++ ':' :: s)) ++ '.' :: ms)).getLast?, ¬(c == 'Z') = true := by
      intro c hc hZ
      have hmsne : ms ≠ [] := by
        rw [hms]
        exact List.append_ne_nil_of_right_ne_nil _ (digits_ne_nil _)
      rw [List.getLast?_append_of_ne_nil _ (List.cons_ne_nil _ _), List.getLast?_cons_of_ne_nil (by simp),
        List.getLast?_append_of_ne_nil _ (List.cons_ne_nil _ _), List.getLast?_cons_of_ne_nil hmsne] at hc
      rw [beq_iff_eq] at hZ
      have hmem := List.mem_of_mem_getLast? hc
      rw [hZ, hms] at hmem
      exact not_mem_padded (by decide) _ _ hmem
    have htext : t.text = ((y ++ '-' :: (mo ++ '-' :: d)) ++
        'T' :: ((h ++ ':' :: (mi ++ ':' :: s)) ++ '.' :: ms)) ++ ['Z'] := by
      rw [text, Places.text, Places.front, places, ← hy, ← hmo, ← hd, ← hh, ← hmi, ← hs, ← hms]
      simp
    rw [htext, trimZulu, trimEnd_append hlast, show trimEnd (· == 'Z') ['Z'] = [] from rfl,
      List.append_nil]
  have hno : ∀ {c : Char}, ¬c.isDigit = true → c ∉ y ∧ c ∉ mo ∧ c ∉ d ∧ c ∉ h ∧ c ∉ mi ∧ c ∉ s := by
    intro c hc
    rw [hy, hmo, hd, hh, hmi, hs]
    exact ⟨not_mem_padded hc _ _, not_mem_padded hc _ _, not_mem_padded hc _ _,
      not_mem_padded hc _ _, not_mem_padded hc _ _, not_mem_padded hc _ _⟩
  obtain ⟨hTy, hTmo, hTd, -⟩ := hno (c := 'T') (by decide)
  obtain ⟨hDy, hDmo, hDd, -⟩ := hno (c := '-') (by decide)
  obtain ⟨-, -, -, hCh, hCmi, hCs⟩ := hno (c := ':') (by decide)
  obtain ⟨-, -, -, hPh, hPmi, hPs⟩ := hno (c := '.') (by decide)
  have hdate : 'T' ∉ y ++ '-' :: (mo ++ '-' :: d) := by
    simp [hTy, hTmo, hTd]
  have hpoint : '.' ∉ h ++ ':' :: (mi ++ ':' :: s) := by
    simp [hPh, hPmi, hPs]
  have hyv : parseSigned (-2147483648) 2147483647 y = some t.date.year := by
    rw [hy, parseSigned_padded (by omega) (by omega), Int.toNat_of_nonneg hyear.1]
  have hmov : parseU32Int mo = some (t.date.month : ℤ) := hmo ▸ parseU32Int_padded (by omega)
  have hdv : parseU32Int d = some (t.date.day : ℤ) := hd ▸ parseU32Int_padded (by omega)
  have hhv : parseI64Int h = some (t.h : ℤ) := hh ▸ parseSigned_padded (by omega) (by omega)
  have hmiv : parseI64Int mi = some (t.mi : ℤ) := hmi ▸ parseSigned_padded (by omega) (by omega)
  have hsv : parseI64Int s = some (t.s : ℤ) := hs ▸ parseSigned_padded (by omega) (by omega)
  have hmsv : fractionMillis ms = some t.ms := hms ▸ fractionMillis_padded hin.2.2.2
  rw [isoFields, htrim, splitOnce_append hdate, Option.some_or]
  simp only [Option.bind_eq_bind, Option.bind_some]
  rw [threeParts_append hDy hDmo hDd]
  simp only [Option.bind_some, hyv, hmov, hdv]
  rw [splitOnce_append hpoint]
  simp only [hmsv, Option.map_some, Option.bind_some]
  rw [threeParts_append hCh hCmi hCs]
  simp only [Option.bind_some, hhv, hmiv, hsv]
  rfl

theorem isCanonical_text (t : WrittenTime) : isCanonical t.text = true := by
  obtain ⟨hy, hmo, hd, hh, hmi, hs⟩ := t.widths
  have hms : (paddedDigits 3 t.ms).length = 3 :=
    length_paddedDigits (by have := t.inDay; omega) (by decide)
  have hfits : ∀ {width n k : ℕ} {p s : List Char}, (paddedDigits width n).length = k →
      fits (List.replicate k 'd' ++ p) (paddedDigits width n ++ s) = fits p s := by
    rintro width n k p s rfl
    rw [fits_append List.length_replicate.symm, fits_replicate (all_isDigit_padded width n),
      Bool.true_and]
  rw [isCanonical, Bool.and_eq_true, beq_iff_eq, text, Places.text, Places.front, places]
  constructor
  · simp only [List.length_append, List.length_cons, List.length_nil]
    omega
  · rw [show "dddd-dd-ddTdd:dd:dd.dddZ".toList = List.replicate 4 'd' ++ '-' ::
      (List.replicate 2 'd' ++ '-' :: (List.replicate 2 'd' ++ 'T' :: (List.replicate 2 'd' ++ ':' ::
        (List.replicate 2 'd' ++ ':' :: (List.replicate 2 'd' ++ '.' ::
          (List.replicate 3 'd' ++ ['Z'])))))) by decide]
    simp only [List.append_assoc, List.cons_append]
    rw [hfits hy, fits, hfits hmo, fits, hfits hd, fits, hfits hh, fits, hfits hmi, fits, hfits hs,
      fits, hfits hms]
    decide

end WrittenTime

/-! ## A formatted time -/

/-- Up to the last millisecond the year has four digits. -/
theorem year_of_day {date : Date} (hvalid : date.Valid) (hlo : 0 ≤ date.dayNumber)
    (hhi : date.dayNumber ≤ 2932896) : 1970 ≤ date.year ∧ date.year ≤ 9999 := by
  constructor
  · by_contra hn
    have hbefore : date.Before ⟨1970, 1, 1⟩ := .inl (by show date.year < 1970; omega)
    have hlt := Date.dayNumber_lt_of_before hvalid (b := ⟨1970, 1, 1⟩) (by decide) hbefore
    have hzero : Date.dayNumber ⟨1970, 1, 1⟩ = 0 := by decide
    omega
  · by_contra hn
    have hafter : Date.Before ⟨9999, 12, 31⟩ date := .inl (by show 9999 < date.year; omega)
    have hlt := Date.dayNumber_lt_of_before (a := ⟨9999, 12, 31⟩) (by decide) hvalid hafter
    have hlast : Date.dayNumber ⟨9999, 12, 31⟩ = 2932896 := by decide
    omega

/-- The date and the time of an instant up to that. -/
theorem writtenTime {ms : UInt64} (h : ms.toNat ≤ LAST_MS) :
    ∃ t : WrittenTime,
      daysToYmd ((ms.toNat / 1000 / 86400 : ℕ) : ℤ) = (t.date.year, t.date.month, t.date.day) ∧
        (t.h = ms.toNat / 1000 % 86400 / 3600 ∧ t.mi = ms.toNat / 1000 % 86400 % 3600 / 60 ∧
          t.s = ms.toNat / 1000 % 86400 % 60 ∧ t.ms = ms.toNat % 1000) ∧
        t.fields.total t.date.dayNumber = ms.toNat := by
  rw [LAST_MS] at h
  obtain ⟨date, hvalid, hday⟩ := Date.exists_dayNumber_eq ((ms.toNat / 1000 / 86400 : ℕ) : ℤ)
  have hyear := year_of_day hvalid (by omega) (by omega)
  have hymd : daysToYmd ((ms.toNat / 1000 / 86400 : ℕ) : ℤ) = (date.year, date.month, date.day) := by
    rw [← hday]
    exact hvalid.daysToYmd (by omega) (by omega)
  refine ⟨⟨date, ms.toNat / 1000 % 86400 / 3600, ms.toNat / 1000 % 86400 % 3600 / 60,
    ms.toNat / 1000 % 86400 % 60, ms.toNat % 1000, hvalid, by omega, by omega⟩, hymd,
    ⟨rfl, rfl, rfl, rfl⟩, ?_⟩
  rw [TimeFields.total, WrittenTime.fields]
  dsimp only
  rw [hday]
  omega

theorem formatIsoMs_text {ms : UInt64} (h : ms.toNat ≤ LAST_MS) :
    ∃ t : WrittenTime, (formatIsoMs ms).toList = t.text ∧
      t.fields.total t.date.dayNumber = ms.toNat := by
  obtain ⟨t, hymd, ⟨hh, hmi, hs, hms⟩, htotal⟩ := writtenTime h
  refine ⟨t, ?_, htotal⟩
  rw [formatIsoMs]
  dsimp only
  rw [hymd, ← hh, ← hmi, ← hs, ← hms, WrittenTime.text, WrittenTime.places, Places.text, Places.front]
  simp [toList_padded]

/-- The written instant is canonical, and every reader reads it; the replay whatever follows it. -/
structure InstantComesBack (ms : UInt64) : Prop where
  normal : normalizeTimestamp (formatIsoMs ms).toList = (formatIsoMs ms).toList
  iso : parseIsoMs (formatIsoMs ms).toList = .ok (some ms.toNat)
  unix : toUnixMsChecked (formatIsoMs ms).toList = .ok (some ms.toNat)
  replay : ∀ rest, parseTimestampMs ((formatIsoMs ms).toList ++ rest) = .ok (some ms.toNat)

theorem instantComesBack {ms : UInt64} (h : ms.toNat ≤ LAST_MS) : InstantComesBack ms := by
  obtain ⟨t, htext, htotal⟩ := formatIsoMs_text h
  have hinstant : t.fields.instant = .ok (some (ms.toNat : ℤ)) := by
    rw [t.small.instant, ← htotal]
    exact congrArg Except.ok t.value_fields
  constructor
  · rw [htext, normalizeTimestamp, if_pos t.isCanonical_text]
  · rw [htext, parseIsoMs, t.isoFields_text]
    exact hinstant
  · rw [htext, toUnixMsChecked, WrittenTime.text, (t.fieldsByPlace_text ['Z']).1]
    exact hinstant
  · intro rest
    have happend : t.text ++ rest = (t.places ('Z' :: rest)).text := by
      rw [WrittenTime.text, Places.text, Places.text, WrittenTime.places, WrittenTime.places,
        Places.front, Places.front]
      simp
    rw [htext, happend, parseTimestampMs, (t.fieldsByPlace_text ('Z' :: rest)).2]
    exact hinstant

/-- **Every reader, one instant.** All instants up to the year 9999 come back; a text is read as one
instant exactly if its seconds and its fraction have the usual digits. -/
theorem readers_agree (ms : UInt64) (s : List Char) :
    (ms.toNat ≤ LAST_MS → InstantComesBack ms) ∧ (OneInstant s ↔ UsualDigits s) :=
  ⟨instantComesBack, oneInstant_iff s⟩

theorem readers_agree_2025 : InstantComesBack 1735689600000 :=
  (readers_agree 1735689600000 []).1 (by decide)

/-- Half a second for the one, none for the others; a second of three digits; and hours that no 64
bits hold. -/
theorem half_second :
    ¬OneInstant "2026-01-01T00:00:00.5".toList ∧ ¬OneInstant "2026-01-01T00:00:005".toList ∧
      ¬OneInstant "2026-01-01T9223372036854775807:00:00".toList := by
  have hread : ∀ {s : List Char} {x y : ℤ}, parseIsoMs s = .ok (some x) →
      toUnixMsChecked s = .ok (some y) → x ≠ y → ¬OneInstant s := by
    rintro s x y hx hy hne ⟨a, b, c, ha, hb, -, hab, -, -⟩
    cases hx.symm.trans ha
    cases hy.symm.trans hb
    exact hne (hab x rfl y rfl)
  have hfault : ∀ {s : List Char} {e : Fault}, parseIsoMs s = .error e → ¬OneInstant s := by
    rintro s e he ⟨a, b, c, ha, -⟩
    cases he.symm.trans ha
  exact ⟨hread (x := 1767225600500) (y := 1767225600000) (by decide +kernel) (by decide +kernel)
      (by decide),
    hread (x := 1767225605000) (y := 1767225600000) (by decide +kernel) (by decide +kernel)
      (by decide),
    hfault (e := .overflow) (by decide +kernel)⟩

end Canboat
