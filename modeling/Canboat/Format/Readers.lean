import Canboat.Format.Instant

/-!
# Three readers of timestamps

A captured time is read for the host's log by its places in the bytes, for the replay of a log by
the same places with unsigned numbers, and for the interval display by splitting the text.
-/

namespace Canboat

open Checked

/-! ## Arithmetic of 64 bits -/

def InI64 (n : ℤ) : Prop := -9223372036854775808 ≤ n ∧ n ≤ 9223372036854775807

def i64 (n : ℤ) : Except Fault ℤ := checkedInt (-9223372036854775808) 9223372036854775807 n

/-- `days_since_epoch`, with its arithmetic checked. -/
def daysChecked (y m d : ℤ) : Except Fault (Option ℤ) :=
  if ¬(1 ≤ m ∧ m ≤ 12) ∨ ¬(1 ≤ d ∧ d ≤ 31) then .ok none
  else do
    let y ← (if m ≤ 2 then i64 (y - 1) else .ok y)
    let low ← (if 0 ≤ y then .ok y else i64 (y - 399))
    let era := low.tdiv 400
    let eraYears ← i64 (era * 400)
    let yoe ← i64 (y - eraYears)
    let mp ← (if m > 2 then i64 (m - 3) else i64 (m + 9))
    let months ← i64 (153 * mp)
    let months ← i64 (months + 2)
    let doy ← i64 (months.tdiv 5 + d)
    let doy ← i64 (doy - 1)
    let doe ← i64 (yoe * 365)
    let doe ← i64 (doe + yoe.tdiv 4)
    let doe ← i64 (doe - yoe.tdiv 100)
    let doe ← i64 (doe + doy)
    let days ← i64 (era * 146097)
    let days ← i64 (days + doe)
    let days ← i64 (days - 719468)
    .ok (some days)

/-- What a reader takes out of a text. -/
structure TimeFields where
  y : ℤ
  mo : ℤ
  d : ℤ
  h : ℤ
  mi : ℤ
  s : ℤ
  ms : ℤ
deriving DecidableEq, Repr

namespace TimeFields

/-- The milliseconds, from the day on. -/
def total (f : TimeFields) (days : ℤ) : ℤ :=
  (days * 86400 + f.h * 3600 + f.mi * 60 + f.s) * 1000 + f.ms

def totalChecked (f : TimeFields) (days : ℤ) : Except Fault ℤ := do
  let daySeconds ← i64 (days * 86400)
  let hours ← i64 (f.h * 3600)
  let secs ← i64 (daySeconds + hours)
  let minutes ← i64 (f.mi * 60)
  let secs ← i64 (secs + minutes)
  let secs ← i64 (secs + f.s)
  let ms ← i64 (secs * 1000)
  i64 (ms + f.ms)

def instant (f : TimeFields) : Except Fault (Option ℤ) := do
  match ← daysChecked f.y f.mo f.d with
  | none => .ok none
  | some days => do
      let ms ← f.totalChecked days
      .ok (some ms)

end TimeFields

/-! ## By places -/

/-- `parse::<u32>`, as an integer. -/
def parseU32Int (s : List Char) : Option ℤ :=
  (parseUnsigned 4294967295 s).map fun n : ℕ => (n : ℤ)

/-- The unsigned number that is written in the bytes between two positions. -/
def unsignedBetween (b : List UInt8) (i j : ℕ) : Option ℤ :=
  (fromUtf8 ((b.take j).drop i)).bind parseU32Int

/-- The fields by their places, the ones behind the year as they are read in `part`. -/
def fieldsByPlace (part : List UInt8 → ℕ → ℕ → Option ℤ) (ts : List Char) : Option TimeFields :=
  let b := utf8Bytes ts
  if b.length < 19 then none
  else do
    let y ← numberBetween b 0 4
    let mo ← part b 5 7
    let d ← part b 8 10
    let h ← part b 11 13
    let mi ← part b 14 16
    let s ← part b 17 19
    if b[4]? ≠ some 0x2d ∨ b[7]? ≠ some 0x2d ∨
        ¬(b[10]? = some 0x54 ∨ b[10]? = some 0x2d ∨ b[10]? = some 0x20) ∨
        b[13]? ≠ some 0x3a ∨ b[16]? ≠ some 0x3a then none
    else some { y, mo, d, h, mi, s, ms := fractionRead b }

def instantOf (fields : Option TimeFields) : Except Fault (Option ℤ) :=
  match fields with
  | none => .ok none
  | some f => f.instant

/-- `to_unix_ms`, with its arithmetic checked. -/
def toUnixMsChecked (ts : List Char) : Except Fault (Option ℤ) :=
  instantOf (fieldsByPlace numberBetween ts)

/-- Of a line of the replay. -/
def parseTimestampMs (line : List Char) : Except Fault (Option ℤ) :=
  instantOf (fieldsByPlace unsignedBetween line)

/-! ## By splitting -/

/-- Around the third dash. -/
def splitThirdDash (s : List Char) : Option (List Char × List Char) := do
  let (a, s) ← splitOnce '-' s
  let (b, s) ← splitOnce '-' s
  let (c, s) ← splitOnce '-' s
  some (a ++ '-' :: (b ++ '-' :: c), s)

/-- The parts around two separators; more separators are none. -/
def threeParts (sep : Char) (s : List Char) : Option (List Char × List Char × List Char) := do
  let (a, s) ← splitOnce sep s
  let (b, c) ← splitOnce sep s
  if sep ∈ c then none else some (a, b, c)

/-- Digits from the weight of the first one down. -/
def weighed : ℕ → List Char → Option ℕ
  | _, [] => some 0
  | weight, c :: frac =>
      if c.isDigit then (weighed (weight / 10) frac).map (weight * (c.toNat - 48) + ·) else none

/-- The three digits behind the point, where there are so many. -/
def fractionMillis (frac : List Char) : Option ℕ := weighed 100 (frac.take 3)

/-- The text without its last `Z`s. -/
def trimZulu (s : List Char) : List Char := trimEnd (· == 'Z') s

def isoFields (s : List Char) : Option TimeFields := do
  let s := trimZulu s
  let (date, time) ← (splitOnce 'T' s).or ((splitOnce ' ' s).or (splitThirdDash s))
  let (y, mo, d) ← threeParts '-' date
  let y ← parseSigned (-2147483648) 2147483647 y
  let mo ← parseU32Int mo
  let d ← parseU32Int d
  let (hms, millis) ← (match splitOnce '.' time with
    | some (hms, frac) => (fractionMillis frac).map fun ms => (hms, ms)
    | none => some (time, 0))
  let (h, mi, s) ← threeParts ':' hms
  let h ← parseI64Int h
  let mi ← parseI64Int mi
  let s ← parseI64Int s
  some { y, mo, d, h, mi, s, ms := millis }

def parseIsoMs (s : List Char) : Except Fault (Option ℤ) := instantOf (isoFields s)

/-! ## When the arithmetic is exact -/

theorem i64_ok_iff {n m : ℤ} : i64 n = .ok m ↔ InI64 n ∧ m = n := by
  rw [i64, checkedInt, InI64]
  split_ifs with h
  · rw [Except.ok.injEq, eq_comm, and_iff_right h]
  · exact iff_of_false nofun fun hn => h hn.1

theorem i64_ok {n : ℤ} (hlo : -9223372036854775808 ≤ n) (hhi : n ≤ 9223372036854775807) :
    i64 n = .ok n :=
  i64_ok_iff.mpr ⟨⟨hlo, hhi⟩, rfl⟩

theorem tdiv_bounds (n k : ℤ) : -(n.natAbs : ℤ) ≤ n.tdiv k ∧ n.tdiv k ≤ n.natAbs := by
  have hle := Int.natAbs_tdiv_le_natAbs n k
  omega

/-- The days of a year of 32 bits. -/
theorem daysChecked_eq {y : ℤ} (hlo : -2147483648 ≤ y) (hhi : y ≤ 2147483647) (m d : ℤ) :
    daysChecked y m d = .ok (daysSinceEpoch y m d) := by
  rw [daysChecked, daysSinceEpoch]
  by_cases hout : ¬(1 ≤ m ∧ m ≤ 12) ∨ ¬(1 ≤ d ∧ d ≤ 31)
  · rw [if_pos hout, if_pos hout]
  rw [if_neg hout, if_neg hout]
  have hyear : (if m ≤ 2 then i64 (y - 1) else .ok y) = .ok (if m ≤ 2 then y - 1 else y) := by
    split_ifs
    · exact i64_ok (by omega) (by omega)
    · rfl
  have hy : -2147483649 ≤ (if m ≤ 2 then y - 1 else y) ∧
      (if m ≤ 2 then y - 1 else y) ≤ 2147483647 := by
    split_ifs <;> omega
  rw [hyear]
  generalize (if m ≤ 2 then y - 1 else y) = y' at hy
  have hlow : (if 0 ≤ y' then .ok y' else i64 (y' - 399)) =
      .ok (if 0 ≤ y' then y' else y' - 399) := by
    split_ifs
    · rfl
    · exact i64_ok (by omega) (by omega)
  have hl : -2147484048 ≤ (if 0 ≤ y' then y' else y' - 399) ∧
      (if 0 ≤ y' then y' else y' - 399) ≤ 2147483647 := by
    split_ifs <;> omega
  have hmonth : (if m > 2 then i64 (m - 3) else i64 (m + 9)) =
      .ok (if m > 2 then m - 3 else m + 9) := by
    split_ifs
    · exact i64_ok (by omega) (by omega)
    · exact i64_ok (by omega) (by omega)
  have hmp : 0 ≤ (if m > 2 then m - 3 else m + 9) ∧ (if m > 2 then m - 3 else m + 9) ≤ 11 := by
    split_ifs <;> omega
  dsimp only [bind, Except.bind]
  rw [hlow]
  generalize (if 0 ≤ y' then y' else y' - 399) = low at hl
  have hera := tdiv_bounds low 400
  dsimp only
  generalize low.tdiv 400 = era at hera
  rw [i64_ok (by omega) (by omega)]
  dsimp only
  rw [i64_ok (by omega) (by omega)]
  dsimp only
  obtain ⟨yoe, hyoe⟩ : ∃ yoe, yoe = y' - era * 400 := ⟨_, rfl⟩
  rw [← hyoe, hmonth]
  generalize (if m > 2 then m - 3 else m + 9) = mp at hmp
  dsimp only
  rw [i64_ok (by omega) (by omega)]
  dsimp only
  rw [i64_ok (by omega) (by omega)]
  dsimp only
  have hmonths := tdiv_bounds (153 * mp + 2) 5
  generalize (153 * mp + 2).tdiv 5 = months at hmonths
  have hfour := tdiv_bounds yoe 4
  generalize yoe.tdiv 4 = four at hfour
  have hhundred := tdiv_bounds yoe 100
  generalize yoe.tdiv 100 = hundred at hhundred
  iterate 8
    rw [i64_ok (by omega) (by omega)]
    dsimp only
  rw [i64_ok (by omega) (by omega)]

namespace TimeFields

/-- Every partial sum is a number of 64 bits. -/
structure Fits (f : TimeFields) (days : ℤ) : Prop where
  daySeconds : InI64 (days * 86400)
  hours : InI64 (f.h * 3600)
  withHours : InI64 (days * 86400 + f.h * 3600)
  minutes : InI64 (f.mi * 60)
  withMinutes : InI64 (days * 86400 + f.h * 3600 + f.mi * 60)
  withSeconds : InI64 (days * 86400 + f.h * 3600 + f.mi * 60 + f.s)
  millis : InI64 ((days * 86400 + f.h * 3600 + f.mi * 60 + f.s) * 1000)
  total : InI64 (f.total days)

theorem totalChecked_ok_iff {f : TimeFields} {days t : ℤ} :
    f.totalChecked days = .ok t ↔ f.Fits days ∧ t = f.total days := by
  simp only [totalChecked, Fault.bind_ok_iff, i64_ok_iff, and_assoc, exists_and_left,
    exists_eq_left]
  constructor
  · rintro ⟨h₁, h₂, h₃, h₄, h₅, h₆, h₇, h₈, rfl⟩
    exact ⟨⟨h₁, h₂, h₃, h₄, h₅, h₆, h₇, h₈⟩, rfl⟩
  · rintro ⟨⟨h₁, h₂, h₃, h₄, h₅, h₆, h₇, h₈⟩, rfl⟩
    exact ⟨h₁, h₂, h₃, h₄, h₅, h₆, h₇, h₈, rfl⟩

/-- A year of 32 bits has an instant, or none for want of a day, unless a partial sum is too large. -/
theorem instant_ok_iff {f : TimeFields} (hlo : -2147483648 ≤ f.y) (hhi : f.y ≤ 2147483647)
    {r : Option ℤ} :
    f.instant = .ok r ↔ (∀ days ∈ daysSinceEpoch f.y f.mo f.d, f.Fits days) ∧
      r = (daysSinceEpoch f.y f.mo f.d).map f.total := by
  rw [instant, daysChecked_eq hlo hhi]
  cases daysSinceEpoch f.y f.mo f.d with
  | none =>
      constructor
      · rintro ⟨⟩
        exact ⟨nofun, rfl⟩
      · rintro ⟨-, rfl⟩
        rfl
  | some days =>
      change (f.totalChecked days >>= fun ms => .ok (some ms)) = .ok r ↔ _
      rw [Fault.bind_ok_iff]
      simp only [totalChecked_ok_iff]
      constructor
      · rintro ⟨t, ⟨hfits, rfl⟩, ⟨⟩⟩
        refine ⟨?_, rfl⟩
        rintro _ ⟨⟩
        exact hfits
      · rintro ⟨hfits, rfl⟩
        exact ⟨_, ⟨hfits days rfl, rfl⟩, rfl⟩

/-- The numbers have few digits. -/
structure Small (f : TimeFields) : Prop where
  y : -9999 ≤ f.y ∧ f.y ≤ 9999
  h : -99 ≤ f.h ∧ f.h ≤ 99
  mi : -99 ≤ f.mi ∧ f.mi ≤ 99
  s : -99 ≤ f.s ∧ f.s ≤ 99
  ms : -999 ≤ f.ms ∧ f.ms ≤ 999

theorem daysSinceEpoch_small {y m d days : ℤ} (hlo : -9999 ≤ y) (hhi : y ≤ 9999)
    (h : daysSinceEpoch y m d = some days) : -3000000000 ≤ days ∧ days ≤ 3000000000 := by
  rw [daysSinceEpoch] at h
  by_cases hout : ¬(1 ≤ m ∧ m ≤ 12) ∨ ¬(1 ≤ d ∧ d ≤ 31)
  · rw [if_pos hout] at h
    cases h
  rw [if_neg hout, Option.some.injEq] at h
  have hy : -10000 ≤ (if m ≤ 2 then y - 1 else y) ∧ (if m ≤ 2 then y - 1 else y) ≤ 9999 := by
    split_ifs <;> omega
  generalize (if m ≤ 2 then y - 1 else y) = y' at h hy
  have hl : -10399 ≤ (if 0 ≤ y' then y' else y' - 399) ∧
      (if 0 ≤ y' then y' else y' - 399) ≤ 9999 := by
    split_ifs <;> omega
  generalize (if 0 ≤ y' then y' else y' - 399) = low at h hl
  have hera := tdiv_bounds low 400
  generalize low.tdiv 400 = era at h hera
  have hmp : 0 ≤ (if m > 2 then m - 3 else m + 9) ∧ (if m > 2 then m - 3 else m + 9) ≤ 11 := by
    split_ifs <;> omega
  generalize (if m > 2 then m - 3 else m + 9) = mp at h hmp
  have hmonths := tdiv_bounds (153 * mp + 2) 5
  have hfour := tdiv_bounds (y' - era * 400) 4
  have hhundred := tdiv_bounds (y' - era * 400) 100
  omega

theorem Small.fits {f : TimeFields} (h : f.Small) {days : ℤ}
    (hdays : daysSinceEpoch f.y f.mo f.d = some days) : f.Fits days := by
  have hd := daysSinceEpoch_small h.y.1 h.y.2 hdays
  have hh := h.h
  have hmi := h.mi
  have hs := h.s
  have hms := h.ms
  constructor <;> rw [InI64] <;> first | omega | (rw [TimeFields.total]; omega)

/-- Few digits have an instant wherever there is a day. -/
theorem Small.instant {f : TimeFields} (h : f.Small) :
    f.instant = .ok ((daysSinceEpoch f.y f.mo f.d).map f.total) := by
  have hy := h.y
  exact (instant_ok_iff (by omega) (by omega)).mpr ⟨fun days hdays => h.fits hdays, rfl⟩

end TimeFields

end Canboat
