import Canboat.Format.Timestamp
import Canboat.Lib.Calendar

/-!
# Days of the epoch

The day number of a date and the date of a day number, as the timestamps use them.
-/

namespace Canboat

open Date

/-- Day number of a civil date; none outside of the months and of 31 days. -/
def daysSinceEpoch (y m d : ℤ) : Option ℤ :=
  if ¬(1 ≤ m ∧ m ≤ 12) ∨ ¬(1 ≤ d ∧ d ≤ 31) then none
  else
    let y := if m ≤ 2 then y - 1 else y
    -- `/` of `i64`, towards zero
    let era := (if 0 ≤ y then y else y - 399).tdiv 400
    let yoe := y - era * 400
    let mp := if m > 2 then m - 3 else m + 9
    let doy := (153 * mp + 2).tdiv 5 + d - 1
    let doe := yoe * 365 + yoe.tdiv 4 - yoe.tdiv 100 + doy
    some (era * 146097 + doe - 719468)

example : daysSinceEpoch 1970 1 1 = some 0 ∧ daysSinceEpoch (-1) 2 29 = some (-719834) ∧
    daysSinceEpoch 2000 13 1 = none := by decide

/-! ## Both are one calendar -/

section

variable {date : Date}

/-- The year that the date is counted in, from March on. -/
def Date.marchYear (date : Date) : ℤ := if date.month ≤ 2 then date.year - 1 else date.year

/-- The months since March. -/
def Date.marchMonth (date : Date) : ℤ :=
  if date.month ≤ 2 then date.month + 9 else date.month - 3

/-- The days since the first of March. -/
def Date.dayOfYear (date : Date) : ℤ := (153 * date.marchMonth + 2) / 5 + date.day - 1

/-- Counted from March on, the leap day is the last of the year. -/
theorem Date.Valid.dayNumber_march (h : date.Valid) :
    date.dayNumber = 365 * date.marchYear + date.marchYear / 4 - date.marchYear / 100 +
      date.marchYear / 400 + date.dayOfYear - 719468 := by
  obtain ⟨y, m, d⟩ := date
  obtain ⟨h₁, h₂, -, -⟩ := h
  dsimp only at h₁ h₂
  have hmonths := daysBeforeMonth_eq y h₁ h₂
  have hepoch : daysBeforeYear 1970 = 719162 := by decide
  rw [dayNumber, hepoch, daysBeforeYear, dayOfYear, marchYear, marchMonth]
  dsimp only
  by_cases hm : m ≤ 2
  · rw [if_pos hm, if_neg fun h => absurd h.2 (Nat.not_lt.mpr hm)] at hmonths
    rw [if_pos hm, if_pos hm]
    interval_cases m <;> omega
  · rw [if_neg hm] at hmonths
    rw [if_neg hm, if_neg hm]
    -- the leap day of the year has passed
    have hleap : (if Leap y ∧ 2 < m then 1 else 0 : ℕ) = y / 4 - (y - 1) / 4 -
        (y / 100 - (y - 1) / 100) + (y / 400 - (y - 1) / 400) := by
      split_ifs with hleap
      · obtain ⟨⟨hfour, hcentury⟩, -⟩ := hleap
        by_cases h : y % 100 = 0
        · have := hcentury h
          omega
        · omega
      · have hcommon : ¬(y % 4 = 0 ∧ (y % 100 = 0 → y % 400 = 0)) := fun h =>
          hleap ⟨h, Nat.not_le.mp hm⟩
        omega
    omega

/-- The era and the year of it, taken together again. -/
theorem eraYears (y : ℤ) :
    (if 0 ≤ y then y else y - 399).tdiv 400 = y / 400 ∧ 0 ≤ y - y / 400 * 400 ∧
      y - y / 400 * 400 < 400 := by
  refine ⟨?_, by omega, by omega⟩
  split_ifs with hy
  · rw [Int.tdiv_eq_ediv_of_nonneg hy]
  · obtain ⟨n, hn⟩ := Int.exists_eq_neg_ofNat (show y - 399 ≤ 0 by omega)
    rw [hn, Int.neg_tdiv, Int.tdiv_eq_ediv_of_nonneg (Int.natCast_nonneg n)]
    omega

/-- A date of the calendar has its day number. -/
theorem Date.Valid.daysSinceEpoch (h : date.Valid) :
    daysSinceEpoch date.year date.month date.day = some date.dayNumber := by
  have hmarch := h.dayNumber_march
  obtain ⟨hmonth, hle, hday, hlength⟩ := h
  have hlast := Nat.le_trans hlength (monthLength_le _ _)
  have hin : ¬(¬(1 ≤ (date.month : ℤ) ∧ (date.month : ℤ) ≤ 12) ∨
      ¬(1 ≤ (date.day : ℤ) ∧ (date.day : ℤ) ≤ 31)) := by omega
  have hyear : (if (date.month : ℤ) ≤ 2 then date.year - 1 else date.year) = date.marchYear := by
    rw [marchYear]
    split_ifs <;> first | rfl | omega
  have hmonths : (if (date.month : ℤ) > 2 then (date.month : ℤ) - 3 else date.month + 9) =
      date.marchMonth := by
    rw [marchMonth]
    split_ifs <;> first | rfl | omega
  have hpos : 0 ≤ date.marchMonth := by
    rw [marchMonth]
    split_ifs <;> omega
  rw [Canboat.daysSinceEpoch, if_neg hin]
  dsimp only
  rw [hyear, hmonths, hmarch, dayOfYear]
  obtain ⟨hera, hyoe, -⟩ := eraYears date.marchYear
  rw [hera, Int.tdiv_eq_ediv_of_nonneg (show 0 ≤ 153 * date.marchMonth + 2 by omega),
    Int.tdiv_eq_ediv_of_nonneg hyoe, Int.tdiv_eq_ediv_of_nonneg hyoe]
  congr 1
  omega

/-- The year of the era, from the days since its start. -/
theorem yearOfEra_eq {yoe doy doe : ℤ} (hyoe : 0 ≤ yoe) (hlt : yoe < 400) (hdoy : 0 ≤ doy)
    (hlast : doy < 365 ∨ doy = 365 ∧ yoe % 4 = 3 ∧ (yoe % 100 = 99 → yoe = 399))
    (hdoe : doe = 365 * yoe + yoe / 4 - yoe / 100 + doy) :
    (doe - doe / 1460 + doe / 36524 - doe / 146096) / 365 = yoe := by
  obtain ⟨q, s, hs₀, hs, rfl⟩ : ∃ q s : ℤ, 0 ≤ s ∧ s ≤ 3 ∧ yoe = 4 * q + s :=
    ⟨yoe / 4, yoe % 4, by omega, by omega, by omega⟩
  obtain ⟨c, hc⟩ : ∃ c : ℤ, c = (4 * q + s) / 100 := ⟨_, rfl⟩
  have hfour : (4 * q + s) / 4 = q := by omega
  rw [hfour, ← hc] at hdoe
  have hcentury : 36524 * c ≤ doe ∧ (doe < 36524 * (c + 1) ∨ doe = 146096 ∧ c = 3) := by omega
  have hcenturies : doe / 36524 - doe / 146096 = c := by
    obtain ⟨hge, hbefore | ⟨rfl, rfl⟩⟩ := hcentury
    · have h₁ : doe / 36524 = c := by omega
      have h₂ : doe / 146096 = 0 := by omega
      omega
    · rfl
  -- four years are a day longer than 1460 days
  have hfours : doe / 1460 = q + (365 * s + q - c + doy) / 1460 := by omega
  omega

/-- The month and the day of it, from the days since March. -/
theorem Date.Valid.marchMonth_eq (h : date.Valid) :
    0 ≤ date.marchMonth ∧ date.marchMonth ≤ 11 ∧ 0 ≤ date.dayOfYear ∧
      (5 * date.dayOfYear + 2) / 153 = date.marchMonth ∧
      (date.dayOfYear < 365 ∨ date.dayOfYear = 365 ∧ Leap (date.marchYear + 1)) := by
  obtain ⟨y, m, d⟩ := date
  obtain ⟨h₁, h₂, h₃, h₄⟩ := h
  dsimp only at h₁ h₂ h₃ h₄
  rw [dayOfYear, marchMonth, marchYear]
  dsimp only
  rw [monthLength] at h₄
  by_cases hfeb : m = 2
  · subst hfeb
    rw [if_pos rfl] at h₄
    rw [if_pos (Nat.le_refl 2), if_pos (Nat.le_refl 2), Int.sub_add_cancel]
    by_cases hleap : Leap y
    · rw [if_pos hleap] at h₄
      rw [and_iff_left hleap]
      omega
    · rw [if_neg hleap] at h₄
      omega
  · rw [if_neg hfeb] at h₄
    refine ⟨by split_ifs <;> omega, by split_ifs <;> omega, ?_⟩
    interval_cases m <;> simp at h₄ ⊢ <;> omega

/-- The day number gives the date back, where the year has 32 bits. -/
theorem Date.Valid.daysToYmd (h : date.Valid) (hlo : -2147483647 ≤ date.year)
    (hhi : date.year ≤ 2147483647) :
    daysToYmd date.dayNumber = (date.year, date.month, date.day) := by
  obtain ⟨hpos, hle, hdoy, hmonth, hlast⟩ := h.marchMonth_eq
  have hmarch := h.dayNumber_march
  obtain ⟨-, hyoe, hlt⟩ := eraYears date.marchYear
  have hyear : date.marchYear = if date.month ≤ 2 then date.year - 1 else date.year := rfl
  generalize hY : date.marchYear = y at *
  obtain ⟨doe, hdoe⟩ : ∃ doe, doe = 365 * (y - y / 400 * 400) + (y - y / 400 * 400) / 4 -
      (y - y / 400 * 400) / 100 + date.dayOfYear := ⟨_, rfl⟩
  have hfour : y / 4 = y / 400 * 100 + (y - y / 400 * 400) / 4 := by omega
  have hhundred : y / 100 = y / 400 * 4 + (y - y / 400 * 400) / 100 := by omega
  have hdays : date.dayNumber + 719468 = y / 400 * 146097 + doe := by
    rw [hmarch, hdoe, hfour, hhundred]
    omega
  have hlastDay : date.dayOfYear < 365 ∨ date.dayOfYear = 365 ∧
      (y - y / 400 * 400) % 4 = 3 ∧ ((y - y / 400 * 400) % 100 = 99 →
        y - y / 400 * 400 = 399) := by
    refine hlast.imp_right ?_
    rintro ⟨hday, hfour, hcentury⟩
    exact ⟨hday, by omega, fun h => by omega⟩
  have hyears := yearOfEra_eq hyoe hlt hdoy hlastDay hdoe
  have hin : 0 ≤ doe ∧ doe < 146097 := by omega
  have hera : (y / 400 * 146097 + doe) / 146097 = y / 400 := by omega
  have hbmod : (y - y / 400 * 400 + y / 400 * 400).bmod 4294967296 = y := by
    rw [Int.sub_add_cancel, Int.bmod_eq_of_le (by split_ifs at hyear <;> omega)
      (by split_ifs at hyear <;> omega)]
  have hrest : doe - (365 * (y - y / 400 * 400) + (y - y / 400 * 400) / 4 -
      (y - y / 400 * 400) / 100) = date.dayOfYear := by omega
  rw [Canboat.daysToYmd, hdays, hera, add_sub_cancel_left, hyears, hbmod, hrest, hmonth]
  have hmonths : (if date.marchMonth < 10 then date.marchMonth + 3 else date.marchMonth - 9) =
      date.month := by
    have h₁ := h.month_pos
    have h₂ := h.month_le
    simp only [marchMonth] at hpos hle ⊢
    split_ifs at hpos hle ⊢ <;> omega
  have hday : date.dayOfYear - (153 * date.marchMonth + 2) / 5 + 1 = date.day := by
    rw [dayOfYear]
    omega
  rw [hmonths, hday, Int.toNat_natCast, Int.toNat_natCast]
  have hyearBack : (if (date.month : ℤ) ≤ 2 then y + 1 else y) = date.year := by
    split_ifs at hyear ⊢ <;> omega
  rw [hyearBack]

end

/-- A year of 32 bits, and the year before it too. -/
def SmallYear (y : ℤ) : Prop := -2147483647 ≤ y ∧ y ≤ 2147483647

/-- The calendar functions undo each other, and count the days one by one. -/
theorem calendar_exact :
    (∀ date : Date, date.Valid → SmallYear date.year →
      ∃ n, daysSinceEpoch date.year date.month date.day = some n ∧
        daysToYmd n = (date.year, date.month, date.day)) ∧
    (∀ n, ∃ date : Date, date.Valid ∧ date.dayNumber = n ∧ (SmallYear date.year →
      daysSinceEpoch (daysToYmd n).1 (daysToYmd n).2.1 (daysToYmd n).2.2 = some n)) ∧
    (∀ a b : Date, a.Valid → b.Valid → ∃ m n, daysSinceEpoch a.year a.month a.day = some m ∧
      daysSinceEpoch b.year b.month b.day = some n ∧ (m < n ↔ a.Before b)) ∧
    ∀ date : Date, date.Valid → ∃ n, daysSinceEpoch date.year date.month date.day = some n ∧
      daysSinceEpoch date.next.year date.next.month date.next.day = some (n + 1) := by
  refine ⟨?_, ?_, ?_, ?_⟩
  · intro date hvalid hyear
    exact ⟨_, hvalid.daysSinceEpoch, hvalid.daysToYmd hyear.1 hyear.2⟩
  · intro n
    obtain ⟨date, hvalid, rfl⟩ := exists_dayNumber_eq n
    refine ⟨date, hvalid, rfl, fun hyear => ?_⟩
    rw [hvalid.daysToYmd hyear.1 hyear.2]
    exact hvalid.daysSinceEpoch
  · intro a b ha hb
    exact ⟨_, _, ha.daysSinceEpoch, hb.daysSinceEpoch, dayNumber_lt_iff ha hb⟩
  · intro date hvalid
    refine ⟨_, hvalid.daysSinceEpoch, ?_⟩
    rw [hvalid.next.daysSinceEpoch, hvalid.dayNumber_next]

theorem calendar_exact_leap_day :
    ∃ n, daysSinceEpoch 2024 2 29 = some n ∧ daysToYmd n = (2024, 2, 29) :=
  calendar_exact.1 ⟨2024, 2, 29⟩ (by decide) ⟨by decide, by decide⟩

end Canboat
