import Mathlib.Order.Monotone.Basic
import Mathlib.Tactic.IntervalCases
import Mathlib.Tactic.Push
import Mathlib.Tactic.SplitIfs

/-!
# The proleptic Gregorian calendar

Dates of any year, their order, the day after a date, and the number of days between a date and
1970-01-01, counted by years, months and days.
-/

namespace Canboat

/-- A year, a month of it and a day of that. -/
@[ext] structure Date where
  year : ℤ
  month : ℕ
  day : ℕ
deriving DecidableEq

namespace Date

/-- Every fourth year, but of the centuries only every fourth. -/
def Leap (y : ℤ) : Prop := y % 4 = 0 ∧ (y % 100 = 0 → y % 400 = 0)

instance (y : ℤ) : Decidable (Leap y) := inferInstanceAs (Decidable (_ ∧ _))

def monthLength (y : ℤ) (m : ℕ) : ℕ :=
  if m = 2 then if Leap y then 29 else 28
  else if m = 4 ∨ m = 6 ∨ m = 9 ∨ m = 11 then 30
  else 31

/-- The date is in the calendar. -/
structure Valid (date : Date) : Prop where
  month_pos : 1 ≤ date.month
  month_le : date.month ≤ 12
  day_pos : 1 ≤ date.day
  day_le : date.day ≤ monthLength date.year date.month

instance (date : Date) : Decidable date.Valid :=
  decidable_of_iff
    (1 ≤ date.month ∧ date.month ≤ 12 ∧ 1 ≤ date.day ∧ date.day ≤ monthLength date.year date.month)
    ⟨fun h => ⟨h.1, h.2.1, h.2.2.1, h.2.2.2⟩, fun h => ⟨h.1, h.2, h.3, h.4⟩⟩

/-- By year, then by month, then by day. -/
def Before (a b : Date) : Prop :=
  a.year < b.year ∨ a.year = b.year ∧ (a.month < b.month ∨ a.month = b.month ∧ a.day < b.day)

/-- The day after. -/
def next (date : Date) : Date :=
  if date.day < monthLength date.year date.month then { date with day := date.day + 1 }
  else if date.month < 12 then { date with month := date.month + 1, day := 1 }
  else { year := date.year + 1, month := 1, day := 1 }

/-- The years before, with a day more for each leap year, from the year 1 on. -/
def daysBeforeYear (y : ℤ) : ℤ := 365 * (y - 1) + (y - 1) / 4 - (y - 1) / 100 + (y - 1) / 400

def daysBeforeMonth (y : ℤ) : ℕ → ℕ
  | 0 => 0
  | 1 => 0
  | m + 2 => daysBeforeMonth y (m + 1) + monthLength y (m + 1)

/-- Days from 1970-01-01 on; negative before. -/
def dayNumber (date : Date) : ℤ :=
  daysBeforeYear date.year + daysBeforeMonth date.year date.month + (date.day - 1) -
    daysBeforeYear 1970

example : dayNumber ⟨1970, 1, 1⟩ = 0 ∧ dayNumber ⟨2000, 3, 1⟩ = 11017 := by decide

/-! ## One day after the other -/

theorem monthLength_le (y : ℤ) (m : ℕ) : monthLength y m ≤ 31 := by
  rw [monthLength]
  split_ifs <;> decide

theorem one_le_monthLength (y : ℤ) (m : ℕ) : 1 ≤ monthLength y m := by
  rw [monthLength]
  split_ifs <;> decide

/-- All the months of a year. -/
def yearLength (y : ℤ) : ℕ := if Leap y then 366 else 365

theorem daysBeforeYear_succ (y : ℤ) : daysBeforeYear (y + 1) = daysBeforeYear y + yearLength y := by
  rw [daysBeforeYear, daysBeforeYear, yearLength]
  split_ifs with hleap
  · obtain ⟨hfour, hcentury⟩ := hleap
    by_cases h : y % 100 = 0
    · have := hcentury h
      omega
    · omega
  · by_cases hfour : y % 4 = 0
    · have hcentury : y % 100 = 0 ∧ ¬y % 400 = 0 := by
        by_contra h
        exact hleap ⟨hfour, fun hhundred => by_contra fun hn => h ⟨hhundred, hn⟩⟩
      omega
    · omega

theorem daysBeforeMonth_succ (y : ℤ) {m : ℕ} (hm : 1 ≤ m) :
    daysBeforeMonth y (m + 1) = daysBeforeMonth y m + monthLength y m := by
  obtain ⟨m, rfl⟩ := Nat.exists_eq_add_of_le' hm
  rfl

/-- The months before, the second of them a day longer in a leap year. -/
theorem daysBeforeMonth_eq (y : ℤ) {m : ℕ} (h₁ : 1 ≤ m) (h₂ : m ≤ 12) :
    daysBeforeMonth y m + (if m ≤ 2 then 0 else 2) =
      (367 * m - 362) / 12 + if Leap y ∧ 2 < m then 1 else 0 := by
  by_cases hleap : Leap y
  · interval_cases m <;> simp [daysBeforeMonth, monthLength, hleap]
  · interval_cases m <;> simp [daysBeforeMonth, monthLength, hleap]

/-- December ends the year. -/
theorem daysBeforeMonth_december (y : ℤ) :
    daysBeforeMonth y 12 + monthLength y 12 = yearLength y := by
  have hmonths := daysBeforeMonth_eq y (show 1 ≤ 12 by decide) (Nat.le_refl 12)
  have hdecember : monthLength y 12 = 31 := rfl
  rw [if_neg (by decide)] at hmonths
  rw [hdecember, yearLength]
  by_cases hleap : Leap y
  · rw [if_pos ⟨hleap, by decide⟩] at hmonths
    rw [if_pos hleap]
    omega
  · rw [if_neg fun h => hleap h.1] at hmonths
    rw [if_neg hleap]
    omega

theorem Valid.next {date : Date} (h : date.Valid) : date.next.Valid := by
  rw [Date.next]
  split_ifs with hday hmonth
  · exact ⟨h.month_pos, h.month_le, Nat.le_add_left _ _, hday⟩
  · exact ⟨Nat.le_add_left _ _, hmonth, Nat.le_refl _, one_le_monthLength _ _⟩
  · exact ⟨Nat.le_refl 1, show 1 ≤ 12 by decide, Nat.le_refl 1, one_le_monthLength _ _⟩

/-- The next date is a day later. -/
theorem Valid.dayNumber_next {date : Date} (h : date.Valid) :
    date.next.dayNumber = date.dayNumber + 1 := by
  have hlast : ¬date.day < monthLength date.year date.month →
      date.day = monthLength date.year date.month := fun hday =>
    Nat.le_antisymm h.day_le (Nat.not_lt.mp hday)
  rw [Date.next]
  split_ifs with hday hmonth
  · simp only [dayNumber]
    omega
  · simp only [dayNumber, hlast hday, daysBeforeMonth_succ _ h.month_pos]
    omega
  · have hdecember : date.month = 12 := Nat.le_antisymm h.month_le (Nat.not_lt.mp hmonth)
    have hyear := daysBeforeMonth_december date.year
    have hjanuary : daysBeforeMonth (date.year + 1) 1 = 0 := rfl
    simp only [dayNumber, hlast hday, hdecember, daysBeforeYear_succ, ← hyear, hjanuary]
    omega

/-! ## The order of the dates -/

theorem daysBeforeYear_mono {y z : ℤ} (h : y ≤ z) : daysBeforeYear y ≤ daysBeforeYear z := by
  simp only [daysBeforeYear]
  omega

theorem daysBeforeMonth_mono (y : ℤ) : Monotone (daysBeforeMonth y) := by
  apply monotone_nat_of_le_succ
  intro m
  cases m with
  | zero => exact Nat.le_refl 0
  | succ m => exact Nat.le_add_right _ _

/-- A day of the year is before the next year. -/
theorem Valid.lt_yearLength {date : Date} (h : date.Valid) :
    daysBeforeMonth date.year date.month + (date.day - 1) < yearLength date.year := by
  have hmonth := daysBeforeMonth_mono date.year (Nat.succ_le_succ h.month_le)
  have hyear := daysBeforeMonth_december date.year
  rw [daysBeforeMonth_succ _ h.month_pos, daysBeforeMonth_succ _ (by decide)] at hmonth
  have hday := h.day_le
  have hpos := h.day_pos
  omega

theorem dayNumber_lt_of_before {a b : Date} (ha : a.Valid) (hb : b.Valid) (h : a.Before b) :
    a.dayNumber < b.dayNumber := by
  have haday := ha.day_pos
  have hbday := hb.day_pos
  simp only [dayNumber]
  rcases h with hyear | ⟨hyear, hmonth | ⟨hmonth, hday⟩⟩
  · have hnext := daysBeforeYear_mono (show a.year + 1 ≤ b.year from hyear)
    have hin := ha.lt_yearLength
    rw [daysBeforeYear_succ] at hnext
    omega
  · have hnext := daysBeforeMonth_mono a.year hmonth
    rw [Nat.succ_eq_add_one, daysBeforeMonth_succ _ ha.month_pos] at hnext
    have hle := ha.day_le
    rw [← hyear]
    omega
  · rw [← hyear, ← hmonth]
    omega

theorem before_trichotomy (a b : Date) : a.Before b ∨ a = b ∨ b.Before a := by
  rw [Date.ext_iff, Before, Before]
  omega

/-- The day numbers keep the order of the dates. -/
theorem dayNumber_lt_iff {a b : Date} (ha : a.Valid) (hb : b.Valid) :
    a.dayNumber < b.dayNumber ↔ a.Before b := by
  constructor
  · intro h
    rcases before_trichotomy a b with hbefore | rfl | hafter
    · exact hbefore
    · exact absurd h (lt_irrefl _)
    · exact absurd h (lt_asymm (dayNumber_lt_of_before hb ha hafter))
  · exact dayNumber_lt_of_before ha hb

/-- The day before. -/
def previous (date : Date) : Date :=
  if 1 < date.day then { date with day := date.day - 1 }
  else if 1 < date.month then
    { date with month := date.month - 1, day := monthLength date.year (date.month - 1) }
  else { year := date.year - 1, month := 12, day := 31 }

theorem Valid.previous {date : Date} (h : date.Valid) :
    date.previous.Valid ∧ date.previous.next = date := by
  obtain ⟨y, m, d⟩ := date
  obtain ⟨hmonth, hle, hday, hlength⟩ := h
  dsimp only at hmonth hle hday hlength
  rw [Date.previous]
  split_ifs with hd hm
  · refine ⟨⟨hmonth, hle, Nat.le_sub_one_of_lt hd, Nat.le_trans (Nat.sub_le _ _) hlength⟩, ?_⟩
    rw [Date.next, if_pos (show d - 1 < monthLength y m by omega)]
    simp only [Nat.sub_add_cancel hday]
  · have hfirst : d = 1 := Nat.le_antisymm (Nat.not_lt.mp hd) hday
    refine ⟨⟨Nat.le_sub_one_of_lt hm, Nat.le_trans (Nat.sub_le _ _) hle,
      one_le_monthLength _ _, Nat.le_refl _⟩, ?_⟩
    rw [Date.next, if_neg (Nat.lt_irrefl _), if_pos (show m - 1 < 12 by omega)]
    simp only [Nat.sub_add_cancel hmonth, hfirst]
  · have hfirst : d = 1 := Nat.le_antisymm (Nat.not_lt.mp hd) hday
    have hjanuary : m = 1 := Nat.le_antisymm (Nat.not_lt.mp hm) hmonth
    refine ⟨⟨show 1 ≤ 12 by decide, Nat.le_refl 12, show 1 ≤ 31 by decide, Nat.le_refl 31⟩, ?_⟩
    rw [Date.next, if_neg (show ¬31 < monthLength (y - 1) 12 from Nat.lt_irrefl 31),
      if_neg (Nat.lt_irrefl 12)]
    simp only [Int.sub_add_cancel, hfirst, hjanuary]

/-- Every day has a date. -/
theorem exists_dayNumber_eq (n : ℤ) : ∃ date : Date, date.Valid ∧ date.dayNumber = n := by
  induction n using Int.induction_on with
  | zero => exact ⟨⟨1970, 1, 1⟩, by decide, by decide⟩
  | succ n ih =>
      obtain ⟨date, hvalid, hday⟩ := ih
      exact ⟨date.next, hvalid.next, by rw [hvalid.dayNumber_next, hday]⟩
  | pred n ih =>
      obtain ⟨date, hvalid, hday⟩ := ih
      obtain ⟨hprevious, hnext⟩ := hvalid.previous
      refine ⟨date.previous, hprevious, ?_⟩
      have h := hprevious.dayNumber_next
      rw [hnext, hday] at h
      omega

/-- A day is one date only. -/
theorem eq_of_dayNumber_eq {a b : Date} (ha : a.Valid) (hb : b.Valid)
    (h : a.dayNumber = b.dayNumber) : a = b := by
  rcases before_trichotomy a b with hbefore | heq | hafter
  · exact absurd h (dayNumber_lt_of_before ha hb hbefore).ne
  · exact heq
  · exact absurd h (dayNumber_lt_of_before hb ha hafter).ne'

end Date

end Canboat
