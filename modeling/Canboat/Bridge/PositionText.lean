import Canboat.Bridge.Nmea0183
import Canboat.Core.Numeral
import Canboat.Core.Rounded

/-!
# What the texts of a position denote

A position is split into degrees, minutes and seconds before these are written. Where the last part
rounds up to a whole one, two of the three texts do not carry.
-/

namespace Canboat

open Binary64 (decimal digits paddedDigits)

namespace PositionText

/-! ## Reading a text -/

structure Reading where
  degrees : ℚ
  minutes : ℚ
  seconds : ℚ
  letter : Char

/-- What is before the letter, and what is behind it. -/
def cut (c : Char) (text : List Char) : List Char × List Char :=
  (text.takeWhile (· ≠ c), (text.dropWhile (· ≠ c)).drop 1)

/-- As `floor(x / 100)` degrees and `x mod 100` minutes. -/
def readNmea (text : List Char × Char) : Option Reading :=
  (parseDecimal text.1).map fun x => ⟨⌊x / 100⌋, x - 100 * ⌊x / 100⌋, 0, text.2⟩

/-- As degrees up to the `d`, and minutes up to the blank before the letter. -/
def readDm (text : List Char) : Option Reading :=
  let deg := cut 'd' text
  let minutes := cut ' ' (deg.2.dropWhile (· = ' '))
  (parseDecimal deg.1).bind fun d =>
    (parseDecimal minutes.1).bind fun m => minutes.2.head?.map fun letter => ⟨d, m, 0, letter⟩

/-- As degrees up to the `d`, minutes up to the single quote and seconds up to the double one. -/
def readDms (text : List Char) : Option Reading :=
  let deg := cut 'd' text
  let minutes := cut '\x27' (deg.2.dropWhile (· = ' '))
  let seconds := cut '"' (minutes.2.dropWhile (· = ' '))
  (parseDecimal deg.1).bind fun d =>
    (parseDecimal minutes.1).bind fun m =>
      (parseDecimal seconds.1).bind fun s =>
        seconds.2.head?.map fun letter => ⟨d, m, s, letter⟩

/-- The letter of the sign. -/
def hemisphere (isLat : Bool) (dd : ℚ) : Char :=
  if isLat then if dd < 0 then 'S' else 'N'
  else if dd < 0 then 'W'
  else 'E'

/-- The reading has no minutes or seconds too many, and it is within half the unit of the
magnitude. -/
def Denotes (reading : Option Reading) (isLat : Bool) (dd unit : ℚ) : Prop :=
  ∃ r, reading = some r ∧ r.minutes < 60 ∧ r.seconds < 60 ∧ r.letter = hemisphere isLat dd ∧
    abs (r.degrees + r.minutes / 60 + r.seconds / 3600 - |dd|) ≤ unit / 2

/-- A unit of the fourth decimal place of the minutes, in degrees. -/
def NmeaDenotes (tie : Tie) (isLat : Bool) (dd : ℚ) : Prop :=
  Denotes (readNmea (Nmea0183.latlonToNmea (Rounded.ofQ tie dd) isLat)) isLat dd
    (1 / 10 ^ 4 / 60)

def DmDenotes (tie : Tie) (name : String) (dd : ℚ) : Prop :=
  Denotes (readDm (writeLatlon (Rounded.ofQ tie dd) name .Dm)) (!isLon name) dd
    (1 / 10 ^ 3 / 60)

def DmsDenotes (tie : Tie) (name : String) (dd : ℚ) : Prop :=
  Denotes (readDms (writeLatlon (Rounded.ofQ tie dd) name .Dms)) (!isLon name) dd
    (1 / 10 ^ 3 / 3600)

/-- The minutes over the whole degrees. -/
def minutesOf (dd : ℚ) : ℚ := (|dd| - ⌊|dd|⌋₊) * 60

/-! ## The numbers -/

variable {tie : Tie} {q dd : ℚ} {n : ℕ}

theorem toIntWithin_ofQ {lo hi : ℤ} (hq : 0 ≤ q) (hlo : lo ≤ 0) (hhi : q < hi) :
    Float64.toIntWithin lo hi (Rounded.ofQ tie q) = ⌊q⌋₊ := by
  have hfloor : ⌊q⌋ = (⌊q⌋₊ : ℤ) := (Int.natCast_floor_eq_floor hq).symm
  have hle : ⌊q⌋ ≤ hi := Int.floor_le_iff.mpr (by linarith)
  change max lo (min hi (if 0 ≤ q then ⌊q⌋ else -⌊-q⌋)) = _
  rw [if_pos hq, min_eq_right hle, hfloor, max_eq_right (by omega)]

theorem floor_ofQ (hq : 0 ≤ q) (hlt : q < 9007199254740992) :
    floor (Rounded.ofQ tie q) = Rounded.ofQ tie ⌊q⌋₊ := by
  have hsmall : Float64.lt (Float64.abs (Rounded.ofQ tie q))
      (Float64.ofInt 9007199254740992 : Rounded tie) = true := by
    rw [Rounded.abs_eq, abs_of_nonneg hq, Rounded.ofInt_eq, Rounded.lt_eq, decide_eq_true_eq]
    exact_mod_cast hlt
  have htrunc : Float64.toIntWithin (-9007199254740992) 9007199254740992 (Rounded.ofQ tie q) =
      (⌊q⌋₊ : ℤ) := toIntWithin_ofQ hq (by decide) (by exact_mod_cast hlt)
  have hover : Float64.lt (Rounded.ofQ tie q) (Float64.ofInt (⌊q⌋₊ : ℤ) : Rounded tie) = false := by
    rw [Rounded.ofInt_eq, Rounded.lt_eq, decide_eq_false_iff_not, Int.cast_natCast, not_lt]
    exact Nat.floor_le hq
  rw [floor, if_pos hsmall, htrunc]
  simp only [hover]
  exact congrArg (Rounded.ofQ tie) (Int.cast_natCast _)

theorem toU32_ofQ (h : n < 4294967295) : (Float64.toU32 (Rounded.ofQ tie n)).toNat = n := by
  have hint : Float64.toIntWithin 0 4294967295 (Rounded.ofQ tie n) = (n : ℤ) := by
    rw [toIntWithin_ofQ (Nat.cast_nonneg n) le_rfl (by exact_mod_cast h), Nat.floor_natCast]
  rw [Float64.toU32, hint, Int.toNat_natCast, UInt32.toNat_ofNat', Nat.mod_eq_of_lt (by omega)]

theorem displayFixed_ofQ (places : ℕ) (hq : 0 ≤ q) :
    Float64.displayFixed places (Rounded.ofQ tie q) =
      decimal false places (tie.nearest (q * 10 ^ places)) := by
  change decimal (decide (q < 0)) places (tie.nearest (|q| * 10 ^ places)) = _
  rw [abs_of_nonneg hq, decide_eq_false (not_lt.mpr hq)]

/-- The magnitude as whole degrees and minutes. -/
theorem abs_eq_degrees (dd : ℚ) : |dd| = ⌊|dd|⌋₊ + minutesOf dd / 60 := by
  rw [minutesOf]
  ring

theorem minutesOf_nonneg (dd : ℚ) : 0 ≤ minutesOf dd := by
  have hle := Nat.floor_le (abs_nonneg dd)
  rw [minutesOf]
  linarith

theorem minutesOf_lt (dd : ℚ) : minutesOf dd < 60 := by
  have hlt := Nat.lt_floor_add_one |dd|
  rw [minutesOf]
  linarith

/-- A rounded part of so many places is near the part. -/
theorem nearest_div (tie : Tie) (places : ℕ) (hq : 0 ≤ q) :
    |(tie.nearest (q * 10 ^ places) : ℚ) / 10 ^ places - q| ≤ 1 / 10 ^ places / 2 := by
  have hpow : (0 : ℚ) < 10 ^ places := by positivity
  have hnear := tie.near (mul_nonneg hq hpow.le)
  have hscale : (tie.nearest (q * 10 ^ places) : ℚ) / 10 ^ places - q =
      (tie.nearest (q * 10 ^ places) - q * 10 ^ places) / 10 ^ places := by
    field_simp
  rw [hscale, abs_div, abs_of_pos hpow, div_right_comm]
  exact (div_le_div_iff_of_pos_right hpow).mpr hnear

/-! ## Degrees and minutes in one number -/

theorem isNegative_ofQ (dd : ℚ) : Nmea0183.isNegative (Rounded.ofQ tie dd) = decide (dd < 0) := by
  rw [Nmea0183.isNegative, Rounded.ofInt_eq, Rounded.lt_eq, Int.cast_zero]

theorem floor_abs (h : |dd| ≤ 180) : floor (Rounded.ofQ tie |dd|) = Rounded.ofQ tie ⌊|dd|⌋₊ :=
  floor_ofQ (abs_nonneg dd) (h.trans_lt (by norm_num))

theorem latlonToNmea_ofQ (isLat : Bool) (h : |dd| ≤ 180) :
    Nmea0183.latlonToNmea (Rounded.ofQ tie dd) isLat =
      (decimal false 4 (tie.nearest (minutesOf dd * 10 ^ 4) + 2 * (⌊|dd|⌋₊ * 500000)),
        hemisphere isLat dd) := by
  have hsum : (⌊|dd|⌋₊ : ℚ) * 100 + (|dd| - ⌊|dd|⌋₊) * 60 = ⌊|dd|⌋₊ * 100 + minutesOf dd := rfl
  have hnonneg : (0 : ℚ) ≤ ⌊|dd|⌋₊ * 100 + minutesOf dd :=
    add_nonneg (by positivity) (minutesOf_nonneg dd)
  have hscale : ((⌊|dd|⌋₊ : ℚ) * 100 + minutesOf dd) * 10 ^ 4 =
      minutesOf dd * 10 ^ 4 + (2 * (⌊|dd|⌋₊ * 500000) : ℕ) := by
    push_cast
    ring
  simp only [Nmea0183.latlonToNmea, Rounded.abs_eq, floor_abs h, Rounded.ofInt_eq, Rounded.sub_eq, Rounded.mul_eq, Rounded.add_eq,
    Int.cast_ofNat, isNegative_ofQ, decide_eq_true_eq]
  rw [hsum, displayFixed_ofQ 4 hnonneg, hscale,
    tie.nearest_add (mul_nonneg (minutesOf_nonneg dd) (by positivity))]
  rfl

theorem readNmea_decimal {n d : ℕ} (hn : n < 1000000) (letter : Char) :
    readNmea (decimal false 4 (n + 2 * (d * 500000)), letter) =
      some ⟨d, (n : ℚ) / 10 ^ 4, 0, letter⟩ := by
  have hvalue : ((n + 2 * (d * 500000) : ℕ) : ℚ) / 10 ^ 4 = d * 100 + n / 10 ^ 4 := by
    push_cast
    ring
  have hfloor : ⌊((d : ℚ) * 100 + n / 10 ^ 4) / 100⌋ = (d : ℤ) := by
    have hn' : (n : ℚ) < 1000000 := by exact_mod_cast hn
    have hpos : (0 : ℚ) ≤ n := Nat.cast_nonneg n
    rw [Int.floor_eq_iff, Int.cast_natCast]
    constructor <;> linarith
  rw [readNmea, parseDecimal_decimal, Option.map_some, hvalue, hfloor, Int.cast_natCast,
    mul_comm (100 : ℚ), add_sub_cancel_left]

/-- The rounded minutes stay below sixty just below half a unit. -/
theorem nearest_minutes_lt_iff (places bound : ℕ) (hodd : bound % 2 = 1)
    (hbound : (bound : ℚ) + 1 = 60 * 10 ^ places) :
    (tie.nearest (minutesOf dd * 10 ^ places) : ℚ) / 10 ^ places < 60 ↔
      minutesOf dd * 10 ^ places < bound + 1 / 2 := by
  have hpow : (0 : ℚ) < 10 ^ places := by positivity
  have hnonneg : 0 ≤ minutesOf dd * 10 ^ places := mul_nonneg (minutesOf_nonneg dd) hpow.le
  rw [div_lt_iff₀ hpow, ← hbound]
  constructor
  · intro h
    by_contra hle
    have hup := tie.lt_nearest hnonneg hodd (not_lt.mp hle)
    have hge : ((bound + 1 : ℕ) : ℚ) ≤ tie.nearest (minutesOf dd * 10 ^ places) :=
      Nat.cast_le.mpr hup
    push_cast at hge
    linarith
  · intro h
    have hle : (tie.nearest (minutesOf dd * 10 ^ places) : ℚ) ≤ bound :=
      Nat.cast_le.mpr (tie.nearest_le hnonneg h)
    linarith

theorem nearest_minutes_le (places : ℕ) :
    tie.nearest (minutesOf dd * 10 ^ places) ≤ 60 * 10 ^ places := by
  have hpow : (0 : ℚ) < 10 ^ places := by positivity
  refine tie.nearest_le (mul_nonneg (minutesOf_nonneg dd) hpow.le) ?_
  have h := mul_lt_mul_of_pos_right (minutesOf_lt dd) hpow
  push_cast
  linarith

theorem nmeaDenotes_iff (isLat : Bool) (h : |dd| ≤ 180) :
    NmeaDenotes tie isLat dd ↔ minutesOf dd < 59.99995 := by
  have hread : readNmea (Nmea0183.latlonToNmea (Rounded.ofQ tie dd) isLat) =
      some ⟨⌊|dd|⌋₊, (tie.nearest (minutesOf dd * 10 ^ 4) : ℚ) / 10 ^ 4, 0,
        hemisphere isLat dd⟩ := by
    have hle := @nearest_minutes_le tie dd 4
    rw [latlonToNmea_ofQ isLat h, readNmea_decimal (by omega)]
  have hminutes := @nearest_minutes_lt_iff tie dd 4 599999 (by decide) (by norm_num)
  have hlt : minutesOf dd * 10 ^ 4 < (599999 : ℕ) + 1 / 2 ↔ minutesOf dd < 59.99995 := by
    constructor <;> intro h <;> norm_num at h ⊢ <;> linarith
  rw [← hlt, ← hminutes, NmeaDenotes, Denotes, hread]
  constructor
  · rintro ⟨r, ⟨⟩, hmin, -⟩
    exact hmin
  · intro hmin
    refine ⟨_, rfl, hmin, by norm_num, rfl, ?_⟩
    have hnear := nearest_div tie 4 (minutesOf_nonneg dd)
    have hdiff : (⌊|dd|⌋₊ : ℚ) + (tie.nearest (minutesOf dd * 10 ^ 4) : ℚ) / 10 ^ 4 / 60 + 0 / 3600 -
        |dd| = ((tie.nearest (minutesOf dd * 10 ^ 4) : ℚ) / 10 ^ 4 - minutesOf dd) / 60 := by
      rw [minutesOf]
      ring
    rw [hdiff, abs_div, abs_of_pos (by norm_num : (0 : ℚ) < 60)]
    linarith

/-! ## Degrees, minutes and seconds apart -/

theorem cut_append {c : Char} {s : List Char} (hs : ∀ x ∈ s, x ≠ c) (t : List Char) :
    cut c (s ++ c :: t) = (s, t) := by
  have hkeep : ∀ x ∈ s, decide (x ≠ c) = true := fun x hx => decide_eq_true (hs x hx)
  rw [cut, List.takeWhile_append_of_pos hkeep, List.dropWhile_append_of_pos hkeep]
  simp

theorem ne_of_isDigit {x c : Char} (hx : x.isDigit = true) (hc : c.isDigit = false) : x ≠ c := by
  rintro rfl
  rw [hx] at hc
  cases hc

theorem parseDecimal_paddedDigits (width n : ℕ) :
    parseDecimal (paddedDigits width n) = some (n : ℚ) := by
  have hall := takeWhile_digits (t := []) (all_isDigit_padded width n) nofun
  rw [List.append_nil] at hall
  have hfrac : splitFraction ((paddedDigits width n).dropWhile Char.isDigit) = ([], []) := by
    rw [hall.2]
    rfl
  have hne : paddedDigits width n ≠ [] := List.append_ne_nil_of_right_ne_nil _ (digits_ne_nil n)
  rw [parseDecimal_of_split hall.1 hfrac hne, List.append_nil, ofDigitChars_padded]
  simp

/-- A decimal without a sign begins with a digit, and has digits and a point. -/
theorem decimal_cons (places n : ℕ) :
    ∃ c s, decimal false places n = c :: s ∧ c.isDigit = true ∧
      ∀ x ∈ c :: s, x.isDigit = true ∨ x = '.' := by
  have hchars : ∀ x ∈ decimal false places n, x.isDigit = true ∨ x = '.' := by
    intro x hx
    rw [decimal, if_neg Bool.false_ne_true, List.nil_append] at hx
    split_ifs at hx
    · exact Or.inl (all_isDigit_digits n x hx)
    · rcases List.mem_append.mp hx with hx | hx
      · exact Or.inl (all_isDigit_digits _ x hx)
      · rcases List.mem_cons.mp hx with hx | hx
        · exact Or.inr hx
        · exact Or.inl (all_isDigit_padded _ _ x hx)
  have hfirst : ∃ c s, decimal false places n = c :: s ∧ c.isDigit = true := by
    rw [decimal, if_neg Bool.false_ne_true, List.nil_append]
    split_ifs
    · exact digits_cons n
    · obtain ⟨c, s, hs, hc⟩ := digits_cons (n / 10 ^ places)
      exact ⟨c, _, by rw [hs, List.cons_append], hc⟩
  obtain ⟨c, s, hs, hc⟩ := hfirst
  rw [hs] at hchars
  exact ⟨c, s, hs, hc, hchars⟩

theorem mem_decimal_ne {places n : ℕ} {x c : Char} (hx : x ∈ decimal false places n)
    (hdigit : c.isDigit = false) (hpoint : c ≠ '.') : x ≠ c := by
  obtain ⟨d, s, hs, -, hchars⟩ := decimal_cons places n
  rw [hs] at hx
  rcases hchars x hx with h | rfl
  · exact ne_of_isDigit h hdigit
  · exact hpoint.symm

/-- The blanks before a numeral go. -/
theorem dropWhile_blanks {c : Char} {s : List Char} (hc : c.isDigit = true) (k : ℕ) (t : List Char) :
    (' ' :: (List.replicate k ' ' ++ c :: s ++ t)).dropWhile (· = ' ') = c :: s ++ t := by
  have hblanks : ∀ x ∈ List.replicate (k + 1) ' ', decide (x = ' ') = true := by
    intro x hx
    exact decide_eq_true (List.eq_of_mem_replicate hx)
  have hstop : (c :: (s ++ t)).dropWhile (· = ' ') = c :: (s ++ t) := by
    rw [List.dropWhile_cons, decide_eq_false (ne_of_isDigit hc rfl)]
    rfl
  have hsplit : ' ' :: (List.replicate k ' ' ++ c :: s ++ t) =
      List.replicate (k + 1) ' ' ++ (c :: s ++ t) := by
    rw [List.replicate_succ, List.cons_append, List.append_assoc]
  rw [hsplit, List.dropWhile_append_of_pos hblanks, List.cons_append, hstop]

theorem cut_degrees (d : ℕ) (rest : List Char) :
    cut 'd' (paddedDigits 2 d ++ 'd' :: rest) = (paddedDigits 2 d, rest) :=
  cut_append (fun _ hx => ne_of_isDigit (all_isDigit_padded 2 d _ hx) rfl) rest

theorem writeDirection_ofQ (name : String) :
    writeDirection (Rounded.ofQ tie dd) name = hemisphere (!isLon name) dd := by
  rw [writeDirection, hemisphere, Rounded.ofInt_eq, Rounded.le_eq, Int.cast_zero]
  by_cases hdd : dd < 0
  · rw [if_pos hdd, if_pos hdd, decide_eq_false (not_le.mpr hdd)]
    cases isLon name <;> rfl
  · rw [if_neg hdd, if_neg hdd, decide_eq_true (not_lt.mp hdd)]
    cases isLon name <;> rfl

theorem floor_abs_le (h : |dd| ≤ 180) : ⌊|dd|⌋₊ ≤ 180 := Nat.floor_le_of_le h

theorem writeLatlon_dm (name : String) (h : |dd| ≤ 180) :
    writeLatlon (Rounded.ofQ tie dd) name .Dm =
      paddedDigits 2 ⌊|dd|⌋₊ ++ 'd' :: ' ' ::
        (padLeft 6 (decimal false 3 (tie.nearest (minutesOf dd * 10 ^ 3))) ++
          [' ', hemisphere (!isLon name) dd]) := by
  have hle := floor_abs_le h
  simp only [writeLatlon, floor_abs h, Rounded.abs_eq, Rounded.ofInt_eq, Rounded.sub_eq,
    Rounded.mul_eq, Int.cast_ofNat, writeDirection_ofQ]
  rw [toU32_ofQ (by omega), ← minutesOf, displayFixed_ofQ 3 (minutesOf_nonneg dd)]

theorem readDm_written (d n : ℕ) (letter : Char) :
    readDm (paddedDigits 2 d ++ 'd' :: ' ' ::
      (padLeft 6 (decimal false 3 n) ++ [' ', letter])) =
      some ⟨d, (n : ℚ) / 10 ^ 3, 0, letter⟩ := by
  obtain ⟨c, s, hs, hc, -⟩ := decimal_cons 3 n
  have hminutes : cut ' ' (decimal false 3 n ++ [' ', letter]) = (decimal false 3 n, [letter]) :=
    cut_append (fun x hx => mem_decimal_ne hx rfl (by decide)) [letter]
  rw [readDm, cut_degrees, padLeft]
  simp only
  rw [hs, dropWhile_blanks hc, ← hs, hminutes, parseDecimal_paddedDigits, parseDecimal_decimal]
  rfl

theorem dmDenotes_iff (name : String) (h : |dd| ≤ 180) :
    DmDenotes tie name dd ↔ minutesOf dd < 59.9995 := by
  have hminutes := @nearest_minutes_lt_iff tie dd 3 59999 (by decide) (by norm_num)
  have hlt : minutesOf dd * 10 ^ 3 < (59999 : ℕ) + 1 / 2 ↔ minutesOf dd < 59.9995 := by
    constructor <;> intro h <;> norm_num at h ⊢ <;> linarith
  rw [← hlt, ← hminutes, DmDenotes, Denotes, writeLatlon_dm name h, readDm_written]
  constructor
  · rintro ⟨r, ⟨⟩, hmin, -⟩
    exact hmin
  · intro hmin
    refine ⟨_, rfl, hmin, by norm_num, rfl, ?_⟩
    have hnear := nearest_div tie 3 (minutesOf_nonneg dd)
    have hdiff : (⌊|dd|⌋₊ : ℚ) + (tie.nearest (minutesOf dd * 10 ^ 3) : ℚ) / 10 ^ 3 / 60 + 0 / 3600 -
        |dd| = ((tie.nearest (minutesOf dd * 10 ^ 3) : ℚ) / 10 ^ 3 - minutesOf dd) / 60 := by
      rw [minutesOf]
      ring
    rw [hdiff, abs_div, abs_of_pos (by norm_num : (0 : ℚ) < 60)]
    linarith

/-- The seconds over the whole minutes. -/
def secondsOf (dd : ℚ) : ℚ := (minutesOf dd - ⌊minutesOf dd⌋₊) * 60

theorem secondsOf_nonneg (dd : ℚ) : 0 ≤ secondsOf dd := by
  have hle := Nat.floor_le (minutesOf_nonneg dd)
  rw [secondsOf]
  linarith

theorem secondsOf_lt (dd : ℚ) : secondsOf dd < 60 := by
  have hlt := Nat.lt_floor_add_one (minutesOf dd)
  rw [secondsOf]
  linarith

/-- Degrees, minutes and seconds, with the carries. -/
def carried (dd : ℚ) : ℕ × ℕ × ℚ :=
  let up := 59.9995 ≤ secondsOf dd
  let minutes := if up then ⌊minutesOf dd⌋₊ + 1 else ⌊minutesOf dd⌋₊
  let seconds := if up then 0 else secondsOf dd
  if 60 ≤ minutes then (⌊|dd|⌋₊ + 1, 0, seconds) else (⌊|dd|⌋₊, minutes, seconds)

theorem carried_bounds (dd : ℚ) :
    (carried dd).1 ≤ ⌊|dd|⌋₊ + 1 ∧ (carried dd).2.1 < 60 ∧ 0 ≤ (carried dd).2.2 ∧
      (carried dd).2.2 < 59.9995 := by
  have hnonneg := secondsOf_nonneg dd
  rw [carried]
  by_cases hup : 59.9995 ≤ secondsOf dd
  · simp only [if_pos hup]
    split_ifs with hover
    · exact ⟨le_rfl, by norm_num, le_rfl, by norm_num⟩
    · exact ⟨Nat.le_succ _, not_le.mp hover, le_rfl, by norm_num⟩
  · simp only [if_neg hup]
    split_ifs with hover
    · exact ⟨le_rfl, by norm_num, hnonneg, not_le.mp hup⟩
    · exact ⟨Nat.le_succ _, not_le.mp hover, hnonneg, not_le.mp hup⟩

/-- A carry adds less than half a unit of the seconds; without it the parts are the magnitude. -/
theorem carried_sum (dd : ℚ) :
    ∃ extra : ℚ, ((carried dd).1 : ℚ) + ((carried dd).2.1 : ℚ) / 60 + (carried dd).2.2 / 3600 =
        |dd| + extra / 3600 ∧
      (extra = 0 ∨ (carried dd).2.2 = 0 ∧ 0 < extra ∧ extra ≤ 1 / 10 ^ 3 / 2) := by
  have hlt := secondsOf_lt dd
  have hsixty : ⌊minutesOf dd⌋₊ < 60 := (Nat.floor_lt (minutesOf_nonneg dd)).mpr (minutesOf_lt dd)
  have hmagnitude : |dd| = ⌊|dd|⌋₊ + ⌊minutesOf dd⌋₊ / 60 + secondsOf dd / 3600 := by
    have hdegrees := abs_eq_degrees dd
    have hminutes : minutesOf dd = ⌊minutesOf dd⌋₊ + secondsOf dd / 60 := by
      rw [secondsOf]
      ring
    linarith
  rw [carried]
  by_cases hup : 59.9995 ≤ secondsOf dd
  · refine ⟨60 - secondsOf dd, ?_, Or.inr ⟨?_, by linarith, by norm_num at hup ⊢; linarith⟩⟩
    · simp only [if_pos hup]
      split_ifs with hover
      · -- the fifty-ninth minute goes up to the next degree
        have hlast : (⌊minutesOf dd⌋₊ : ℚ) = 59 := by
          have h : ⌊minutesOf dd⌋₊ = 59 := by omega
          exact_mod_cast h
        push_cast
        linarith
      · push_cast
        linarith
    · simp only [if_pos hup]
      split_ifs <;> rfl
  · refine ⟨0, ?_, Or.inl rfl⟩
    simp only [if_neg hup]
    rw [if_neg (by omega)]
    simp only
    linarith

theorem writeLatlon_dms (name : String) (h : |dd| ≤ 180) :
    writeLatlon (Rounded.ofQ tie dd) name .Dms =
      paddedDigits 2 (carried dd).1 ++ 'd' :: ' ' ::
        (paddedDigits 2 (carried dd).2.1 ++ '\x27' :: ' ' ::
          (padZeros 6 (decimal false 3 (tie.nearest ((carried dd).2.2 * 10 ^ 3))) ++
            ['"', hemisphere (!isLon name) dd])) := by
  have hle := floor_abs_le h
  have hfloor : floor (Rounded.ofQ tie (minutesOf dd)) = Rounded.ofQ tie ⌊minutesOf dd⌋₊ :=
    floor_ofQ (minutesOf_nonneg dd) ((minutesOf_lt dd).trans (by norm_num))
  have hsixty : ⌊minutesOf dd⌋₊ < 60 := (Nat.floor_lt (minutesOf_nonneg dd)).mpr (minutesOf_lt dd)
  have hseconds : (|dd| - ⌊|dd|⌋₊) * 3600 - 60 * ⌊minutesOf dd⌋₊ = secondsOf dd := by
    rw [secondsOf, minutesOf]
    ring
  simp only [writeLatlon, floor_abs h, Rounded.abs_eq, Rounded.ofInt_eq, Rounded.ofRat_eq,
    Rounded.sub_eq, Rounded.mul_eq, Rounded.add_eq, Int.cast_ofNat, Int.cast_one,
    Int.cast_zero, writeDirection_ofQ]
  rw [← minutesOf, hfloor]
  simp only [Rounded.sub_eq, Rounded.mul_eq, Rounded.le_eq, Rounded.add_eq, hseconds,
    decide_eq_true_eq]
  have hzero : (0 : ℚ) = ((0 : ℕ) : ℚ) := Nat.cast_zero.symm
  rw [carried]
  by_cases hup : 59.9995 ≤ secondsOf dd
  · have hnext : (⌊minutesOf dd⌋₊ : ℚ) + 1 = (⌊minutesOf dd⌋₊ + 1 : ℕ) := by
      push_cast
      rfl
    have hdegree : (⌊|dd|⌋₊ : ℚ) + 1 = (⌊|dd|⌋₊ + 1 : ℕ) := by
      push_cast
      rfl
    simp only [if_pos hup, hnext, hdegree, Rounded.le_eq, decide_eq_true_eq, Nat.ofNat_le_cast,
      displayFixed_ofQ 3 le_rfl]
    by_cases hover : 60 ≤ ⌊minutesOf dd⌋₊ + 1
    · simp only [if_pos hover]
      rw [toU32_ofQ (by omega), hzero, toU32_ofQ (by norm_num)]
    · simp only [if_neg hover]
      rw [toU32_ofQ (by omega), toU32_ofQ (by omega)]
  · have hover : ¬60 ≤ ⌊minutesOf dd⌋₊ := not_le.mpr hsixty
    simp only [if_neg hup, Rounded.le_eq, decide_eq_true_eq, Nat.ofNat_le_cast, if_neg hover,
      displayFixed_ofQ 3 (secondsOf_nonneg dd)]
    rw [toU32_ofQ (by omega), toU32_ofQ (by omega)]

/-- Zeros on the left do not count. -/
theorem parseDecimal_zeros (k : ℕ) {s : List Char} (hs : s.takeWhile Char.isDigit ≠ []) :
    parseDecimal (List.replicate k '0' ++ s) = parseDecimal s := by
  have hzeros : ∀ x ∈ List.replicate k '0', x.isDigit = true := by
    intro x hx
    rw [List.eq_of_mem_replicate hx]
    rfl
  have hvalue (t : List Char) :
      Nat.ofDigitChars 10 (List.replicate k '0' ++ t) 0 = Nat.ofDigitChars 10 t 0 := by
    rw [Nat.ofDigitChars_append, Nat.ofDigitChars_replicate_zero, Nat.mul_zero]
  rw [parseDecimal, parseDecimal, List.takeWhile_append_of_pos hzeros,
    List.dropWhile_append_of_pos hzeros]
  simp only [List.append_eq_nil_iff, hs, and_false, false_and, if_false, List.append_assoc, hvalue]

theorem padZeros_decimal (places n : ℕ) :
    padZeros 6 (decimal false places n) =
      List.replicate (6 - (decimal false places n).length) '0' ++ decimal false places n := by
  obtain ⟨c, s, hs, hc, -⟩ := decimal_cons places n
  rw [hs, padZeros]
  rintro rest hsign
  have hminus : c = '-' := (List.cons.inj hsign).1
  rw [hminus] at hc
  cases hc

theorem parseDecimal_padZeros (places n : ℕ) :
    parseDecimal (padZeros 6 (decimal false places n)) = some (n / 10 ^ places : ℚ) := by
  obtain ⟨c, s, hs, hc, -⟩ := decimal_cons places n
  have hfirst : (decimal false places n).takeWhile Char.isDigit ≠ [] := by
    rw [hs, List.takeWhile_cons_of_pos hc]
    exact List.cons_ne_nil _ _
  rw [padZeros_decimal, parseDecimal_zeros _ hfirst, parseDecimal_decimal]

theorem mem_padZeros_ne {places n : ℕ} {x c : Char} (hx : x ∈ padZeros 6 (decimal false places n))
    (hdigit : c.isDigit = false) (hpoint : c ≠ '.') : x ≠ c := by
  rw [padZeros_decimal] at hx
  rcases List.mem_append.mp hx with hx | hx
  · rw [List.eq_of_mem_replicate hx]
    exact ne_of_isDigit rfl hdigit
  · exact mem_decimal_ne hx hdigit hpoint

/-- The blank before a part goes. -/
theorem dropWhile_blank {s : List Char} (hne : s ≠ []) (hs : ∀ x ∈ s, x ≠ ' ') (t : List Char) :
    (' ' :: (s ++ t)).dropWhile (· = ' ') = s ++ t := by
  rcases s with _ | ⟨c, s⟩
  · exact absurd rfl hne
  · have hc : decide (c = ' ') = false := decide_eq_false (hs c List.mem_cons_self)
    rw [List.dropWhile_cons_of_pos (by decide), List.cons_append, List.dropWhile_cons, hc]
    rfl

theorem readDms_written (d m n : ℕ) (letter : Char) :
    readDms (paddedDigits 2 d ++ 'd' :: ' ' :: (paddedDigits 2 m ++ '\x27' :: ' ' ::
      (padZeros 6 (decimal false 3 n) ++ ['"', letter]))) =
      some ⟨d, m, (n : ℚ) / 10 ^ 3, letter⟩ := by
  have hm : ∀ x ∈ paddedDigits 2 m, x.isDigit = true := all_isDigit_padded 2 m
  have hmne : paddedDigits 2 m ≠ [] := List.append_ne_nil_of_right_ne_nil _ (digits_ne_nil m)
  have hsne : padZeros 6 (decimal false 3 n) ≠ [] := by
    obtain ⟨c, s, hs, -, -⟩ := decimal_cons 3 n
    rw [padZeros_decimal, hs]
    exact List.append_ne_nil_of_right_ne_nil _ (List.cons_ne_nil c s)
  have hminutes := cut_append (fun x hx => ne_of_isDigit (c := '\x27') (hm x hx) rfl)
    (' ' :: (padZeros 6 (decimal false 3 n) ++ ['"', letter]))
  have hseconds : cut '"' (padZeros 6 (decimal false 3 n) ++ ['"', letter]) =
      (padZeros 6 (decimal false 3 n), [letter]) :=
    cut_append (fun x hx => mem_padZeros_ne hx rfl (by decide)) [letter]
  rw [readDms, cut_degrees]
  simp only
  rw [dropWhile_blank hmne (fun x hx => ne_of_isDigit (hm x hx) rfl), hminutes]
  simp only
  rw [dropWhile_blank hsne (fun x hx => mem_padZeros_ne hx rfl (by decide)), hseconds,
    parseDecimal_paddedDigits, parseDecimal_paddedDigits, parseDecimal_padZeros]
  rfl

theorem dmsDenotes (tie : Tie) (name : String) (h : |dd| ≤ 180) : DmsDenotes tie name dd := by
  obtain ⟨-, hminutes, hnonneg, hlt⟩ := carried_bounds dd
  obtain ⟨extra, hsum, hextra⟩ := carried_sum dd
  have hnear := nearest_div tie 3 hnonneg
  have hsixty : ((carried dd).2.1 : ℚ) < 60 := by exact_mod_cast hminutes
  rw [DmsDenotes, Denotes, writeLatlon_dms name h, readDms_written]
  refine ⟨_, rfl, hsixty, ?_, rfl, ?_⟩
  · have hle : tie.nearest ((carried dd).2.2 * 10 ^ 3) ≤ 59999 := by
      refine tie.nearest_le (mul_nonneg hnonneg (by positivity)) ?_
      norm_num at hlt ⊢
      linarith
    have hle' : (tie.nearest ((carried dd).2.2 * 10 ^ 3) : ℚ) ≤ 59999 := by exact_mod_cast hle
    rw [div_lt_iff₀ (by positivity)]
    exact hle'.trans_lt (by norm_num)
  · simp only
    rcases hextra with rfl | ⟨hzero, hpos, hle⟩
    · have hdiff : ((carried dd).1 : ℚ) + ((carried dd).2.1 : ℚ) / 60 +
          (tie.nearest ((carried dd).2.2 * 10 ^ 3) : ℚ) / 10 ^ 3 / 3600 - |dd| =
            ((tie.nearest ((carried dd).2.2 * 10 ^ 3) : ℚ) / 10 ^ 3 - (carried dd).2.2) / 3600 := by
        linarith
      rw [hdiff, abs_div, abs_of_pos (by norm_num : (0 : ℚ) < 3600)]
      linarith
    · have hround : tie.nearest ((carried dd).2.2 * 10 ^ 3) = 0 := by
        rw [hzero, zero_mul]
        exact Nat.le_zero.mp (tie.nearest_le le_rfl (by norm_num))
      rw [hzero, zero_div, add_zero] at hsum
      rw [hround, Nat.cast_zero, zero_div, zero_div, add_zero, hsum, add_sub_cancel_left,
        abs_of_nonneg (by positivity)]
      linarith

/-- The three texts denote a position just where the minutes do not round up to sixty: those of the
fourth place later than those of the third. The seconds always carry. -/
theorem texts_denote_iff (tie : Tie) (isLat : Bool) (name : String) (dd : ℚ) (h : |dd| ≤ 180) :
    (NmeaDenotes tie isLat dd ∧ DmDenotes tie name dd ∧ DmsDenotes tie name dd ↔
      minutesOf dd < 59.9995) ∧
    (NmeaDenotes tie isLat dd ↔ minutesOf dd < 59.99995) ∧
    (DmDenotes tie name dd ↔ minutesOf dd < 59.9995) ∧ DmsDenotes tie name dd := by
  have hnmea := @nmeaDenotes_iff tie dd isLat h
  have hdm := @dmDenotes_iff tie dd name h
  have hdms := dmsDenotes tie name h
  refine ⟨?_, hnmea, hdm, hdms⟩
  rw [hnmea, hdm]
  constructor
  · exact fun hall => hall.2.1
  · intro hlt
    exact ⟨hlt.trans (by norm_num), hlt, hdms⟩

theorem texts_denote_half :
    NmeaDenotes .even true (91 / 2) ∧ DmDenotes .even "Latitude" (91 / 2) ∧
      DmsDenotes .even "Latitude" (91 / 2) := by
  have habs : |(91 / 2 : ℚ)| = 91 / 2 := abs_of_pos (by norm_num)
  have hfloor : ⌊(91 / 2 : ℚ)⌋₊ = 45 :=
    (Nat.floor_eq_iff (by norm_num)).mpr ⟨by norm_num, by norm_num⟩
  refine (texts_denote_iff .even true "Latitude" (91 / 2) ?_).1.mpr ?_
  · rw [habs]
    norm_num
  · rw [minutesOf, habs, hfloor]
    norm_num

/-- Just below forty-six degrees both texts without a carry have sixty minutes. -/
theorem not_texts_denote : ¬∀ (tie : Tie) (isLat : Bool) (name : String) (dd : ℚ),
    |dd| ≤ (if isLat then 90 else 180) → isLon name = !isLat →
      NmeaDenotes tie isLat dd ∧ DmDenotes tie name dd ∧ DmsDenotes tie name dd := by
  intro h
  have habs : |(459999999 / 10000000 : ℚ)| = 459999999 / 10000000 := abs_of_pos (by norm_num)
  have hfloor : ⌊(459999999 / 10000000 : ℚ)⌋₊ = 45 :=
    (Nat.floor_eq_iff (by norm_num)).mpr ⟨by norm_num, by norm_num⟩
  have hdomain : |(459999999 / 10000000 : ℚ)| ≤ if true then 90 else 180 := by
    rw [habs]
    norm_num
  have hnmea := (h .even true "Latitude" _ hdomain (by decide)).1
  rw [nmeaDenotes_iff true (hdomain.trans (by norm_num)), minutesOf, habs, hfloor] at hnmea
  norm_num at hnmea

end PositionText

end Canboat
