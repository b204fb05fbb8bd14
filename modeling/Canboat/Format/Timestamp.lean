import Canboat.Core.Text
import Mathlib.Data.List.Basic
import Mathlib.Data.List.TakeWhile

/-!
# Calendar timestamps

Days since 1970-01-01 in the proleptic Gregorian calendar, the
`YYYY-MM-DDTHH:MM:SS.mmmZ` form of a millisecond count, and the rewriting of captured
timestamps to that form.
-/

namespace Canboat

/-- Civil date of a day number: year, month, day. -/
def daysToYmd (days : Int) : Int × ℕ × ℕ :=
  let z := days + 719468
  let era := z / 146097
  let doe := z - era * 146097
  let yoe := (doe - doe / 1460 + doe / 36524 - doe / 146096) / 365
  -- `as i32`
  let y := (yoe + era * 400).bmod 4294967296
  let doy := doe - (365 * yoe + yoe / 4 - yoe / 100)
  let mp := (5 * doy + 2) / 153
  let d := doy - (153 * mp + 2) / 5 + 1
  let m := if mp < 10 then mp + 3 else mp - 9
  (if m ≤ 2 then y + 1 else y, m.toNat, d.toNat)

/-- Decimal digits, zero-padded on the left. -/
def padded (width n : ℕ) : String :=
  String.ofList (List.replicate (width - n.repr.length) '0') ++ n.repr

def formatIsoMs (ms : UInt64) : String :=
  let secs := ms.toNat / 1000
  let millis := ms.toNat % 1000
  let days := secs / 86400
  let tod := secs % 86400
  let (y, mo, d) := daysToYmd days
  padded 4 y.toNat ++ "-" ++ padded 2 mo ++ "-" ++ padded 2 d ++ "T" ++ padded 2 (tod / 3600) ++
    ":" ++ padded 2 (tod % 3600 / 60) ++ ":" ++ padded 2 (tod % 60) ++ "." ++ padded 3 millis ++ "Z"

/-! ## Captured timestamps -/

/-- The text begins as the template, in which a `d` stands for any digit. -/
def fits : List Char → List Char → Bool
  | [], _ => true
  | _ :: _, [] => false
  | p :: template, c :: s => (if p = 'd' then c.isDigit else c == p) && fits template s

/-- The number that decimal digits denote. -/
def digitsValue (s : List Char) : ℕ := s.foldl (fun n c => 10 * n + (c.toNat - 48)) 0

def isCanonical (ts : List Char) : Bool :=
  ts.length == 24 && fits "dddd-dd-ddTdd:dd:dd.dddZ".toList ts

/-- `HH:MM:SS` and a fraction after it, cut or filled up to milliseconds. -/
def normalizeTime (s : List Char) : Option (List Char) :=
  if fits "dd:dd:dd".toList s ∧ digitsValue (s.take 2) < 24 ∧
      digitsValue ((s.drop 3).take 2) < 60 ∧ digitsValue ((s.drop 6).take 2) < 60 then
    match s.drop 8 with
    | [] => some (s.take 8 ++ ".000".toList)
    | c :: fraction =>
        if c = '.' ∨ c = ',' then
          -- what comes after the digits is dropped
          some (s.take 8 ++ '.' :: (fraction.takeWhile (·.isDigit) ++ ['0', '0', '0']).take 3)
        else none
  else none

/-- The canonical form of a timestamp with or without a date; others stay as they are. -/
def normalizeTimestamp (ts : List Char) : List Char :=
  if isCanonical ts then ts
  else
    let t := trim ts
    let withDate :=
      if fits "dddd-dd-dd".toList t ∧ (t[10]? = some 'T' ∨ t[10]? = some '-' ∨ t[10]? = some ' ') then
        (normalizeTime (t.drop 11)).map fun time => t.take 10 ++ 'T' :: (time ++ ['Z'])
      else none
    (withDate.or (normalizeTime t)).getD ts

example : daysToYmd 19782 = (2024, 2, 29) := by decide

example : formatIsoMs 1735689600000 = "2025-01-01T00:00:00.000Z" := by decide

example : normalizeTimestamp "2011-04-25-06:25:03,6".toList = "2011-04-25T06:25:03.600Z".toList := by
  decide

/-! ## A canonical timestamp stays as it is -/

theorem fits_length {p s : List Char} (h : fits p s = true) : p.length ≤ s.length := by
  induction p generalizing s with
  | nil => exact Nat.zero_le _
  | cons c p ih =>
      cases s with
      | nil => cases h
      | cons d s =>
          rw [fits, Bool.and_eq_true] at h
          exact Nat.succ_le_succ (ih h.2)

theorem fits_append {p q a b : List Char} (hlen : a.length = p.length) :
    fits (p ++ q) (a ++ b) = (fits p a && fits q b) := by
  induction p generalizing a with
  | nil =>
      rw [List.eq_nil_of_length_eq_zero hlen]
      rfl
  | cons c p ih =>
      cases a with
      | nil => cases hlen
      | cons d a =>
          rw [List.cons_append, List.cons_append, fits, fits, ih (Nat.succ.inj hlen), Bool.and_assoc]

/-- A template looks at as many characters as it has. -/
theorem fits_take (p s : List Char) : fits p (s.take p.length) = fits p s := by
  induction p generalizing s with
  | nil => rfl
  | cons c p ih =>
      cases s with
      | nil => rfl
      | cons d s => rw [List.length_cons, List.take_succ_cons, fits, fits, ih]

theorem isDigit_zeros : ∀ d ∈ ['0', '0', '0'], d.isDigit = true := by
  intro d hd
  rw [List.eq_of_mem_replicate (show d ∈ List.replicate 3 '0' from hd)]
  rfl

/-- What the template says of one character. -/
theorem fits_getElem? {p s : List Char} (h : fits p s = true) {i : ℕ} {q : Char}
    (hq : p[i]? = some q) :
    ∃ c, s[i]? = some c ∧ (if q = 'd' then c.isDigit else c == q) = true := by
  induction p generalizing s i with
  | nil => cases hq
  | cons r p ih =>
      cases s with
      | nil => cases h
      | cons c s =>
          rw [fits, Bool.and_eq_true] at h
          cases i with
          | zero =>
              rw [List.getElem?_cons_zero, Option.some.injEq] at hq
              subst hq
              exact ⟨c, rfl, h.1⟩
          | succ i => exact ih h.2 hq

/-- A time that is found is in canonical form, and found again. -/
theorem normalizeTime_spec {s time : List Char} (h : normalizeTime s = some time) :
    time.length = 12 ∧ fits "dd:dd:dd.ddd".toList time = true ∧
      normalizeTime time = some time := by
  rw [normalizeTime] at h
  split_ifs at h with hfits
  have hlen : (s.take 8).length = 8 := by
    have hle := fits_length hfits.1
    rw [List.length_take]
    exact Nat.min_eq_left hle
  -- cut or filled, the fraction has three digits
  have hform : ∃ m : List Char, time = s.take 8 ++ '.' :: m ∧ m.length = 3 ∧
      ∀ c ∈ m, c.isDigit = true := by
    cases hd : s.drop 8 with
    | nil =>
        rw [hd] at h
        exact ⟨['0', '0', '0'], (Option.some.inj h).symm, rfl, isDigit_zeros⟩
    | cons c fraction =>
        rw [hd] at h
        dsimp only at h
        split_ifs at h with hdot
        refine ⟨_, (Option.some.inj h).symm, ?_, ?_⟩
        · rw [List.length_take, List.length_append]
          exact Nat.min_eq_left (Nat.le_add_left _ _)
        · intro d hmem
          rcases List.mem_append.mp (List.mem_of_mem_take hmem) with hmem | hmem
          · exact List.all_eq_true.mp List.all_takeWhile d hmem
          · exact isDigit_zeros d hmem
  obtain ⟨m, rfl, hm, hdigits⟩ := hform
  obtain ⟨x, y, z, rfl⟩ := List.length_eq_three.mp hm
  have htake : ∀ i, i ≤ 6 → ((s.take 8 ++ ['.', x, y, z]).drop i).take 2 = (s.drop i).take 2 := by
    intro i hi
    have hdrop : 2 ≤ ((s.take 8).drop i).length := by
      rw [List.length_drop, hlen]
      omega
    rw [List.drop_append_of_le_length (by omega), List.take_append_of_le_length hdrop,
      List.drop_take, List.take_take, Nat.min_eq_left (by omega)]
  have hbase : fits "dd:dd:dd".toList (s.take 8) = true := by
    rw [← hfits.1]
    exact fits_take _ s
  have hall : ∀ c ∈ [x, y, z], c.isDigit = true := hdigits
  have hwhile : [x, y, z].takeWhile (·.isDigit) = [x, y, z] := List.takeWhile_eq_self_iff.mpr hall
  refine ⟨by rw [List.length_append, hlen]; rfl, ?_, ?_⟩
  · rw [show "dd:dd:dd.ddd".toList = "dd:dd:dd".toList ++ ['.', 'd', 'd', 'd'] by decide,
      fits_append hlen, hbase]
    simp only [List.forall_mem_cons] at hall
    obtain ⟨hx, hy, hz, -⟩ := hall
    simp [fits, hx, hy, hz]
  · have hagain : fits "dd:dd:dd".toList (s.take 8 ++ ['.', x, y, z]) = true := by
      have h := fits_append (p := "dd:dd:dd".toList) (q := []) (b := ['.', x, y, z]) hlen
      rw [List.append_nil, hbase] at h
      exact h
    have h₀ := htake 0 (by decide)
    rw [List.drop_zero, List.drop_zero] at h₀
    rw [normalizeTime, h₀, htake 3 (by decide), htake 6 (by decide),
      if_pos ⟨hagain, hfits.2⟩, List.drop_left' hlen, List.take_left' hlen]
    dsimp only
    rw [if_pos (Or.inl rfl), hwhile]
    rfl

theorem trim_eq_self {s : List Char} (hhead : ∀ c ∈ s.head?, isWhitespace c = false)
    (hlast : ∀ c ∈ s.getLast?, isWhitespace c = false) : trim s = s := by
  have hstart : ∀ {l : List Char}, (∀ c ∈ l.head?, isWhitespace c = false) → trimStart l = l := by
    intro l hl
    cases l with
    | nil => rfl
    | cons c l =>
        rw [trimStart, List.dropWhile_cons_of_neg]
        rw [hl c rfl]
        exact Bool.false_ne_true
  rw [trim, hstart hhead, hstart, List.reverse_reverse]
  rwa [List.head?_reverse]

theorem isWhitespace_of_isDigit {c : Char} (hc : c.isDigit = true) : isWhitespace c = false := by
  rw [Char.isDigit, Bool.and_eq_true, decide_eq_true_eq, decide_eq_true_eq] at hc
  have hlo : 48 ≤ c.toNat := UInt32.le_iff_toNat_le.mp hc.1
  have hhi : c.toNat ≤ 57 := UInt32.le_iff_toNat_le.mp hc.2
  simp only [isWhitespace, Bool.or_eq_false_iff, Bool.and_eq_false_iff, decide_eq_false_iff_not,
    beq_eq_false_iff_ne]
  omega

/-- A time without a date is found again. -/
theorem normalizeTimestamp_time {s time : List Char} (h : normalizeTime s = some time) :
    normalizeTimestamp time = time := by
  obtain ⟨hlen, hfits, hagain⟩ := normalizeTime_spec h
  have hcanonical : ¬isCanonical time = true := by
    rw [isCanonical, hlen, Bool.and_eq_true]
    exact fun h => absurd h.1 (by decide)
  have hdate : ¬fits "dddd-dd-dd".toList time = true := by
    intro hdate
    obtain ⟨c, hc, hdigit⟩ := fits_getElem? (i := 2) (q := 'd') hdate (by decide)
    obtain ⟨d, hd, hcolon⟩ := fits_getElem? (i := 2) (q := ':') hfits (by decide)
    rw [hc, Option.some.injEq] at hd
    rw [← hd, if_neg (by decide), beq_iff_eq] at hcolon
    rw [hcolon, if_pos rfl] at hdigit
    cases hdigit
  have htrim : trim time = time := by
    obtain ⟨c, hc, hfirst⟩ := fits_getElem? (i := 0) (q := 'd') hfits (by decide)
    obtain ⟨d, hd, hlast⟩ := fits_getElem? (i := 11) (q := 'd') hfits (by decide)
    rw [if_pos rfl] at hfirst hlast
    apply trim_eq_self
    · intro b hb
      rw [List.head?_eq_getElem?, hc] at hb
      obtain rfl := Option.mem_some.mp hb
      exact isWhitespace_of_isDigit hfirst
    · intro b hb
      rw [List.getLast?_eq_getElem?, hlen, hd] at hb
      obtain rfl := Option.mem_some.mp hb
      exact isWhitespace_of_isDigit hlast
  rw [normalizeTimestamp, if_neg hcanonical]
  dsimp only
  rw [htrim, if_neg fun h => hdate h.1, hagain]
  rfl

theorem isCanonical_date {t time : List Char} (hdate : fits "dddd-dd-dd".toList t = true)
    {s : List Char} (h : normalizeTime s = some time) :
    isCanonical (t.take 10 ++ 'T' :: (time ++ ['Z'])) = true := by
  obtain ⟨hlen, hfits, -⟩ := normalizeTime_spec h
  have hten : (t.take 10).length = 10 := by
    have hle := fits_length hdate
    rw [List.length_take]
    exact Nat.min_eq_left hle
  have hbase : fits "dddd-dd-dd".toList (t.take 10) = true := by
    rw [← hdate]
    exact fits_take _ t
  have htime := fits_append (p := "dd:dd:dd.ddd".toList) (q := ['Z']) (b := ['Z']) hlen
  rw [isCanonical, Bool.and_eq_true, beq_iff_eq]
  refine ⟨by simp [hten, hlen], ?_⟩
  rw [show "dddd-dd-ddTdd:dd:dd.dddZ".toList =
      "dddd-dd-dd".toList ++ 'T' :: ("dd:dd:dd.ddd".toList ++ ['Z']) by decide,
    fits_append hten, hbase, fits, htime, hfits]
  rfl

/-- What is put together has a canonical form, or a time of its own. -/
theorem normalizeTimestamp_or {dated time : Option (List Char)}
    (hdated : ∀ r ∈ dated, isCanonical r = true) {t : List Char} (htime : time = normalizeTime t)
    {ts : List Char} (h : normalizeTimestamp ts = (dated.or time).getD ts) :
    normalizeTimestamp (normalizeTimestamp ts) = normalizeTimestamp ts := by
  cases dated with
  | some r =>
      rw [h]
      exact if_pos (hdated r rfl)
  | none =>
      rw [Option.none_or] at h
      cases time with
      | some time =>
          rw [h]
          exact normalizeTimestamp_time htime.symm
      | none =>
          rw [Option.getD_none] at h
          rw [h, h]

/-- Normalising twice is normalising once. -/
theorem normalizeTimestamp_idem (ts : List Char) :
    normalizeTimestamp (normalizeTimestamp ts) = normalizeTimestamp ts := by
  by_cases hcanonical : isCanonical ts = true
  · have h : normalizeTimestamp ts = ts := if_pos hcanonical
    rw [h, h]
  · have hform := normalizeTimestamp.eq_def ts
    rw [if_neg hcanonical] at hform
    refine normalizeTimestamp_or ?_ rfl hform
    intro r hr
    split_ifs at hr with hdate
    · obtain ⟨time, htime, rfl⟩ := Option.map_eq_some_iff.mp hr
      exact isCanonical_date hdate.1 htime
    · cases hr

end Canboat
