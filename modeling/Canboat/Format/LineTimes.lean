import Canboat.Format.Instant
import Canboat.Format.LineWriters

/-!
# The time of a line

What a parser's timestamp is normalised to, and what `time_of_day` took for a time.
-/

namespace Canboat

open Checked

/-! ## Times of day -/

/-- `HH:MM:SS.mmm`, whatever its numbers are. -/
def IsTime (t : List Char) : Prop := t.length = 12 ∧ fits "dd:dd:dd.ddd".toList t = true

/-- An hour, a minute and a second. -/
def TimeInRange (t : List Char) : Prop :=
  digitsValue (t.take 2) < 24 ∧ digitsValue ((t.drop 3).take 2) < 60 ∧
    digitsValue ((t.drop 6).take 2) < 60

instance (t : List Char) : Decidable (IsTime t) := inferInstanceAs (Decidable (_ ∧ _))

instance (t : List Char) : Decidable (TimeInRange t) := inferInstanceAs (Decidable (_ ∧ _ ∧ _))

/-- The time of day that a normalised timestamp gives; midnight where there is none. -/
def givenTime (ts : Option (List Char)) : List Char :=
  match ts with
  | none => midnight
  | some raw =>
      let n := normalizeTimestamp raw
      if isCanonical n then (n.drop 11).take 12
      else if normalizeTime n = some n then n
      else midnight

/-- The timestamp is normalised to the time, alone or behind a date. -/
def NormalisesTo (p time : List Char) : Prop :=
  normalizeTimestamp p = time ∨
    isCanonical (normalizeTimestamp p) = true ∧ ((normalizeTimestamp p).drop 11).take 12 = time

/-- The time of a timestamp is in range, or it is midnight for want of a time: what is not
recognised must not look like a time by its length and one byte, unless midnight is read there. -/
def TimeHeld (readsMidnight : List Char → Prop) (ts : Option (List Char)) : Prop :=
  ∀ raw ∈ ts,
    if isCanonical (normalizeTimestamp raw) then
      TimeInRange (((normalizeTimestamp raw).drop 11).take 12)
    else
      normalizeTime (normalizeTimestamp raw) = some (normalizeTimestamp raw) ∨
        (byteLen raw = 24 → (utf8Bytes raw)[10]? = some 0x54 →
          ∃ w, sliceText raw 11 23 = .ok w ∧ readsMidnight w) ∧
        (byteLen raw = 12 → (utf8Bytes raw)[2]? = some 0x3a → readsMidnight raw)

theorem IsTime.form {t : List Char} (h : IsTime t) :
    ∃ a b c d e f x y z, t = [a, b, ':', c, d, ':', e, f, '.', x, y, z] ∧
      ∀ u ∈ [a, b, c, d, e, f, x, y, z], u.isDigit = true := by
  obtain ⟨hlen, hfits⟩ := h
  rcases t with _ | ⟨a, _ | ⟨b, _ | ⟨k, _ | ⟨c, _ | ⟨d, _ | ⟨l, _ | ⟨e, _ | ⟨f, _ | ⟨p, t⟩⟩⟩⟩⟩⟩⟩⟩⟩
  case cons.cons.cons.cons.cons.cons.cons.cons.cons =>
    simp only [List.length_cons, Nat.reduceEqDiff] at hlen
    obtain ⟨x, y, z, rfl⟩ := List.length_eq_three.mp hlen
    simp [fits] at hfits
    obtain ⟨ha, hb, rfl, hc, hd, rfl, he, hf, rfl, hx, hy, hz⟩ := hfits
    exact ⟨a, b, c, d, e, f, x, y, z, rfl, by simp [ha, hb, hc, hd, he, hf, hx, hy, hz]⟩
  all_goals exact absurd hlen (by simp)

theorem isTime_midnight : IsTime midnight ∧ TimeInRange midnight := by decide

/-- A time whose fraction stands behind a point or a comma. -/
theorem normalizeTime_behind {t : List Char} (h : IsTime t) {sep : Char} (hsep : sep = '.' ∨ sep = ',') :
    normalizeTime (t.take 8 ++ sep :: t.drop 9) = if TimeInRange t then some t else none := by
  obtain ⟨a, b, c, d, e, f, x, y, z, rfl, hdigits⟩ := h.form
  simp only [List.forall_mem_cons] at hdigits
  obtain ⟨ha, hb, hc, hd, he, hf, hx, hy, hz, -⟩ := hdigits
  have hfits : fits "dd:dd:dd".toList [a, b, ':', c, d, ':', e, f, sep, x, y, z] = true := by
    simp [fits, ha, hb, hc, hd, he, hf]
  have hwhile : [x, y, z].takeWhile (·.isDigit) = [x, y, z] := by simp [hx, hy, hz]
  show normalizeTime [a, b, ':', c, d, ':', e, f, sep, x, y, z] = _
  rw [normalizeTime]
  by_cases hrange : TimeInRange [a, b, ':', c, d, ':', e, f, '.', x, y, z]
  · rw [if_pos ⟨hfits, hrange⟩, if_pos hrange]
    show (if sep = '.' ∨ sep = ',' then _ else _) = _
    rw [if_pos hsep, hwhile]
    rfl
  · rw [if_neg fun h => hrange h.2, if_neg hrange]

theorem IsTime.eq_behind {t : List Char} (h : IsTime t) : t.take 8 ++ '.' :: t.drop 9 = t := by
  obtain ⟨a, b, c, d, e, f, x, y, z, rfl, -⟩ := h.form
  rfl

/-- A time in full is normalised to itself, or is none. -/
theorem IsTime.normalizeTime_eq {t : List Char} (h : IsTime t) :
    normalizeTime t = if TimeInRange t then some t else none := by
  have hbehind := normalizeTime_behind h (Or.inl rfl)
  rwa [h.eq_behind] at hbehind

theorem isTime_of_normalizeTime {s t : List Char} (h : normalizeTime s = some t) :
    IsTime t ∧ TimeInRange t := by
  obtain ⟨hlen, hfits, hagain⟩ := normalizeTime_spec h
  have htime : IsTime t := ⟨hlen, hfits⟩
  rw [htime.normalizeTime_eq] at hagain
  split_ifs at hagain with hrange
  exact ⟨htime, hrange⟩

theorem isTime_of_isCanonical {n : List Char} (h : isCanonical n = true) :
    IsTime ((n.drop 11).take 12) := by
  rw [isCanonical, Bool.and_eq_true, beq_iff_eq] at h
  obtain ⟨hlen, hfits⟩ := h
  have hdrop := fits_drop hfits 11
  rw [show "dddd-dd-ddTdd:dd:dd.dddZ".toList.drop 11 = "dd:dd:dd.ddd".toList ++ ['Z'] by decide,
    ← List.take_append_drop 12 (n.drop 11),
    fits_append (by simp [hlen]), Bool.and_eq_true] at hdrop
  exact ⟨by simp [hlen], hdrop.1⟩

theorem isTime_givenTime (ts : Option (List Char)) : IsTime (givenTime ts) := by
  cases ts with
  | none => exact isTime_midnight.1
  | some raw =>
      rw [givenTime]
      split_ifs with hcanonical htime
      · exact isTime_of_isCanonical hcanonical
      · exact (isTime_of_normalizeTime htime).1
      · exact isTime_midnight.1

/-! ## What a timestamp is normalised to -/

theorem trim_eq_self_of_tokens {s : List Char} (h : ∀ c ∈ s, isWhitespace c = false) : trim s = s :=
  trim_eq_self (fun c hc => h c (List.mem_of_head? hc)) fun c hc => h c (List.mem_of_getLast? hc)

/-- Text without a date and without a time stays what it is, which is no time. -/
theorem not_normalisesTo {p t : List Char} (htrim : trim p = p)
    (hdate : ¬fits "dddd-dd-dd".toList p = true) (htime : ¬fits "dd:dd:dd".toList p = true)
    (ht : IsTime t) : ¬NormalisesTo p t := by
  have hcanonical : ¬isCanonical p = true := by
    intro h
    rw [isCanonical, Bool.and_eq_true, beq_iff_eq] at h
    apply hdate
    have hfits := h.2
    rw [show "dddd-dd-ddTdd:dd:dd.dddZ".toList = "dddd-dd-dd".toList ++ "Tdd:dd:dd.dddZ".toList by
      decide, ← List.take_append_drop 10 p, fits_append (by simp [h.1]), Bool.and_eq_true] at hfits
    rw [← fits_take]
    exact hfits.1
  have hnormal : normalizeTimestamp p = p := by
    rw [normalizeTimestamp, if_neg hcanonical]
    dsimp only
    rw [htrim, if_neg fun h => hdate h.1, normalizeTime, if_neg fun h => htime h.1]
    rfl
  rw [NormalisesTo, hnormal]
  rintro (rfl | ⟨h, -⟩)
  · obtain ⟨a, b, c, d, e, f, x, y, z, rfl, hdigits⟩ := ht.form
    apply htime
    simp only [List.forall_mem_cons] at hdigits
    simp [fits, hdigits]
  · exact hcanonical h

/-- A text with a date is none without. -/
theorem undated {date t : List Char} {sep : Char} (hdate : fits "dddd-dd-dd".toList date = true) :
    ¬fits "dd:dd:dd".toList (date ++ sep :: t) = true := by
  have hdated : fits "dddd-dd-dd".toList (date ++ sep :: t) = true := fits_append_right hdate _
  intro h
  obtain ⟨c, hc, hdigit⟩ := fits_getElem? (i := 2) (q := 'd') hdated (by decide)
  obtain ⟨d, hd, hcolon⟩ := fits_getElem? (i := 2) (q := ':') h (by decide)
  rw [hc, Option.some.injEq] at hd
  rw [← hd, if_neg (by decide), beq_iff_eq] at hcolon
  rw [hcolon, if_pos rfl] at hdigit
  cases hdigit

theorem not_isCanonical_dated {date t : List Char} {sep : Char} (hlen : date.length = 10)
    (hshort : t.length ≤ 12) : ¬isCanonical (date ++ sep :: t) = true := by
  rw [isCanonical, Bool.and_eq_true, beq_iff_eq, List.length_append, List.length_cons]
  omega

theorem normalizeTimestamp_dated {date t : List Char} {sep : Char}
    (hdate : fits "dddd-dd-dd".toList date = true) (hlen : date.length = 10) (ht : IsToken t)
    (hshort : t.length ≤ 12) (hsep : sep = 'T' ∨ sep = '-' ∨ sep = ' ') :
    normalizeTimestamp (date ++ sep :: t) =
      ((normalizeTime t).map fun x => date ++ 'T' :: (x ++ ['Z'])).getD (date ++ sep :: t) := by
  have hdated : fits "dddd-dd-dd".toList (date ++ sep :: t) = true := fits_append_right hdate _
  have htrim : trim (date ++ sep :: t) = date ++ sep :: t := by
    apply trim_eq_self
    · intro c hc
      obtain ⟨d, hd, hdigit⟩ := fits_getElem? (i := 0) (q := 'd') hdated (by decide)
      rw [List.head?_eq_getElem?, hd] at hc
      obtain rfl := Option.mem_some.mp hc
      exact isWhitespace_of_isDigit (by rwa [if_pos rfl] at hdigit)
    · intro c hc
      rw [List.append_cons, List.getLast?_append_of_ne_nil _ ht.1] at hc
      exact ht.2 c (List.mem_of_getLast? hc)
  have hplace : (date ++ sep :: t)[10]? = some sep := by
    rw [List.getElem?_append_right hlen.le, hlen]
    rfl
  have hrest : (date ++ sep :: t).drop 11 = t ∧ (date ++ sep :: t).take 10 = date := by
    constructor
    · rw [List.append_cons]
      exact List.drop_left' (by rw [List.length_append, hlen]; rfl)
    · exact List.take_left' hlen
  have hundated : normalizeTime (date ++ sep :: t) = none := by
    rw [normalizeTime, if_neg fun h => undated hdate h.1]
  rw [normalizeTimestamp, if_neg (not_isCanonical_dated hlen hshort)]
  dsimp only
  rw [htrim, hplace, if_pos ⟨hdated, by simpa using hsep⟩, hrest.1, hrest.2, hundated, Option.or_none]

/-- A text with a date is normalised to the time behind the date. -/
theorem normalisesTo_dated {date t time : List Char} (hdate : fits "dddd-dd-dd".toList date = true)
    (hlen : date.length = 10) (ht : IsToken t) (hshort : t.length ≤ 12) (htime : IsTime time) :
    NormalisesTo (date ++ 'T' :: t) time ↔ normalizeTime t = some time := by
  have htimeless : ¬fits "dd:dd:dd".toList (date ++ 'T' :: t) = true := undated hdate
  have hcanonical : ¬isCanonical (date ++ 'T' :: t) = true := not_isCanonical_dated hlen hshort
  have hnormal := normalizeTimestamp_dated hdate hlen ht hshort (Or.inl rfl)
  rw [NormalisesTo, hnormal]
  cases hfound : normalizeTime t with
  | none =>
      refine iff_of_false ?_ nofun
      rintro (h | ⟨h, -⟩)
      · apply htimeless
        obtain ⟨a, b, c, d, e, f, x, y, z, rfl, hdigits⟩ := htime.form
        simp only [List.forall_mem_cons] at hdigits
        rw [show date ++ 'T' :: t = _ from h]
        simp [fits, hdigits]
      · exact hcanonical h
  | some x =>
      have hx := (isTime_of_normalizeTime hfound).1
      have hslice : ((date ++ 'T' :: (x ++ ['Z'])).drop 11).take 12 = x := by
        rw [List.append_cons, List.drop_left' (by rw [List.length_append, hlen]; rfl)]
        exact List.take_left' hx.1
      rw [Option.map_some, Option.getD_some, Option.some.injEq, hslice]
      constructor
      · rintro (h | ⟨-, h⟩)
        · have hlength := congrArg List.length h
          rw [htime.1, List.length_append, List.length_cons, hlen, List.length_append, hx.1] at hlength
          exact absurd hlength (by decide)
        · exact h
      · intro h
        refine .inr ⟨?_, h⟩
        have hcanonical := isCanonical_date hdate hfound
        rwa [List.take_of_length_le hlen.le] at hcanonical

/-- A text with a comma and no date is normalised to a time, or it is none. -/
theorem normalisesTo_comma {p time : List Char} (hp : ∀ c ∈ p, isWhitespace c = false)
    (hcolon : p[2]? = some ':') (hcomma : p[8]? = some ',') (htime : IsTime time) :
    NormalisesTo p time ↔ normalizeTime p = some time := by
  have hdate : ¬fits "dddd-dd-dd".toList p = true := by
    intro h
    obtain ⟨c, hc, hdigit⟩ := fits_getElem? (i := 2) (q := 'd') h (by decide)
    rw [hcolon, Option.some.injEq] at hc
    rw [← hc, if_pos rfl] at hdigit
    cases hdigit
  have hcanonical : ¬isCanonical p = true := by
    intro h
    obtain ⟨-, hfits⟩ := Bool.and_eq_true_iff.mp h
    obtain ⟨c, hc, hdigit⟩ := fits_getElem? (i := 2) (q := 'd') hfits (by decide)
    rw [hcolon, Option.some.injEq] at hc
    rw [← hc, if_pos rfl] at hdigit
    cases hdigit
  have hnormal : normalizeTimestamp p = (normalizeTime p).getD p := by
    rw [normalizeTimestamp, if_neg hcanonical]
    dsimp only
    rw [trim_eq_self_of_tokens hp, if_neg fun h => hdate h.1, Option.none_or]
  rw [NormalisesTo, hnormal]
  cases hfound : normalizeTime p with
  | none =>
      refine iff_of_false ?_ (by rintro ⟨⟩)
      rintro (h | ⟨h, -⟩)
      · obtain ⟨a, b, c, d, e, f, x, y, z, rfl, -⟩ := htime.form
        rw [show p = _ from h] at hcomma
        cases hcomma
      · exact hcanonical h
  | some x =>
      rw [Option.getD_some, Option.some.injEq]
      refine ⟨?_, .inl⟩
      rintro (h | ⟨h, -⟩)
      · exact h
      · rw [isCanonical, Bool.and_eq_true, beq_iff_eq, (isTime_of_normalizeTime hfound).1.1] at h
        exact absurd h.1 (by decide)

end Canboat
