import Canboat.Format.Days
import Canboat.Format.PlainWriter
import Mathlib.Data.List.Induction

/-!
# Timestamps as instants

Milliseconds since 1970-01-01 out of a captured timestamp, and what becomes of them when the
timestamp is rewritten.
-/

namespace Canboat

/-- `parse::<i64>`, as an integer. -/
def parseI64Int (s : List Char) : Option ℤ :=
  parseSigned (-9223372036854775808) 9223372036854775807 s

/-- The number that is written in the bytes between two positions. -/
def numberBetween (b : List UInt8) (i j : ℕ) : Option ℤ :=
  (fromUtf8 ((b.take j).drop i)).bind parseI64Int

/-- The three bytes behind the point; others than numbers are none. -/
def fractionRead (b : List UInt8) : ℤ :=
  if 23 ≤ b.length ∧ (b[19]? = some 0x2e ∨ b[19]? = some 0x2c) then
    (numberBetween b 20 23).getD 0
  else 0

/-- Of a timestamp with a date. -/
def toUnixMs (ts : List Char) : Option ℤ :=
  let b := utf8Bytes ts
  if b.length < 19 then none
  else do
    let y ← numberBetween b 0 4
    let mo ← numberBetween b 5 7
    let d ← numberBetween b 8 10
    let h ← numberBetween b 11 13
    let mi ← numberBetween b 14 16
    let s ← numberBetween b 17 19
    if b[4]? ≠ some 0x2d ∨ b[7]? ≠ some 0x2d ∨
        ¬(b[10]? = some 0x54 ∨ b[10]? = some 0x2d ∨ b[10]? = some 0x20) ∨
        b[13]? ≠ some 0x3a ∨ b[16]? ≠ some 0x3a then none
    else
      let days ← daysSinceEpoch y mo d
      pure ((days * 86400 + h * 3600 + mi * 60 + s) * 1000 + fractionRead b)

example : toUnixMs "1970-01-01-00:00:01.250Z".toList = some 1250 ∧
    toUnixMs "1970-01-01-00:00:01,2".toList = some 1000 ∧ toUnixMs "17:33:21.107".toList = none := by
  decide

section

open Plain

theorem digitsValue_lt {s : List Char} (hs : ∀ c ∈ s, c.isDigit = true) :
    digitsValue s < 10 ^ s.length := by
  induction s using List.reverseRecOn with
  | nil => decide
  | append_singleton s c ih =>
      rw [List.forall_mem_append, List.forall_mem_singleton] at hs
      have hlt := ih hs.1
      have hc := toNat_of_isDigit hs.2
      rw [digitsValue, List.foldl_append, List.length_append, List.length_singleton, pow_succ]
      show 10 * digitsValue s + (c.toNat - 48) < _
      omega

/-- Digits without a sign are a number, where 64 bits hold it. -/
theorem parseI64Int_digits {s : List Char} (hne : s ≠ []) (hs : ∀ c ∈ s, c.isDigit = true)
    (hlen : s.length ≤ 18) : parseI64Int s = some (digitsValue s : ℤ) := by
  have hsign : splitSign s = (false, s) := by
    rw [splitSign]
    · rintro t rfl
      cases hs '-' List.mem_cons_self
    · rintro t rfl
      cases hs '+' List.mem_cons_self
  have hdigits : parseDigits s = some (digitsValue s) := by
    rw [parseDigits, if_pos ⟨hne, List.all_eq_true.mpr hs⟩]
    rfl
  have hlt := digitsValue_lt hs
  have hpow : 10 ^ s.length ≤ 10 ^ 18 := Nat.pow_le_pow_right (by decide) hlen
  rw [parseI64Int, parseSigned, hsign, hdigits, Option.map_some, if_neg Bool.false_ne_true,
    Option.filter_some, if_pos]
  rw [decide_eq_true_eq]
  omega

/-- The text up to a position is as many bytes, where all of it is ASCII. -/
theorem utf8Bytes_take {s : List Char} {n : ℕ} (hs : ∀ c ∈ s.take n, Ascii c) (hn : n ≤ s.length)
    {m : ℕ} (hm : m ≤ n) : (utf8Bytes s).take m = utf8Bytes (s.take m) := by
  have htake : ∀ c ∈ s.take m, Ascii c := fun c hc => hs c (List.take_subset_take_left s hm hc)
  have hlen : (utf8Bytes (s.take m)).length = m := by
    rw [utf8Bytes_ascii htake, List.length_map, List.length_take, Nat.min_eq_left (by omega)]
  conv_lhs => rw [← List.take_append_drop m s, utf8Bytes_append]
  exact List.take_left' hlen

theorem numberBetween_digits {s : List Char} {n : ℕ} (hs : ∀ c ∈ s.take n, Ascii c)
    (hn : n ≤ s.length) {i k : ℕ} (hik : i + k ≤ n) (hk : 0 < k) (hsmall : k ≤ 18)
    (hdigits : ∀ c ∈ (s.drop i).take k, c.isDigit = true) :
    numberBetween (utf8Bytes s) i (i + k) = some (digitsValue ((s.drop i).take k) : ℤ) := by
  have htake : ∀ c ∈ s.take (i + k), Ascii c := fun c hc =>
    hs c (List.take_subset_take_left s hik hc)
  have hlen : ((s.drop i).take k).length = k := by
    rw [List.length_take, List.length_drop, Nat.min_eq_left (by omega)]
  have hsplit : (utf8Bytes (s.take (i + k))).drop i = utf8Bytes ((s.drop i).take k) := by
    rw [utf8Bytes_ascii htake, ← List.map_drop, List.drop_take, Nat.add_sub_cancel_left,
      utf8Bytes_ascii fun c hc => ascii_of_isDigit (hdigits c hc)]
  rw [numberBetween, utf8Bytes_take hs hn hik, hsplit,
    fromUtf8_ascii fun c hc => ascii_of_isDigit (hdigits c hc), Option.bind_some]
  refine parseI64Int_digits ?_ hdigits (hlen.le.trans hsmall)
  rw [← List.length_pos_iff, hlen]
  exact hk

/-- A template of digits has digits. -/
theorem digits_of_fits (pre : List Char) (n : ℕ) (post : List Char) {s : List Char}
    (h : fits (pre ++ (List.replicate n 'd' ++ post)) s = true) :
    ∀ c ∈ (s.drop pre.length).take n, c.isDigit = true := by
  intro c hc
  obtain ⟨i, hi, rfl⟩ := List.getElem_of_mem hc
  rw [List.length_take, List.length_drop] at hi
  have hget : (pre ++ (List.replicate n 'd' ++ post))[pre.length + i]? = some 'd' := by
    rw [List.getElem?_append_right (Nat.le_add_right _ _), Nat.add_sub_cancel_left,
      List.getElem?_append_left (by rw [List.length_replicate]; omega),
      List.getElem?_replicate_of_lt (by omega)]
  obtain ⟨c, hc, hdigit⟩ := fits_getElem? h hget
  rw [if_pos rfl] at hdigit
  rw [List.getElem_take, List.getElem_drop]
  rw [List.getElem?_eq_some_iff] at hc
  obtain ⟨hlt, rfl⟩ := hc
  exact hdigit

theorem ascii_of_fits {p s : List Char} (hp : ∀ c ∈ p, Ascii c) (h : fits p s = true) :
    ∀ c ∈ s.take p.length, Ascii c := by
  induction p generalizing s with
  | nil => exact nofun
  | cons q p ih =>
      cases s with
      | nil => cases h
      | cons c s =>
          rw [fits, Bool.and_eq_true] at h
          rw [List.forall_mem_cons] at hp
          rw [List.length_cons, List.take_succ_cons, List.forall_mem_cons]
          refine ⟨?_, ih hp.2 h.2⟩
          have hc := h.1
          split_ifs at hc with hd
          · exact ascii_of_isDigit hc
          · rw [beq_iff_eq] at hc
            rw [hc]
            exact hp.1

/-- A date and a time of digits, whatever comes behind. -/
structure Stamped (s : List Char) : Prop where
  date : fits "dddd-dd-dd".toList s = true
  separator : s[10]? = some 'T' ∨ s[10]? = some '-' ∨ s[10]? = some ' '
  time : fits "dd:dd:dd".toList (s.drop 11) = true

def writtenDate (s : List Char) : Date :=
  ⟨digitsValue (s.take 4), digitsValue ((s.drop 5).take 2), digitsValue ((s.drop 8).take 2)⟩

def writtenSeconds (s : List Char) : ℕ :=
  digitsValue ((s.drop 11).take 2) * 3600 + digitsValue ((s.drop 14).take 2) * 60 +
    digitsValue ((s.drop 17).take 2)

/-- The fraction behind the seconds, cut or filled to three digits. -/
def writtenMillis (s : List Char) : ℕ :=
  match s.drop 19 with
  | [] => 0
  | c :: fraction =>
      if c = '.' ∨ c = ',' then
        digitsValue ((fraction.takeWhile (·.isDigit) ++ ['0', '0', '0']).take 3)
      else 0

/-- The instant that a timestamp denotes. -/
def writtenMs (s : List Char) : ℤ :=
  ((writtenDate s).dayNumber * 86400 + writtenSeconds s) * 1000 + writtenMillis s

namespace Stamped

variable {s : List Char}

theorem length (h : Stamped s) : 19 ≤ s.length := by
  have hlen := fits_length h.time
  rw [List.length_drop] at hlen
  have height : "dd:dd:dd".toList.length = 8 := by decide
  omega

theorem ascii (h : Stamped s) : ∀ c ∈ s.take 19, Ascii c := by
  have hsplit : s.take 19 = s.take 10 ++ ((s.drop 10).take 1 ++ (s.drop 11).take 8) := by
    rw [show 19 = 10 + (1 + 8) from rfl, List.take_add, List.take_add, List.drop_drop]
  have hdate : ∀ c ∈ s.take 10, Ascii c :=
    ascii_of_fits (p := "dddd-dd-dd".toList) (by simp [Ascii]) h.date
  have htime : ∀ c ∈ (s.drop 11).take 8, Ascii c :=
    ascii_of_fits (p := "dd:dd:dd".toList) (by simp [Ascii]) h.time
  have hbetween : ∀ c ∈ (s.drop 10).take 1, Ascii c := by
    intro c hc
    have hlen := h.length
    have hget : s[10]? = some c := by
      rw [List.drop_eq_getElem_cons (by omega), List.take_succ_cons, List.take_zero,
        List.mem_singleton] at hc
      rw [hc, List.getElem?_eq_getElem]
    have hsep := h.separator
    simp only [hget, Option.some.injEq] at hsep
    rcases hsep with rfl | rfl | rfl
    · exact show 'T'.toNat < 128 by decide
    · exact show '-'.toNat < 128 by decide
    · exact show ' '.toNat < 128 by decide
  rw [hsplit, List.forall_mem_append, List.forall_mem_append]
  exact ⟨hdate, hbetween, htime⟩

/-- A byte of it is its character. -/
theorem getElem?_bytes (h : Stamped s) {i : ℕ} (hi : i < 19) :
    (utf8Bytes s)[i]? = s[i]?.map fun c => UInt8.ofNat c.toNat := by
  have htake := utf8Bytes_take h.ascii h.length (Nat.le_refl 19)
  rw [utf8Bytes_ascii h.ascii] at htake
  rw [← List.getElem?_take_of_lt hi, htake, List.getElem?_map, List.getElem?_take_of_lt hi]

theorem number (h : Stamped s) {i k : ℕ} (hin : i + k ≤ 19) (hk : 0 < k) (hsmall : k ≤ 4)
    (hdigits : ∀ c ∈ (s.drop i).take k, c.isDigit = true) :
    numberBetween (utf8Bytes s) i (i + k) = some (digitsValue ((s.drop i).take k) : ℤ) :=
  numberBetween_digits h.ascii h.length hin hk (hsmall.trans (by decide)) hdigits

theorem toUnixMs_eq (h : Stamped s) :
    toUnixMs s = (daysSinceEpoch (writtenDate s).year (writtenDate s).month
      (writtenDate s).day).map fun days =>
        (days * 86400 + writtenSeconds s) * 1000 + fractionRead (utf8Bytes s) := by
  have hlen : ¬(utf8Bytes s).length < 19 := by
    have htake := congrArg List.length (utf8Bytes_take h.ascii h.length (Nat.le_refl 19))
    have hlength := h.length
    rw [utf8Bytes_ascii h.ascii, List.length_map, List.length_take, List.length_take] at htake
    omega
  have hyear := h.number (show 0 + 4 ≤ 19 by decide) (by decide) (by decide)
    (digits_of_fits [] 4 "-dd-dd".toList h.date)
  have hmonth := h.number (show 5 + 2 ≤ 19 by decide) (by decide) (by decide)
    (digits_of_fits "dddd-".toList 2 "-dd".toList h.date)
  have hday := h.number (show 8 + 2 ≤ 19 by decide) (by decide) (by decide)
    (digits_of_fits "dddd-dd-".toList 2 [] h.date)
  have hhours := digits_of_fits [] 2 ":dd:dd".toList h.time
  have hminutes := digits_of_fits "dd:".toList 2 ":dd".toList h.time
  have hseconds := digits_of_fits "dd:dd:".toList 2 [] h.time
  rw [List.drop_drop] at hhours hminutes hseconds
  have hhour := h.number (show 11 + 2 ≤ 19 by decide) (by decide) (by decide) hhours
  have hminute := h.number (show 14 + 2 ≤ 19 by decide) (by decide) (by decide) hminutes
  have hsecond := h.number (show 17 + 2 ≤ 19 by decide) (by decide) (by decide) hseconds
  have hmark : ∀ {i : ℕ} {c : Char}, i < 19 → s[i]? = some c →
      (utf8Bytes s)[i]? = some (UInt8.ofNat c.toNat) := by
    intro i c hi hc
    rw [h.getElem?_bytes hi, hc, Option.map_some]
  have hdash : ∀ {i : ℕ}, "dddd-dd-dd".toList[i]? = some '-' → i < 10 → s[i]? = some '-' := by
    intro i hi _
    obtain ⟨c, hc, hchar⟩ := fits_getElem? h.date hi
    rw [if_neg (by decide), beq_iff_eq] at hchar
    rw [hc, hchar]
  have hcolon : ∀ {i : ℕ}, "dd:dd:dd".toList[i]? = some ':' → s[11 + i]? = some ':' := by
    intro i hi
    obtain ⟨c, hc, hchar⟩ := fits_getElem? h.time hi
    rw [if_neg (by decide), beq_iff_eq] at hchar
    rw [List.getElem?_drop] at hc
    rw [hc, hchar]
  have h₄ := hmark (by decide) (hdash (i := 4) (by decide) (by decide))
  have h₇ := hmark (by decide) (hdash (i := 7) (by decide) (by decide))
  have h₁₃ := hmark (by decide) (hcolon (i := 2) (by decide))
  have h₁₆ := hmark (by decide) (hcolon (i := 5) (by decide))
  have h₁₀ : (utf8Bytes s)[10]? = some 0x54 ∨ (utf8Bytes s)[10]? = some 0x2d ∨
      (utf8Bytes s)[10]? = some 0x20 := by
    rcases h.separator with hsep | hsep | hsep
    · exact .inl (hmark (by decide) hsep)
    · exact .inr (.inl (hmark (by decide) hsep))
    · exact .inr (.inr (hmark (by decide) hsep))
  have hmarks : ¬((utf8Bytes s)[4]? ≠ some 0x2d ∨ (utf8Bytes s)[7]? ≠ some 0x2d ∨
      ¬((utf8Bytes s)[10]? = some 0x54 ∨ (utf8Bytes s)[10]? = some 0x2d ∨
        (utf8Bytes s)[10]? = some 0x20) ∨
      (utf8Bytes s)[13]? ≠ some 0x3a ∨ (utf8Bytes s)[16]? ≠ some 0x3a) := by
    rintro (hn | hn | hn | hn | hn)
    · exact hn h₄
    · exact hn h₇
    · exact hn h₁₀
    · exact hn h₁₃
    · exact hn h₁₆
  simp only [Nat.zero_add, List.drop_zero] at hyear
  rw [toUnixMs]
  rw [if_neg hlen, hyear, hmonth, hday, hhour, hminute, hsecond]
  simp only [Option.bind_eq_bind, Option.bind_some, if_neg hmarks]
  rw [writtenDate, writtenSeconds]
  cases daysSinceEpoch (digitsValue (s.take 4)) (digitsValue ((s.drop 5).take 2))
      (digitsValue ((s.drop 8).take 2)) with
  | none => rfl
  | some days =>
      simp only [Option.bind_some, Option.map_some, Option.pure_def, Option.some.injEq]
      push_cast
      omega

end Stamped

/-! ## Fractions of a second -/

/-- The digits behind the point. -/
def fractionDigits (s : List Char) : List Char := (s.drop 20).takeWhile (·.isDigit)

/-- A number with a sign behind the point, other than zero. -/
def SignedFraction (s : List Char) : Prop :=
  ∃ sign x y t, s.drop 20 = sign :: x :: y :: t ∧ (sign = '+' ∨ sign = '-') ∧
    x.isDigit = true ∧ y.isDigit = true ∧ digitsValue [x, y] ≠ 0

/-- The fraction is read from the text as it is meant: there is none, it has three digits or more,
or its fewer digits are zeros and no number with a sign stands in their place. -/
def PlainFraction (s : List Char) : Prop :=
  s[19]? = some '.' ∨ s[19]? = some ',' →
    3 ≤ (fractionDigits s).length ∨ digitsValue (fractionDigits s) = 0 ∧ ¬SignedFraction s

/-- What is read behind the point. -/
def behindPoint (f : List Char) : Option ℤ :=
  if 3 ≤ (utf8Bytes f).length then numberBetween (utf8Bytes f) 0 3 else none

/-- The fraction behind a time of ASCII. -/
theorem fractionRead_ascii {s : List Char} (hascii : ∀ c ∈ s.take 19, Ascii c)
    (hlength : 19 ≤ s.length) :
    fractionRead (utf8Bytes s) =
      if s[19]? = some '.' ∨ s[19]? = some ',' then (behindPoint (s.drop 20)).getD 0 else 0 := by
  have hbytes : utf8Bytes s = (s.take 19).map (fun c => UInt8.ofNat c.toNat) ++
      utf8Bytes (s.drop 19) := by
    rw [← utf8Bytes_ascii hascii, ← utf8Bytes_append, List.take_append_drop]
  have hlen : ((s.take 19).map fun c => UInt8.ofNat c.toNat).length = 19 := by
    rw [List.length_map, List.length_take, Nat.min_eq_left hlength]
  have hpoint : ∀ {p : Char}, Ascii p →
      ((utf8Bytes s)[19]? = some (UInt8.ofNat p.toNat) ↔ s[19]? = some p) := by
    intro p hp
    have hget : (utf8Bytes s)[19]? = (utf8Bytes (s.drop 19)).head? := by
      rw [hbytes, List.getElem?_append_right hlen.le, hlen, List.head?_eq_getElem?]
    have hchar : s[19]? = (s.drop 19).head? := by
      rw [List.head?_drop]
    rw [hget, hchar]
    cases s.drop 19 with
    | nil => exact iff_of_false nofun nofun
    | cons c t =>
        have hhead : (utf8Bytes (c :: t)).head? = (String.utf8EncodeChar c).head? :=
          List.head?_append_of_ne_nil _ String.utf8EncodeChar_ne_nil
        rw [hhead, List.head?_cons, Option.some.injEq]
        constructor
        · exact eq_of_utf8EncodeChar_head hp
        · rintro rfl
          rw [utf8EncodeChar_ascii hp, List.head?_cons]
  have hdot : (utf8Bytes s)[19]? = some 0x2e ↔ s[19]? = some '.' :=
    hpoint (show '.'.toNat < 128 by decide)
  have hcomma : (utf8Bytes s)[19]? = some 0x2c ↔ s[19]? = some ',' :=
    hpoint (show ','.toNat < 128 by decide)
  simp only [fractionRead, hdot, hcomma]
  by_cases hmark : s[19]? = some '.' ∨ s[19]? = some ','
  · -- behind the point come the bytes of the rest
    have hrest : (utf8Bytes s).drop 20 = utf8Bytes (s.drop 20) ∧
        (utf8Bytes s).length = 20 + (utf8Bytes (s.drop 20)).length := by
      obtain ⟨c, hc, hascii⟩ : ∃ c, s[19]? = some c ∧ Ascii c := by
        rcases hmark with hc | hc
        · exact ⟨'.', hc, show '.'.toNat < 128 by decide⟩
        · exact ⟨',', hc, show ','.toNat < 128 by decide⟩
      have hcons : s.drop 19 = c :: s.drop 20 := by
        obtain ⟨hlt, rfl⟩ := List.getElem?_eq_some_iff.mp hc
        exact List.drop_eq_getElem_cons hlt
      have hpointByte : utf8Bytes (c :: s.drop 20) =
          UInt8.ofNat c.toNat :: utf8Bytes (s.drop 20) := by
        rw [utf8Bytes, List.flatMap_cons, utf8EncodeChar_ascii hascii]
        rfl
      rw [hbytes, hcons, hpointByte]
      constructor
      · rw [List.append_cons, List.drop_left']
        rw [List.length_append, hlen]
        rfl
      · rw [List.length_append, hlen, List.length_cons]
        omega
    have hread : numberBetween (utf8Bytes s) 20 23 =
        numberBetween (utf8Bytes (s.drop 20)) 0 3 := by
      rw [numberBetween, numberBetween, List.drop_take, hrest.1, List.drop_zero]
    rw [if_pos hmark, behindPoint, hread, hrest.2]
    by_cases hthree : 3 ≤ (utf8Bytes (s.drop 20)).length
    · rw [if_pos hthree, if_pos ⟨by omega, hmark⟩]
    · rw [if_neg hthree, if_neg fun hn => hthree (by omega)]
      rfl
  · rw [if_neg hmark, if_neg fun hn => hmark hn.2]

theorem Stamped.fractionRead_eq {s : List Char} (h : Stamped s) :
    fractionRead (utf8Bytes s) =
      if s[19]? = some '.' ∨ s[19]? = some ',' then (behindPoint (s.drop 20)).getD 0 else 0 :=
  fractionRead_ascii h.ascii h.length

/-- What is a number is of ASCII. -/
theorem ascii_of_parseI64Int {s : List Char} {v : ℤ} (h : parseI64Int s = some v) :
    (∃ t, s = '-' :: t ∧ t ≠ [] ∧ (∀ c ∈ t, c.isDigit = true) ∧ v = -(digitsValue t : ℤ)) ∨
    (∃ t, s = '+' :: t ∧ t ≠ [] ∧ (∀ c ∈ t, c.isDigit = true) ∧ v = (digitsValue t : ℤ)) ∨
    s ≠ [] ∧ (∀ c ∈ s, c.isDigit = true) ∧ v = (digitsValue s : ℤ) := by
  have hdigits : ∀ {t : List Char} {n : ℕ}, parseDigits t = some n →
      t ≠ [] ∧ (∀ c ∈ t, c.isDigit = true) ∧ n = digitsValue t := by
    intro t n ht
    rw [parseDigits] at ht
    split_ifs at ht with hall
    exact ⟨hall.1, List.all_eq_true.mp hall.2, (Option.some.inj ht).symm⟩
  rw [parseI64Int, parseSigned, Option.filter_eq_some_iff, Option.map_eq_some_iff] at h
  obtain ⟨⟨n, hn, rfl⟩, -⟩ := h
  rw [splitSign.eq_def] at hn ⊢
  split at hn
  · obtain ⟨hne, hall, rfl⟩ := hdigits hn
    exact .inl ⟨_, rfl, hne, hall, rfl⟩
  · obtain ⟨hne, hall, rfl⟩ := hdigits hn
    exact .inr (.inl ⟨_, rfl, hne, hall, rfl⟩)
  · obtain ⟨hne, hall, rfl⟩ := hdigits hn
    exact .inr (.inr ⟨hne, hall, rfl⟩)

theorem parseI64Int_signed {t : List Char} (hne : t ≠ []) (ht : ∀ c ∈ t, c.isDigit = true)
    (hlen : t.length ≤ 18) :
    parseI64Int ('-' :: t) = some (-(digitsValue t : ℤ)) ∧
      parseI64Int ('+' :: t) = some (digitsValue t : ℤ) := by
  have hdigits : parseDigits t = some (digitsValue t) := by
    rw [parseDigits, if_pos ⟨hne, List.all_eq_true.mpr ht⟩]
    rfl
  have hlt := digitsValue_lt ht
  have hpow : 10 ^ t.length ≤ 10 ^ 18 := Nat.pow_le_pow_right (by decide) hlen
  constructor
  · show ((parseDigits t).map fun n : ℕ => -(n : ℤ)).filter _ = _
    rw [hdigits, Option.map_some, Option.filter_some, if_pos]
    rw [decide_eq_true_eq]
    omega
  · show ((parseDigits t).map fun n : ℕ => (n : ℤ)).filter _ = _
    rw [hdigits, Option.map_some, Option.filter_some, if_pos]
    rw [decide_eq_true_eq]
    omega

theorem behindPoint_cons {x y z : Char} (hascii : ∀ c ∈ [x, y, z], Ascii c) (t : List Char) :
    behindPoint (x :: y :: z :: t) = parseI64Int [x, y, z] := by
  have htake : ∀ c ∈ (x :: y :: z :: t).take 3, Ascii c := hascii
  have hbytes : utf8Bytes (x :: y :: z :: t) = utf8Bytes [x, y, z] ++ utf8Bytes t :=
    utf8Bytes_append [x, y, z] t
  have hlen : 3 ≤ (utf8Bytes (x :: y :: z :: t)).length := by
    rw [hbytes, utf8Bytes_ascii hascii, List.length_append]
    exact Nat.le_add_right _ _
  rw [behindPoint, if_pos hlen, numberBetween,
    utf8Bytes_take htake (Nat.le_add_left 3 _) (Nat.le_refl 3), List.drop_zero,
    fromUtf8_ascii htake]
  rfl

/-- A number behind the point is of three characters. -/
theorem three_of_behindPoint {f : List Char} {v : ℤ} (h : behindPoint f = some v) :
    ∃ x y z t, f = x :: y :: z :: t ∧ parseI64Int [x, y, z] = some v := by
  rw [behindPoint] at h
  split_ifs at h with hthree
  rw [numberBetween, List.drop_zero, Option.bind_eq_some_iff] at h
  obtain ⟨s, hs, hv⟩ := h
  have hbytes : utf8Bytes s = (utf8Bytes f).take 3 := by
    rw [fromUtf8] at hs
    split_ifs at hs with heq
    rw [← Option.some.inj hs]
    exact heq
  have hascii : ∀ c ∈ s, Ascii c := by
    rcases ascii_of_parseI64Int hv with ⟨t, rfl, -, ht, -⟩ | ⟨t, rfl, -, ht, -⟩ | ⟨-, ht, -⟩
    · rw [List.forall_mem_cons]
      exact ⟨show '-'.toNat < 128 by decide, fun c hc => ascii_of_isDigit (ht c hc)⟩
    · rw [List.forall_mem_cons]
      exact ⟨show '+'.toNat < 128 by decide, fun c hc => ascii_of_isDigit (ht c hc)⟩
    · exact fun c hc => ascii_of_isDigit (ht c hc)
  have hlen : s.length = 3 := by
    have hlength := congrArg List.length hbytes
    rw [utf8Bytes_ascii hascii, List.length_map, List.length_take,
      Nat.min_eq_left hthree] at hlength
    exact hlength
  obtain ⟨x, y, z, rfl⟩ := List.length_eq_three.mp hlen
  obtain ⟨t, ht⟩ : [x, y, z] <+: f := by
    apply prefix_of_utf8Bytes_prefix hascii
    rw [hbytes]
    exact List.take_prefix _ _
  exact ⟨x, y, z, t, ht.symm, hv⟩

/-- Three digits are read as they are. -/
theorem behindPoint_digits {f : List Char} (h : 3 ≤ (f.takeWhile (·.isDigit)).length) :
    behindPoint f = some (digitsValue ((f.takeWhile (·.isDigit)).take 3) : ℤ) := by
  have hall : ∀ c ∈ f.takeWhile (·.isDigit), c.isDigit = true := fun c hc =>
    List.mem_takeWhile_imp hc
  have hsplit := List.takeWhile_append_dropWhile (p := (·.isDigit)) (l := f)
  obtain ⟨x, y, z, t, hdigits⟩ : ∃ x y z t, f.takeWhile (·.isDigit) = x :: y :: z :: t := by
    rcases hl : f.takeWhile (·.isDigit) with _ | ⟨x, _ | ⟨y, _ | ⟨z, t⟩⟩⟩
    case cons.cons.cons => exact ⟨x, y, z, t, hl⟩
    all_goals
      rw [hl] at h
      exact absurd h (by simp)
  rw [hdigits] at hall hsplit ⊢
  have hthree : ∀ c ∈ [x, y, z], c.isDigit = true := fun c hc =>
    hall c (List.mem_append_left t hc)
  rw [← hsplit]
  show behindPoint (x :: y :: z :: (t ++ _)) = some (digitsValue [x, y, z] : ℤ)
  rw [behindPoint_cons fun c hc => ascii_of_isDigit (hthree c hc),
    parseI64Int_digits (List.cons_ne_nil _ _) hthree (by simp)]

/-- Fewer digits are read as zero, and so is what is no number with a sign. -/
theorem behindPoint_few {s : List Char} (h : (fractionDigits s).length < 3) :
    (behindPoint (s.drop 20)).getD 0 = 0 ↔ ¬SignedFraction s := by
  rw [fractionDigits] at h
  constructor
  · rintro hzero ⟨sign, x, y, t, hf, hsign, hx, hy, hne⟩
    have hdigits : ∀ c ∈ [x, y], c.isDigit = true := by
      simp [hx, hy]
    obtain ⟨hminus, hplus⟩ := parseI64Int_signed (List.cons_ne_nil _ _) hdigits (by simp)
    have hascii : ∀ c ∈ [sign, x, y], Ascii c := by
      rw [List.forall_mem_cons]
      refine ⟨?_, fun c hc => ascii_of_isDigit (hdigits c hc)⟩
      rcases hsign with rfl | rfl
      · exact show '+'.toNat < 128 by decide
      · exact show '-'.toNat < 128 by decide
    rw [hf, behindPoint_cons hascii] at hzero
    rcases hsign with rfl | rfl
    · rw [hplus, Option.getD_some] at hzero
      omega
    · rw [hminus, Option.getD_some] at hzero
      omega
  · intro hsigned
    cases hb : behindPoint (s.drop 20) with
    | none => rfl
    | some v =>
        obtain ⟨x, y, z, t, hf, hv⟩ := three_of_behindPoint hb
        have hsign : ∀ r u, [x, y, z] = r :: u → (r = '+' ∨ r = '-') →
            (∀ c ∈ u, c.isDigit = true) → digitsValue u = 0 := by
          rintro _ _ ⟨⟩ hr hu
          by_contra hne
          simp only [List.forall_mem_cons] at hu
          exact hsigned ⟨x, y, z, t, hf, hr, hu.1, hu.2.1, hne⟩
        rw [Option.getD_some]
        rcases ascii_of_parseI64Int hv with ⟨u, hu, -, hdigits, rfl⟩ | ⟨u, hu, -, hdigits, rfl⟩ |
          ⟨-, hdigits, -⟩
        · rw [hsign _ _ hu (.inr rfl) hdigits]
          rfl
        · rw [hsign _ _ hu (.inl rfl) hdigits]
          rfl
        · -- three digits are not fewer
          simp only [List.forall_mem_cons] at hdigits
          rw [hf, List.takeWhile_cons_of_pos hdigits.1, List.takeWhile_cons_of_pos hdigits.2.1,
            List.takeWhile_cons_of_pos hdigits.2.2.1] at h
          simp only [List.length_cons] at h
          omega

theorem writtenMillis_eq (s : List Char) :
    writtenMillis s = if s[19]? = some '.' ∨ s[19]? = some ',' then
      digitsValue ((fractionDigits s ++ ['0', '0', '0']).take 3) else 0 := by
  have hdrop : s.drop 20 = (s.drop 19).drop 1 := by
    rw [List.drop_drop]
  have hget : s[19]? = (s.drop 19).head? := by
    rw [List.head?_drop]
  rw [writtenMillis, fractionDigits, hdrop, hget]
  cases s.drop 19 with
  | nil => rfl
  | cons c f => simp only [List.head?_cons, Option.some.injEq, List.drop_succ_cons, List.drop_zero]

/-- Digits filled up with zeros are zero where they were. -/
theorem digitsValue_filled {ds : List Char} (h : ds.length < 3) :
    digitsValue ((ds ++ ['0', '0', '0']).take 3) = 0 ↔ digitsValue ds = 0 := by
  have hzeros : (['0', '0', '0'] : List Char).take (3 - ds.length) =
      List.replicate (3 - ds.length) '0' := by
    rw [show ['0', '0', '0'] = List.replicate 3 '0' from rfl, List.take_replicate,
      Nat.min_eq_left (Nat.sub_le _ _)]
  have hvalue : digitsValue (ds ++ List.replicate (3 - ds.length) '0') =
      10 ^ (3 - ds.length) * digitsValue ds := by
    rw [digitsValue, List.foldl_append]
    exact Nat.ofDigitChars_replicate_zero
  rw [List.take_append, List.take_of_length_le (Nat.le_of_lt h), hzeros, hvalue, Nat.mul_eq_zero,
    or_iff_right (Nat.pos_iff_ne_zero.mp (Nat.pow_pos (by decide)))]

/-- The milliseconds are read as they are written just where the fraction is plain. -/
theorem fraction_iff (s : List Char) :
    (if s[19]? = some '.' ∨ s[19]? = some ',' then (behindPoint (s.drop 20)).getD 0 else 0) =
      (writtenMillis s : ℤ) ↔ PlainFraction s := by
  rw [writtenMillis_eq, PlainFraction]
  by_cases hmark : s[19]? = some '.' ∨ s[19]? = some ','
  · rw [if_pos hmark, if_pos hmark, forall_prop_of_true hmark]
    by_cases hthree : 3 ≤ (fractionDigits s).length
    · have hread : behindPoint (s.drop 20) = some (digitsValue ((fractionDigits s).take 3) : ℤ) :=
        behindPoint_digits hthree
      rw [hread, List.take_append_of_le_length hthree]
      exact iff_of_true rfl (.inl hthree)
    · have hfew := behindPoint_few (Nat.not_le.mp hthree)
      have hzero := digitsValue_filled (Nat.not_le.mp hthree)
      rw [or_iff_right hthree]
      constructor
      · intro heq
        have hsigned : ¬SignedFraction s := by
          intro hs
          obtain ⟨sign, x, y, t, hf, hsign, -⟩ := id hs
          have hnone : fractionDigits s = [] := by
            rw [fractionDigits, hf, List.takeWhile_cons_of_neg]
            rcases hsign with rfl | rfl <;> decide
          rw [hnone] at heq
          exact hfew.mp heq hs
        have hread := hfew.mpr hsigned
        rw [heq] at hread
        exact ⟨hzero.mp (by exact_mod_cast hread), hsigned⟩
      · rintro ⟨hdigits, hsigned⟩
        rw [hfew.mpr hsigned, hzero.mpr hdigits]
        rfl
  · rw [if_neg hmark, if_neg hmark]
    exact iff_of_true rfl fun h => absurd h hmark

/-- An existing date and a plain fraction make the instant that is written. -/
theorem Stamped.toUnixMs_iff {s : List Char} (h : Stamped s) (hdate : (writtenDate s).Valid) :
    toUnixMs s = some (writtenMs s) ↔ PlainFraction s := by
  rw [h.toUnixMs_eq, hdate.daysSinceEpoch, Option.map_some, Option.some.injEq, writtenMs,
    Int.add_right_inj, h.fractionRead_eq]
  exact fraction_iff s

/-! ## What the rewriting keeps -/

/-- A canonical text of the same date, time and milliseconds. -/
structure Restamped (t r : List Char) : Prop where
  date : r.take 10 = t.take 10
  separator : r[10]? = some 'T'
  time : (r.drop 11).take 8 = (t.drop 11).take 8
  fraction : ∃ m, r.drop 19 = '.' :: (m ++ ['Z']) ∧ m.length = 3 ∧
    (∀ d ∈ m, d.isDigit = true) ∧ digitsValue m = writtenMillis t

namespace Restamped

variable {t r : List Char}

theorem stamped (h : Restamped t r) (ht : Stamped t) : Stamped r := by
  refine ⟨?_, .inl h.separator, ?_⟩
  · rw [← fits_take, show "dddd-dd-dd".toList.length = 10 by decide, h.date,
      ← show "dddd-dd-dd".toList.length = 10 by decide, fits_take]
    exact ht.date
  · rw [← fits_take, show "dd:dd:dd".toList.length = 8 by decide, h.time,
      ← show "dd:dd:dd".toList.length = 8 by decide, fits_take]
    exact ht.time

theorem writtenDate_eq (h : Restamped t r) : writtenDate r = writtenDate t := by
  have hpart : ∀ {i k : ℕ}, i + k ≤ 10 → (r.drop i).take k = (t.drop i).take k := by
    intro i k hik
    have hslice : ∀ l : List Char, (l.drop i).take k = ((l.take 10).drop i).take k := by
      intro l
      rw [List.drop_take, List.take_take, Nat.min_eq_left (by omega)]
    rw [hslice r, hslice t, h.date]
  have hyear := hpart (i := 0) (k := 4) (by decide)
  rw [List.drop_zero, List.drop_zero] at hyear
  rw [writtenDate, writtenDate, hyear, hpart (i := 5) (k := 2) (by decide),
    hpart (i := 8) (k := 2) (by decide)]

theorem writtenSeconds_eq (h : Restamped t r) : writtenSeconds r = writtenSeconds t := by
  have hpart : ∀ {i : ℕ}, i ≤ 6 → (r.drop (11 + i)).take 2 = (t.drop (11 + i)).take 2 := by
    intro i hi
    have hslice : ∀ l : List Char,
        (l.drop (11 + i)).take 2 = (((l.drop 11).take 8).drop i).take 2 := by
      intro l
      rw [List.drop_take, List.take_take, List.drop_drop, Nat.min_eq_left (by omega)]
    rw [hslice r, hslice t, h.time]
  rw [writtenSeconds, writtenSeconds, hpart (i := 0) (by decide), hpart (i := 3) (by decide),
    hpart (i := 6) (by decide)]

theorem fractionDigits_eq (h : Restamped t r) :
    r[19]? = some '.' ∧ (fractionDigits r).length = 3 ∧
      digitsValue (fractionDigits r) = writtenMillis t := by
  obtain ⟨m, hm, hlen, hdigits, hvalue⟩ := h.fraction
  have hdrop : r.drop 20 = m ++ ['Z'] := by
    rw [show 20 = 19 + 1 from rfl, ← List.drop_drop, hm, List.drop_succ_cons, List.drop_zero]
  have hall : fractionDigits r = m := by
    rw [fractionDigits, hdrop, List.takeWhile_append_of_pos hdigits,
      List.takeWhile_cons_of_neg (by decide), List.append_nil]
  refine ⟨?_, by rw [hall, hlen], by rw [hall, hvalue]⟩
  rw [← List.head?_drop, hm, List.head?_cons]

theorem writtenMs_eq (h : Restamped t r) : writtenMs r = writtenMs t := by
  obtain ⟨hpoint, hlen, hvalue⟩ := h.fractionDigits_eq
  have hmillis : writtenMillis r = writtenMillis t := by
    rw [writtenMillis_eq, if_pos (.inl hpoint), List.take_append_of_le_length hlen.ge,
      ← hlen, List.take_length, hvalue]
  rw [writtenMs, writtenMs, h.writtenDate_eq, h.writtenSeconds_eq, hmillis]

/-- The canonical text is read as the instant of the other. -/
theorem toUnixMs_eq (h : Restamped t r) (ht : Stamped t) (hdate : (writtenDate t).Valid) :
    toUnixMs r = some (writtenMs t) := by
  rw [← h.writtenMs_eq]
  rw [← h.writtenDate_eq] at hdate
  obtain ⟨-, hlen, -⟩ := h.fractionDigits_eq
  exact ((h.stamped ht).toUnixMs_iff hdate).mpr fun _ => .inl hlen.ge

end Restamped

theorem fits_append_right {p s : List Char} (h : fits p s = true) (w : List Char) :
    fits p (s ++ w) = true := by
  induction p generalizing s with
  | nil => rfl
  | cons q p ih =>
      cases s with
      | nil => cases h
      | cons c s =>
          rw [fits, Bool.and_eq_true] at h
          rw [List.cons_append, fits, Bool.and_eq_true]
          exact ⟨h.1, ih h.2⟩

theorem fits_drop {p s : List Char} (h : fits p s = true) (n : ℕ) :
    fits (p.drop n) (s.drop n) = true := by
  induction n generalizing p s with
  | zero => exact h
  | succ n ih =>
      cases p with
      | nil => rfl
      | cons q p =>
          cases s with
          | nil => cases h
          | cons c s =>
              rw [fits, Bool.and_eq_true] at h
              exact ih h.2

theorem canonical_stamped {ts : List Char} (h : isCanonical ts = true) :
    Stamped ts ∧ Restamped ts ts ∧ trim ts = ts := by
  rw [isCanonical, Bool.and_eq_true, beq_iff_eq] at h
  obtain ⟨hlen, hfits⟩ := h
  have hT : ts[10]? = some 'T' := by
    obtain ⟨c, hc, hchar⟩ := fits_getElem? (i := 10) (q := 'T') hfits (by decide)
    rw [if_neg (by decide), beq_iff_eq] at hchar
    rw [hc, hchar]
  have hstamped : Stamped ts := by
    refine ⟨?_, .inl hT, ?_⟩
    · have h := fits_append_right hfits []
      rw [show "dddd-dd-ddTdd:dd:dd.dddZ".toList =
        "dddd-dd-dd".toList ++ "Tdd:dd:dd.dddZ".toList by decide,
        ← List.take_append_drop 10 (ts ++ []), fits_append (by simp [hlen]),
        Bool.and_eq_true, List.append_nil] at h
      rw [← fits_take]
      exact h.1
    · have h := fits_drop hfits 11
      rw [show "dddd-dd-ddTdd:dd:dd.dddZ".toList.drop 11 =
        "dd:dd:dd".toList ++ ".dddZ".toList by decide,
        ← List.take_append_drop 8 (ts.drop 11), fits_append (by simp [hlen]),
        Bool.and_eq_true] at h
      rw [← fits_take]
      exact h.1
  have hrest : ∃ x y z, ts.drop 19 = ['.', x, y, z, 'Z'] ∧
      ∀ d ∈ [x, y, z], d.isDigit = true := by
    have hfive : (ts.drop 19).length = 5 := by
      rw [List.length_drop, hlen]
    have h := fits_drop hfits 19
    rw [show "dddd-dd-ddTdd:dd:dd.dddZ".toList.drop 19 = ".dddZ".toList by decide] at h
    rcases hs : ts.drop 19 with _ | ⟨p, _ | ⟨x, _ | ⟨y, _ | ⟨z, _ | ⟨q, r⟩⟩⟩⟩⟩
    case cons.cons.cons.cons.cons =>
      rw [hs] at h hfive
      obtain rfl : r = [] := List.eq_nil_of_length_eq_zero (by simpa using hfive)
      simp [fits] at h
      obtain ⟨rfl, hx, hy, hz, rfl⟩ := h
      exact ⟨x, y, z, rfl, by simp [hx, hy, hz]⟩
    all_goals
      rw [hs] at hfive
      exact absurd hfive (by simp)
  obtain ⟨x, y, z, hrest, hdigits⟩ := hrest
  refine ⟨hstamped, ⟨rfl, hT, rfl, [x, y, z], hrest, rfl, hdigits, ?_⟩, ?_⟩
  · simp only [List.forall_mem_cons] at hdigits
    rw [writtenMillis, hrest]
    simp [hdigits.1, hdigits.2.1, hdigits.2.2.1]
  · apply trim_eq_self
    · intro c hc
      obtain ⟨d, hd, hdigit⟩ := fits_getElem? (i := 0) (q := 'd') hfits (by decide)
      rw [List.head?_eq_getElem?, hd] at hc
      obtain rfl := Option.mem_some.mp hc
      exact isWhitespace_of_isDigit (by rwa [if_pos rfl] at hdigit)
    · intro c hc
      have hlast : ts.getLast? = some 'Z' := by
        rw [← List.take_append_drop 19 ts, hrest]
        simp
      rw [hlast] at hc
      obtain rfl := Option.mem_some.mp hc
      decide

/-- The time with its fraction, where there is one. -/
theorem normalizeTime_form {s time : List Char} (h : normalizeTime s = some time) :
    fits "dd:dd:dd".toList s = true ∧ ∃ m, time = s.take 8 ++ '.' :: m ∧ m.length = 3 ∧
      (∀ d ∈ m, d.isDigit = true) ∧
      digitsValue m = match s.drop 8 with
        | [] => 0
        | c :: fraction =>
            if c = '.' ∨ c = ',' then
              digitsValue ((fraction.takeWhile (·.isDigit) ++ ['0', '0', '0']).take 3)
            else 0 := by
  rw [normalizeTime] at h
  split_ifs at h with hfits
  refine ⟨hfits.1, ?_⟩
  cases hd : s.drop 8 with
  | nil =>
      rw [hd] at h
      exact ⟨['0', '0', '0'], (Option.some.inj h).symm, rfl, isDigit_zeros, rfl⟩
  | cons c fraction =>
      rw [hd] at h
      dsimp only at h
      split_ifs at h with hpoint
      refine ⟨_, (Option.some.inj h).symm, ?_, ?_, ?_⟩
      · rw [List.length_take, List.length_append]
        exact Nat.min_eq_left (Nat.le_add_left _ _)
      · intro d hd
        rcases List.mem_append.mp (List.mem_of_mem_take hd) with hd | hd
        · exact List.mem_takeWhile_imp hd
        · exact isDigit_zeros d hd
      · exact (if_pos hpoint).symm

/-- A text with a date that comes out in canonical form. -/
theorem restamped_of_canonical {ts : List Char} (h : isCanonical (normalizeTimestamp ts) = true) :
    Stamped (trim ts) ∧ Restamped (trim ts) (normalizeTimestamp ts) := by
  by_cases hcanonical : isCanonical ts = true
  · have hsame : normalizeTimestamp ts = ts := if_pos hcanonical
    obtain ⟨hstamped, hrestamped, htrim⟩ := canonical_stamped hcanonical
    rw [hsame, htrim]
    exact ⟨hstamped, hrestamped⟩
  have hform := normalizeTimestamp.eq_def ts
  rw [if_neg hcanonical] at hform
  dsimp only at hform
  generalize trim ts = t at hform ⊢
  have hshort : ∀ time, normalizeTime t = some time → ¬isCanonical time = true := by
    intro time htime hc
    rw [isCanonical, Bool.and_eq_true, (normalizeTime_spec htime).1] at hc
    exact absurd hc.1 (by decide)
  by_cases hdate : fits "dddd-dd-dd".toList t = true ∧
      (t[10]? = some 'T' ∨ t[10]? = some '-' ∨ t[10]? = some ' ')
  · rw [if_pos hdate] at hform
    cases htime : normalizeTime (t.drop 11) with
    | none =>
        rw [htime, Option.map_none, Option.none_or] at hform
        cases hshorter : normalizeTime t with
        | none =>
            rw [hshorter, Option.getD_none] at hform
            rw [hform] at h
            exact absurd h hcanonical
        | some time =>
            rw [hshorter, Option.getD_some] at hform
            rw [hform] at h
            exact absurd h (hshort time hshorter)
    | some time =>
        rw [htime, Option.map_some, Option.some_or, Option.getD_some] at hform
        obtain ⟨hfits, m, rfl, hlen, hdigits, hvalue⟩ := normalizeTime_form htime
        have hstamped : Stamped t := ⟨hdate.1, hdate.2, hfits⟩
        have hlong := hstamped.length
        have hten : (t.take 10).length = 10 := by
          rw [List.length_take, Nat.min_eq_left (by omega)]
        have height : ((t.drop 11).take 8).length = 8 := by
          rw [List.length_take, List.length_drop, Nat.min_eq_left (by omega)]
        have helevenLen : (t.take 10 ++ ['T']).length = 11 := by
          rw [List.length_append, hten]
          rfl
        have heleven : (normalizeTimestamp ts).drop 11 =
            (t.drop 11).take 8 ++ '.' :: (m ++ ['Z']) := by
          rw [hform, List.append_cons, List.drop_left' helevenLen, List.append_assoc]
          rfl
        refine ⟨hstamped, ⟨?_, ?_, ?_, m, ?_, hlen, hdigits, ?_⟩⟩
        · rw [hform, List.take_left' hten]
        · rw [hform, List.getElem?_append_right hten.le, hten]
          rfl
        · rw [heleven, List.take_left' height]
        · rw [show 19 = 11 + 8 from rfl, ← List.drop_drop, heleven, List.drop_left' height]
        · rw [hvalue, writtenMillis, List.drop_drop]
  · rw [if_neg hdate, Option.none_or] at hform
    cases hshorter : normalizeTime t with
    | none =>
        rw [hshorter, Option.getD_none] at hform
        rw [hform] at h
        exact absurd h hcanonical
    | some time =>
        rw [hshorter, Option.getD_some] at hform
        rw [hform] at h
        exact absurd h (hshort time hshorter)

theorem trim_append {ts : List Char} (hhead : ∀ c ∈ ts.head?, isWhitespace c = false) :
    ∃ w, ts = trim ts ++ w ∧ ∀ c ∈ w, isWhitespace c = true := by
  have hstart : trimStart ts = ts := by
    cases ts with
    | nil => rfl
    | cons c ts =>
        rw [trimStart, List.dropWhile_cons_of_neg]
        rw [hhead c rfl]
        exact Bool.false_ne_true
  refine ⟨(ts.reverse.takeWhile isWhitespace).reverse, ?_, ?_⟩
  · rw [trim, hstart, trimStart, ← List.reverse_append, List.takeWhile_append_dropWhile,
      List.reverse_reverse]
  · intro c hc
    exact List.mem_takeWhile_imp (List.mem_reverse.mp hc)

theorem not_digit_of_isWhitespace {c : Char} (hc : isWhitespace c = true) : ¬c.isDigit = true := by
  intro hdigit
  rw [isWhitespace_of_isDigit hdigit] at hc
  cases hc

/-- White space behind a timestamp is no part of it. -/
theorem Stamped.append {t w : List Char} (h : Stamped t) (hw : ∀ c ∈ w, isWhitespace c = true) :
    Stamped (t ++ w) ∧ writtenDate (t ++ w) = writtenDate t ∧ writtenMs (t ++ w) = writtenMs t := by
  have hlen := h.length
  have hslice : ∀ {i k : ℕ}, i + k ≤ 19 → ((t ++ w).drop i).take k = (t.drop i).take k := by
    intro i k hik
    rw [List.drop_append_of_le_length (by omega), List.take_append_of_le_length]
    rw [List.length_drop]
    omega
  have hyear := hslice (i := 0) (k := 4) (by decide)
  rw [List.drop_zero, List.drop_zero] at hyear
  have hdate : writtenDate (t ++ w) = writtenDate t := by
    rw [writtenDate, writtenDate, hyear, hslice (by decide), hslice (by decide)]
  have hseconds : writtenSeconds (t ++ w) = writtenSeconds t := by
    rw [writtenSeconds, writtenSeconds, hslice (by decide), hslice (by decide),
      hslice (by decide)]
  have hmillis : writtenMillis (t ++ w) = writtenMillis t := by
    rw [writtenMillis, writtenMillis, List.drop_append_of_le_length hlen]
    cases t.drop 19 with
    | nil =>
        cases w with
        | nil => rfl
        | cons c w =>
            have hc := hw c List.mem_cons_self
            rw [List.nil_append]
            refine if_neg ?_
            rintro (rfl | rfl) <;> cases hc
    | cons c f =>
        -- the digits end where the white space begins
        have hwhile : ((f ++ w).takeWhile (·.isDigit)) = f.takeWhile (·.isDigit) := by
          rw [List.takeWhile_append]
          split_ifs with hall
          · have hnone : w.takeWhile (·.isDigit) = [] := by
              cases w with
              | nil => rfl
              | cons d w =>
                  exact List.takeWhile_cons_of_neg
                    (not_digit_of_isWhitespace (hw d List.mem_cons_self))
            rw [hnone, List.append_nil]
            exact ((List.takeWhile_prefix _).eq_of_length hall).symm
          · rfl
        rw [List.cons_append]
        dsimp only
        rw [hwhile]
  refine ⟨⟨fits_append_right h.date w, ?_, ?_⟩, hdate, ?_⟩
  · rw [List.getElem?_append_left (by omega)]
    exact h.separator
  · rw [List.drop_append_of_le_length (by omega)]
    exact fits_append_right h.time w
  · rw [writtenMs, writtenMs, hdate, hseconds, hmillis]

/-- A timestamp behind white space is no timestamp to the reader. -/
theorem toUnixMs_of_isWhitespace {c : Char} (hc : isWhitespace c = true) (ts : List Char) :
    toUnixMs (c :: ts) = none := by
  have hyear : numberBetween (utf8Bytes (c :: ts)) 0 4 = none := by
    rw [Option.eq_none_iff_forall_ne_some]
    intro v hv
    rw [numberBetween, List.drop_zero, Option.bind_eq_some_iff] at hv
    obtain ⟨s, hs, hv⟩ := hv
    have hbytes : utf8Bytes s = (utf8Bytes (c :: ts)).take 4 := by
      rw [fromUtf8] at hs
      split_ifs at hs with heq
      rw [← Option.some.inj hs]
      exact heq
    have hprefix : ∀ {d : Char} {t : List Char}, s = d :: t → Ascii d → d = c := by
      rintro d t rfl hd
      have hbegin : utf8Bytes [d] <+: utf8Bytes (c :: ts) := by
        refine List.IsPrefix.trans ?_ (hbytes ▸ List.take_prefix 4 _)
        rw [show d :: t = [d] ++ t from rfl, utf8Bytes_append]
        exact List.prefix_append _ _
      have hascii : ∀ e ∈ [d], Ascii e := by
        rw [List.forall_mem_singleton]
        exact hd
      have h := prefix_of_utf8Bytes_prefix hascii hbegin
      rw [List.cons_prefix_cons] at h
      exact h.1
    rcases ascii_of_parseI64Int hv with ⟨t, rfl, -⟩ | ⟨t, rfl, -⟩ | ⟨hne, hdigits, -⟩
    · rw [← hprefix rfl (show '-'.toNat < 128 by decide)] at hc
      cases hc
    · rw [← hprefix rfl (show '+'.toNat < 128 by decide)] at hc
      cases hc
    · obtain ⟨d, t, rfl⟩ := List.exists_cons_of_ne_nil hne
      have hd := hdigits d List.mem_cons_self
      rw [← hprefix rfl (ascii_of_isDigit hd)] at hc
      exact not_digit_of_isWhitespace hc hd
  rw [toUnixMs]
  rw [hyear]
  split_ifs <;> rfl

end

/-- No white space is before the timestamp, and its fraction is plain. -/
def KeepsInstant (ts : List Char) : Prop :=
  (∀ c ∈ ts.head?, isWhitespace c = false) ∧ PlainFraction ts

/-- Where the text keeps its instant in canonical form. -/
theorem normalizeTimestamp_instant (ts : List Char) :
    normalizeTimestamp (normalizeTimestamp ts) = normalizeTimestamp ts ∧
    (isCanonical (normalizeTimestamp ts) = true → (writtenDate (trim ts)).Valid →
      (toUnixMs ts = toUnixMs (normalizeTimestamp ts) ∧
        toUnixMs (normalizeTimestamp ts) = some (writtenMs (trim ts)) ↔ KeepsInstant ts)) := by
  refine ⟨normalizeTimestamp_idem ts, fun hcanonical hdate => ?_⟩
  obtain ⟨hstamped, hrestamped⟩ := restamped_of_canonical hcanonical
  have hnormal := hrestamped.toUnixMs_eq hstamped hdate
  rw [and_iff_left hnormal, hnormal, KeepsInstant]
  by_cases hhead : ∀ c ∈ ts.head?, isWhitespace c = false
  · obtain ⟨w, hw, hspace⟩ := trim_append hhead
    obtain ⟨hwhole, hsameDate, hsame⟩ := hstamped.append hspace
    rw [← hw] at hwhole hsameDate hsame
    rw [← hsameDate] at hdate
    rw [and_iff_right hhead, ← hsame]
    exact hwhole.toUnixMs_iff hdate
  · refine iff_of_false ?_ fun h => hhead h.1
    cases ts with
    | nil => exact absurd nofun hhead
    | cons c ts =>
        have hc : isWhitespace c = true := by
          by_contra hn
          apply hhead
          rintro _ ⟨⟩
          exact Bool.not_eq_true _ ▸ hn
        rw [toUnixMs_of_isWhitespace hc]
        exact nofun

/-- A canonical timestamp keeps its instant, and one after a space does not. -/
theorem normalizeTimestamp_instant_2011 :
    toUnixMs "2011-04-25-06:25:03.603".toList =
      toUnixMs (normalizeTimestamp "2011-04-25-06:25:03.603".toList) ∧
    toUnixMs (normalizeTimestamp "2011-04-25-06:25:03.603".toList) =
      some (writtenMs (trim "2011-04-25-06:25:03.603".toList)) :=
  ((normalizeTimestamp_instant "2011-04-25-06:25:03.603".toList).2 (by decide) (by decide)).mpr
    ⟨by rintro _ ⟨⟩; decide, fun _ => .inl (by decide)⟩

/-- Fewer than three digits of a fraction are lost, and so is a timestamp after a space. -/
theorem fraction_lost :
    isCanonical (normalizeTimestamp "2011-04-25-06:25:03,6".toList) = true ∧
    (writtenDate (trim "2011-04-25-06:25:03,6".toList)).Valid ∧
    toUnixMs "2011-04-25-06:25:03,6".toList = some 1303712703000 ∧
    toUnixMs (normalizeTimestamp "2011-04-25-06:25:03,6".toList) = some 1303712703600 ∧
    isCanonical (normalizeTimestamp " 2011-04-25-06:25:03.603".toList) = true ∧
    toUnixMs " 2011-04-25-06:25:03.603".toList = none ∧
    toUnixMs (normalizeTimestamp " 2011-04-25-06:25:03.603".toList) = some 1303712703603 := by
  decide

end Canboat
