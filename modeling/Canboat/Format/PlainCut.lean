import Canboat.Format.OneInstant
import Canboat.Format.PlainHeader
import Canboat.Format.PlainWriter
import Canboat.Lib.Json.Reading

/-!
# Lines that were cut short

No frame is read from a proper beginning of a line that was written: either a number of the header is
missing, or the payload is too short for the length.
-/

namespace Canboat

namespace Plain

open Checked

/-! ## The payload -/

def isHexByte (b : UInt8) : Bool := hexNibble b ≠ 0xff

/-- How many digits there are for the payload. -/
def hexCount (s : List UInt8) : ℕ := s.countP isHexByte

theorem hexCount_drop_le {i j : ℕ} (h : i ≤ j) (s : List UInt8) :
    hexCount (s.drop j) ≤ hexCount (s.drop i) := by
  have hsuffix : s.drop j <:+ s.drop i := by
    obtain ⟨k, rfl⟩ := Nat.exists_eq_add_of_le h
    rw [← List.drop_drop]
    exact List.drop_suffix k _
  exact hsuffix.sublist.countP_le

/-- Each byte takes two digits. -/
theorem hexCount_payload {bytes : List UInt8} {base n i : ℕ} {before data : List UInt8}
    (h : payload bytes base n i before = pure data) :
    2 * data.length ≤ 2 * before.length + hexCount (bytes.drop i) := by
  induction n generalizing i before with
  | zero =>
      rw [payload, pure_inj] at h
      rw [h]
      exact Nat.le_add_right _ _
  | succ n ih =>
      rw [payload] at h
      dsimp only at h
      split_ifs at h with hin hshort
      · obtain ⟨value, -, hthrow⟩ := bind_eq_pure.mp h
        exact absurd hthrow (throw_ne_pure _ _)
      · obtain ⟨hi, hhi, h⟩ := bind_eq_pure.mp h
        obtain ⟨lo, hlo, h⟩ := bind_eq_pure.mp h
        have hstart : skipSpaces bytes i + 1 < bytes.length := by omega
        have hlt : skipSpaces bytes i < bytes.length := Nat.lt_of_succ_lt hstart
        rw [check_eq_pure, byteAt_of_lt hlt, Except.ok.injEq] at hhi
        rw [check_eq_pure, byteAt_of_lt hstart, Except.ok.injEq] at hlo
        split_ifs at h with hbad
        · obtain ⟨value, -, hthrow⟩ := bind_eq_pure.mp h
          exact absurd hthrow (throw_ne_pure _ _)
        · have hhex : isHexByte hi = true := decide_eq_true (not_or.mp hbad).1
          have hlex : isHexByte lo = true := decide_eq_true (not_or.mp hbad).2
          have hrest := ih h
          have hpair : hexCount (bytes.drop (skipSpaces bytes i)) =
              hexCount (bytes.drop (skipSpaces bytes i + 2)) + 2 := by
            rw [List.drop_eq_getElem_cons hlt, List.drop_eq_getElem_cons hstart, hhi, hlo, hexCount,
              List.countP_cons_of_pos hhex, List.countP_cons_of_pos hlex]
            rfl
          have hfrom := hexCount_drop_le (@le_skipSpaces bytes i) bytes
          have hto : skipSpaces bytes i + 2 ≤
              skipComma bytes (skipSpaces bytes (skipSpaces bytes i + 2)) := by
            have hspaces := @le_skipSpaces bytes (skipSpaces bytes i + 2)
            rw [skipComma]
            split_ifs
            · omega
            · exact hspaces
          have hbehind := hexCount_drop_le hto bytes
          rw [List.length_append, List.length_singleton] at hrest
          omega
      · rw [pure_inj] at h
        rw [h]
        exact Nat.le_add_right _ _

/-- What is behind so many numerals. -/
def behindNumerals : ℕ → List UInt8 → List UInt8
  | 0, s => s
  | n + 1, s => behindNumerals n (behindNumeral s)

/-- A frame that is read has its header and enough digits behind it. -/
theorem numbers_of_parseLine {line : List Char} {f : RawFrame} (h : parseLine line = pure f) :
    ∃ ts rest prio pgn src dst, splitOnce ',' (trimNewlines line) = some (ts, rest) ∧
      Totals (accumulate u64Max 0) (utf8Bytes rest) headerMaxes [prio, pgn, src, dst, f.data.length] ∧
      2 * f.data.length ≤ hexCount (behindNumerals 5 (utf8Bytes rest)) := by
  rw [parseLine_eq, parseLineWith] at h
  dsimp only at h
  obtain ⟨-, h⟩ := ite_throw_eq_pure.mp h
  obtain ⟨⟨ts, rest⟩, hsplit, h⟩ := bind_eq_pure.mp h
  rw [orError_eq_pure] at hsplit
  dsimp only at h
  obtain ⟨⟨prio, c₁⟩, hprio, h⟩ := bind_eq_pure.mp h
  obtain ⟨⟨pgn, c₂⟩, hpgn, h⟩ := bind_eq_pure.mp h
  obtain ⟨⟨src, c₃⟩, hsrc, h⟩ := bind_eq_pure.mp h
  obtain ⟨⟨dst, c₄⟩, hdst, h⟩ := bind_eq_pure.mp h
  obtain ⟨⟨len, c₅⟩, hlen, h⟩ := bind_eq_pure.mp h
  obtain ⟨-, h⟩ := ite_throw_eq_pure.mp h
  obtain ⟨payloadBytes, hslice, h⟩ := bind_eq_pure.mp h
  obtain ⟨data, hdata, h⟩ := bind_eq_pure.mp h
  obtain ⟨hcount, h⟩ := ite_throw_eq_pure.mp h
  rw [pure_inj] at h
  subst h
  have hpayload := hexCount_payload hdata
  rw [check_eq_pure, slice] at hslice
  split_ifs at hslice
  cases hslice
  rw [takeUintWith_eq_pure] at hprio hpgn hsrc hdst hlen
  obtain ⟨hne₁, hle₁, htotal₁, rfl⟩ := hprio
  obtain ⟨hne₂, hle₂, htotal₂, rfl⟩ := hpgn
  obtain ⟨hne₃, hle₃, htotal₃, rfl⟩ := hsrc
  obtain ⟨hne₄, hle₄, htotal₄, rfl⟩ := hdst
  obtain ⟨hne₅, hle₅, htotal₅, rfl⟩ := hlen
  simp only [drop_afterNumber, List.drop_zero, List.take_length, List.length_nil, Nat.mul_zero,
    Nat.zero_add] at *
  obtain rfl := not_not.mp hcount
  exact ⟨ts, rest, prio, pgn, src, dst, hsplit,
    ⟨hne₁, hle₁, htotal₁, hne₂, hle₂, htotal₂, hne₃, hle₃, htotal₃, hne₄, hle₄, htotal₄,
      hne₅, hle₅, htotal₅, trivial⟩, hpayload⟩

/-! ## A numeral and what is behind it -/

theorem dropWhile_spaces {s : List UInt8} (h : ∀ b ∈ s.head?, b ≠ 0x20) :
    s.dropWhile (· == 0x20) = s := by
  cases s with
  | nil => rfl
  | cons b s =>
      have hb : ¬(b == 0x20) = true := fun hb => h b rfl (eq_of_beq hb)
      exact List.dropWhile_cons_of_neg hb

/-- Digits alone. -/
theorem numeral_digits {s : List UInt8} (hs : ∀ b ∈ s, isDigitByte b = true) :
    numeral s = s ∧ behindNumeral s = [] := by
  have hspaces : s.dropWhile (· == 0x20) = s := by
    apply dropWhile_spaces
    rintro b hb rfl
    cases hs _ (List.mem_of_mem_head? hb)
  have hnone : s.dropWhile isDigitByte = [] := List.dropWhile_eq_nil_iff.mpr hs
  rw [numeral, behindNumeral, hspaces, hnone]
  exact ⟨List.takeWhile_eq_self_iff.mpr hs, rfl⟩

/-- Digits with something else behind them. -/
theorem numeral_append {s post : List UInt8} (hs : ∀ b ∈ s, isDigitByte b = true) (hne : s ≠ [])
    (hpost : Delimits post) :
    numeral (s ++ post) = s ∧ behindNumeral (s ++ post) = behindComma post := by
  have hspaces : (s ++ post).dropWhile (· == 0x20) = s ++ post := by
    apply dropWhile_spaces
    rintro b hb rfl
    rw [List.head?_append_of_ne_nil _ hne] at hb
    cases hs _ (List.mem_of_mem_head? hb)
  have hstop : ∀ p : UInt8 → Bool, (∀ b ∈ post.head?, p b = false) →
      post.takeWhile p = [] ∧ post.dropWhile p = post := by
    intro p hp
    cases post with
    | nil => exact ⟨rfl, rfl⟩
    | cons b post =>
        have hb : ¬p b = true := by
          rw [hp b rfl]
          exact Bool.false_ne_true
        exact ⟨List.takeWhile_cons_of_neg hb, List.dropWhile_cons_of_neg hb⟩
  obtain ⟨htake, hdrop⟩ := hstop isDigitByte fun b hb => (hpost b hb).1
  rw [numeral, behindNumeral, hspaces, List.takeWhile_append_of_pos hs,
    List.dropWhile_append_of_pos hs, htake, hdrop, List.append_nil,
    dropWhile_spaces fun b hb => (hpost b hb).2]
  exact ⟨rfl, rfl⟩

theorem cut_append {α : Type} {s a b : List α} (h : s <+: a ++ b) :
    s <+: a ∨ ∃ t, s = a ++ t ∧ t <+: b := by
  rcases List.prefix_or_prefix_of_prefix h (List.prefix_append a b) with hcut | ⟨t, rfl⟩
  · exact .inl hcut
  · exact .inr ⟨t, rfl, (List.prefix_append_right_inj a).mp h⟩

/-- A beginning of what is written goes on behind the comma, if there is a numeral behind it. -/
theorem behindNumeral_cut {n : ℕ} {s post : List UInt8}
    (h : s <+: utf8Bytes (decimal n) ++ 0x2c :: post) (hnext : numeral (behindNumeral s) ≠ []) :
    behindNumeral s <+: post ∧ s = utf8Bytes (decimal n) ++ 0x2c :: behindNumeral s := by
  rcases cut_append h with hcut | ⟨t, rfl, ht⟩
  · rw [(numeral_digits fun b hb => isDigitByte_of_mem (hcut.subset hb)).2] at hnext
    exact absurd rfl hnext
  · cases t with
    | nil =>
        rw [List.append_nil, (numeral_digits fun b => isDigitByte_of_mem).2] at hnext
        exact absurd rfl hnext
    | cons b t =>
        obtain ⟨rfl, hpost⟩ := List.cons_prefix_cons.mp ht
        have hdelimits : Delimits (0x2c :: t) := by
          rintro _ ⟨⟩
          exact ⟨by decide, by decide⟩
        have hbehind := (numeral_append (fun b => isDigitByte_of_mem)
          (decimal_bytes_ne_nil n) hdelimits).2
        rw [behindComma, if_pos rfl] at hbehind
        rw [hbehind]
        exact ⟨hpost, rfl⟩

/-! ## The length and the payload -/

theorem hexCount_hexBytes (b : UInt8) : hexCount (hexBytes b) = 2 := by
  obtain ⟨hi, lo, hbytes, -, hhi, hlo, -⟩ := hexNibble_hexBytes b
  have hhex : isHexByte hi = true := decide_eq_true hhi
  have hlex : isHexByte lo = true := decide_eq_true hlo
  rw [hbytes, hexCount, List.countP_cons_of_pos hhex, List.countP_cons_of_pos hlex, List.countP_nil]

/-- A payload that was cut short has too few digits. -/
theorem hexCount_cut {data p : List UInt8} (h : p <+: listed data) (hne : p ≠ listed data) :
    hexCount p < 2 * data.length := by
  induction data generalizing p with
  | nil => exact absurd (List.prefix_nil.mp h) hne
  | cons b data ih =>
      have hlisted : listed (b :: data) = (0x2c :: hexBytes b) ++ listed data := List.flatMap_cons
      have hcomma : ∀ s, hexCount (0x2c :: s) = hexCount s := fun s =>
        List.countP_cons_of_neg (by decide)
      rw [hlisted] at h hne
      by_cases hwhole : (0x2c :: hexBytes b) <+: p
      · obtain ⟨t, rfl⟩ := hwhole
        have hrest := ih ((List.prefix_append_right_inj _).mp h) fun heq => hne (heq ▸ rfl)
        rw [hexCount, List.countP_append, ← hexCount, ← hexCount, hcomma, hexCount_hexBytes,
          List.length_cons]
        omega
      · rcases cut_append h with hcut | ⟨t, rfl, -⟩
        · have hshort : p.length < 3 := Nat.lt_of_le_of_ne hcut.length_le fun hlen =>
            hwhole (hcut.eq_of_length hlen ▸ List.prefix_refl _)
          have hone : hexCount p ≤ 1 := by
            cases p with
            | nil => exact Nat.zero_le 1
            | cons c p =>
                obtain ⟨rfl, -⟩ := List.cons_prefix_cons.mp hcut
                rw [hcomma]
                exact Nat.le_trans List.countP_le_length (Nat.le_of_lt_succ (Nat.lt_of_succ_lt_succ hshort))
          rw [List.length_cons]
          omega
        · exact absurd (List.prefix_append _ _) hwhole

theorem delimits_cut {data p : List UInt8} (h : p <+: listed data) : Delimits p := by
  intro b hb
  cases data with
  | nil =>
      rw [List.prefix_nil.mp h] at hb
      cases hb
  | cons c data =>
      cases p with
      | nil => cases hb
      | cons d p =>
          cases hb
          obtain ⟨rfl, -⟩ := List.cons_prefix_cons.mp h
          exact ⟨by decide, by decide⟩

theorem hexCount_behindComma_le (s : List UInt8) : hexCount (behindComma s) ≤ hexCount s := by
  cases s with
  | nil => exact Nat.le_refl _
  | cons b s =>
      rw [behindComma]
      split_ifs
      · exact (List.sublist_cons_self b s).countP_le
      · exact Nat.le_refl _

/-- A beginning of the digits does not stand for zero. -/
theorem numberOf_cut_pos {n : ℕ} (hn : 0 < n) {s : List UInt8} (hs : s <+: utf8Bytes (decimal n))
    (hne : s ≠ []) : 0 < numberOf 0 s := by
  obtain ⟨rest, hrest⟩ := hs
  rw [utf8Bytes_decimal] at hrest
  have hhead : (decimal n).head? ≠ some '0' := Json.digits_head hn
  have hdigits : ∀ c ∈ decimal n, c.isDigit = true := fun c => isDigit_of_mem_decimal
  cases hd : decimal n with
  | nil =>
      rw [hd, List.map_nil, List.append_eq_nil_iff] at hrest
      exact absurd hrest.1 hne
  | cons c cs =>
      rw [hd] at hhead hrest hdigits
      cases s with
      | nil => exact absurd rfl hne
      | cons b s =>
          obtain ⟨rfl, -⟩ := List.cons.inj hrest
          have hc := hdigits c (List.mem_cons_self ..)
          have hpos : c.toNat ≠ 48 := by
            intro hzero
            apply hhead
            rw [List.head?_cons, Option.some.injEq, ← Char.toNat_inj]
            exact hzero
          have hle := le_numberOf (0 * 10 + ((UInt8.ofNat c.toNat).toNat - 48)) s
          rw [toNat_ofNat_of_isDigit hc] at hle
          have hlo := (toNat_of_isDigit hc).1
          rw [numberOf, List.foldl_cons, toNat_ofNat_of_isDigit hc]
          exact Nat.lt_of_lt_of_le (by omega) hle

/-- The length says more than there is. -/
theorem length_cut {data s : List UInt8} (h : s <+: utf8Bytes (decimal data.length) ++ listed data)
    (hne : s ≠ utf8Bytes (decimal data.length) ++ listed data) (hnumeral : numeral s ≠ []) :
    hexCount (behindNumeral s) < 2 * numberOf 0 (numeral s) := by
  rcases cut_append h with hcut | ⟨p, rfl, hp⟩
  · obtain ⟨hall, hbehind⟩ := numeral_digits fun b hb => isDigitByte_of_mem (hcut.subset hb)
    rw [hall] at hnumeral
    rw [hall, hbehind]
    have hpos : 0 < numberOf 0 s := by
      rcases Nat.eq_zero_or_pos data.length with hzero | hpos
      · have hdata := List.length_eq_zero_iff.mp hzero
        subst hdata
        have hone : utf8Bytes (decimal ([] : List UInt8).length) = [0x30] := by decide +kernel
        rw [hone] at hcut hne
        obtain ⟨b, t, rfl⟩ := List.exists_cons_of_ne_nil hnumeral
        obtain ⟨rfl, ht⟩ := List.cons_prefix_cons.mp hcut
        rw [List.prefix_nil.mp ht] at hne
        exact absurd rfl hne
      · exact numberOf_cut_pos hpos hcut hnumeral
    exact Nat.mul_pos (by decide) hpos
  · have hshort := hexCount_cut hp fun heq => hne (heq ▸ rfl)
    obtain ⟨hnumber, hbehind⟩ := numeral_append (fun b => isDigitByte_of_mem)
      (decimal_bytes_ne_nil data.length) (delimits_cut hp)
    rw [hnumber, hbehind, numberOf_decimal]
    exact Nat.lt_of_le_of_lt (hexCount_behindComma_le p) hshort

/-- No frame is read from a line that was cut short, wherever. -/
theorem parseLine_cut {f : RawFrame} (hcomma : ',' ∉ stampText f) {t : List Char}
    (ht : t <+: writeLine f) (hne : t ≠ writeLine f) (g : RawFrame) : parseLine t ≠ pure g := by
  intro h
  obtain ⟨ts, rest, prio, pgn, src, dst, hsplit, htotals, hhex⟩ := numbers_of_parseLine h
  obtain ⟨htext, hts⟩ := of_splitOnce hsplit
  obtain ⟨ends, hends, -⟩ := eq_trimEnd_append (fun c => c == '\r' || c == '\n') t
  obtain ⟨more, hmore⟩ := ht
  have hwhole : ts ++ ',' :: (rest ++ (ends ++ more)) = stampText f ++ ',' :: body f := by
    rw [← writeLine_eq, ← hmore, hends, List.append_assoc, ← List.cons_append, ← List.append_assoc,
      ← htext]
    rfl
  have hbody : rest ++ (ends ++ more) = body f := by
    have hline := splitOnce_line hts (rest ++ (ends ++ more))
    rw [hwhole, splitOnce_line hcomma] at hline
    exact (Prod.mk.inj (Option.some.inj hline)).2.symm
  have hbytes : utf8Bytes (body f) = utf8Bytes rest ++ utf8Bytes (ends ++ more) := by
    rw [← hbody, utf8Bytes_append]
  have hcut : utf8Bytes rest ≠ utf8Bytes (body f) := by
    intro heq
    rw [hbytes, List.self_eq_append_right] at heq
    have hnil : more = [] := by
      cases more with
      | nil => rfl
      | cons c more =>
          rw [utf8Bytes_append, List.append_eq_nil_iff] at heq
          exact absurd heq.2 (List.append_ne_nil_of_left_ne_nil String.utf8EncodeChar_ne_nil _)
    rw [hnil, List.append_nil] at hmore
    exact hne hmore
  have hbegins : utf8Bytes rest <+: utf8Bytes (body f) := hbytes ▸ List.prefix_append _ _
  rw [utf8Bytes_body] at hbegins hcut
  obtain ⟨-, -, -, hne₂, -, -, hne₃, -, -, hne₄, -, -, hne₅, -, htotal, -⟩ := htotals
  obtain ⟨h₁, e₁⟩ := behindNumeral_cut hbegins hne₂
  obtain ⟨h₂, e₂⟩ := behindNumeral_cut h₁ hne₃
  obtain ⟨h₃, e₃⟩ := behindNumeral_cut h₂ hne₄
  obtain ⟨h₄, e₄⟩ := behindNumeral_cut h₃ hne₅
  have hlast := length_cut h₄ (fun heq => hcut (by rw [e₁, e₂, e₃, e₄, heq])) hne₅
  rw [accumulate_ok_iff (Nat.zero_le _)] at htotal
  rw [← htotal.2] at hlast
  exact absurd hhex (Nat.not_le.mpr hlast)

end Plain

end Canboat
