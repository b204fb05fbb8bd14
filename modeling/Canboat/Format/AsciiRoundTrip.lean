import Canboat.Format.LineRoundTrip

/-!
# Actisense N2K ASCII lines that are read back

The time stands behind an `A` without its colons, the payload is one run of digits.
-/

namespace Canboat

open Checked

namespace ActisenseAscii

/-! ## The time -/

/-- The time in its token, and what the parser's text of it is normalised to. -/
def Carries (w time : List Char) : Prop :=
  ∃ u p, splitWhitespace ('A' :: w.filter (· ≠ ':')) = ['A' :: u] ∧ 6 ≤ byteLen u ∧
    formatActisenseTimestamp u = pure p ∧ NormalisesTo p time

/-- Six zeros in one token, and a fraction of no milliseconds if there is one. -/
def ReadsMidnight (w : List Char) : Prop :=
  ∃ u, splitWhitespace ('A' :: w.filter (· ≠ ':')) = ['A' :: u] ∧ "000000".toList <+: u ∧
    ∀ a frac, splitOnce '.' u = some (a, frac) →
      ∃ ms, parseU32 frac = some ms ∧ ms.toNat % 1000 = 0

theorem eq_of_byteLen {a b a' b' : List Char} (h : a ++ b = a' ++ b')
    (hlen : byteLen a = byteLen a') : a = a' ∧ b = b' := by
  have hsplit := splitAtByte_of_append a b
  rw [h, hlen, splitAtByte_of_append, Except.ok.injEq, Prod.mk.injEq] at hsplit
  exact ⟨hsplit.1.symm, hsplit.2.symm⟩

theorem timeParts_ok {time h m s : List Char} (hparts : timeParts time = .ok (h, m, s)) :
    ∃ r, time = h ++ (m ++ (s ++ r)) ∧ byteLen h = 2 ∧ byteLen m = 2 ∧ byteLen s = 2 := by
  rw [timeParts] at hparts
  obtain ⟨h', hh, hrest⟩ := Fault.bind_ok_iff.mp hparts
  obtain ⟨m', hm, hrest'⟩ := Fault.bind_ok_iff.mp hrest
  obtain ⟨s', hs, hpure⟩ := Fault.bind_ok_iff.mp hrest'
  obtain ⟨a₁, r₁, hsplit₁, ha₁, hlen₁⟩ := sliceText_ok hh
  obtain ⟨a₂, r₂, hsplit₂, ha₂, hlen₂⟩ := sliceText_ok hm
  obtain ⟨a₃, r₃, hsplit₃, ha₃, hlen₃⟩ := sliceText_ok hs
  cases Except.ok.inj hpure
  clear hparts hrest hrest' hpure hh hm hs
  obtain rfl := eq_nil_of_byteLen ha₁
  subst hsplit₁
  rw [List.nil_append] at hsplit₂ hsplit₃ hlen₁ ⊢
  rw [List.append_assoc] at hsplit₂
  -- each part stands where the one before it ends
  obtain ⟨rfl, rfl⟩ := eq_of_byteLen hsplit₂ (hlen₁.trans ha₂.symm)
  rw [← List.append_assoc, List.append_assoc _ s] at hsplit₃
  obtain ⟨rfl, rfl⟩ := eq_of_byteLen hsplit₃ (hlen₂.trans ha₃.symm)
  rw [byteLen_append] at hlen₂ hlen₃
  exact ⟨r₃, rfl, hlen₁, by omega, by omega⟩

theorem timeParts_digits {a b c d e f : Char} (hdigits : ∀ u ∈ [a, b, c, d, e, f], u.isDigit = true)
    (r : List Char) :
    timeParts (a :: b :: c :: d :: e :: f :: r) = .ok ([a, b], [c, d], [e, f]) := by
  have hlen : ∀ s : List Char, (∀ u ∈ s, u ∈ [a, b, c, d, e, f]) → byteLen s = s.length :=
    fun s hs => byteLen_ascii fun u hu => Plain.ascii_of_isDigit (hdigits u (hs u hu))
  have hh := sliceText_between [] [a, b] (c :: d :: e :: f :: r)
  have hm := sliceText_between [a, b] [c, d] (e :: f :: r)
  have hs := sliceText_between [a, b, c, d] [e, f] r
  rw [hlen _ (by simp), hlen _ (by simp)] at hh hm hs
  rw [timeParts, show sliceText (a :: b :: c :: d :: e :: f :: r) 0 2 = .ok [a, b] from hh,
    show sliceText (a :: b :: c :: d :: e :: f :: r) 2 4 = .ok [c, d] from hm,
    show sliceText (a :: b :: c :: d :: e :: f :: r) 4 6 = .ok [e, f] from hs]
  rfl

/-- What is a number of 32 bits has digits, and a plus in front of them perhaps. -/
theorem of_parseU32 {s : List Char} {v : UInt32} (h : parseU32 s = some v) :
    ∀ c ∈ s, Plain.Ascii c ∧ isWhitespace c = false := by
  have hall : ∀ {t : List Char} {n : ℕ}, parseDigits t = some n →
      ∀ c ∈ t, Plain.Ascii c ∧ isWhitespace c = false := by
    intro t n ht c hc
    rw [parseDigits] at ht
    split_ifs at ht with hdigits
    have hdigit := List.all_eq_true.mp hdigits.2 c hc
    exact ⟨Plain.ascii_of_isDigit hdigit, isWhitespace_of_isDigit hdigit⟩
  rw [parseU32, Option.map_eq_some_iff] at h
  obtain ⟨n, hparse, -⟩ := h
  unfold parseUnsigned at hparse
  have hn := (Option.filter_eq_some_iff.mp hparse).1
  split at hn
  · intro c hc
    rcases List.mem_cons.mp hc with rfl | hc
    · exact ⟨show ('+' : Char).toNat < 128 by decide, by decide⟩
    · exact hall hn c hc
  · exact hall hn

theorem two_of_byteLen {s : List Char} (hlen : byteLen s = 2) {v : UInt32}
    (h : parseU32 s = some v) : ∃ a b, s = [a, b] := by
  rw [byteLen_ascii fun c hc => (of_parseU32 h c hc).1] at hlen
  exact List.length_eq_two.mp hlen

theorem parseU32_digits {s : List Char} (hne : s ≠ []) (hs : ∀ c ∈ s, c.isDigit = true)
    (hlen : s.length ≤ 9) : ∃ v, v.toNat = digitsValue s ∧ parseU32 s = some v := by
  have hlt := digitsValue_lt hs
  have hpow : 10 ^ s.length ≤ 10 ^ 9 := Nat.pow_le_pow_right (by decide) hlen
  have hparse : parseDigits s = some (digitsValue s) := by
    rw [parseDigits, if_pos ⟨hne, List.all_eq_true.mpr hs⟩]
    rfl
  refine ⟨UInt32.ofNat (digitsValue s), ?_, ?_⟩
  · rw [UInt32.toNat_ofNat', Nat.mod_eq_of_lt (by omega)]
  · rw [parseU32, parseUnsigned, hparse, Option.filter_some, if_pos (decide_eq_true (by omega))]
    · rfl
    · rintro t rfl
      cases hs '+' List.mem_cons_self

/-- A time that is read stands in front of its token, and its fraction is a number. -/
theorem of_formatActisenseTimestamp {u p : List Char} (h : formatActisenseTimestamp u = pure p) :
    ∃ a b c d e f r ms, ((splitOnce '.' u).getD (u, ['0', '0', '0'])).1 =
        a :: b :: c :: d :: e :: f :: r ∧
      parseU32 ((splitOnce '.' u).getD (u, ['0', '0', '0'])).2 = some ms ∧
      (∀ t ∈ [a, b, c, d, e, f], isWhitespace t = false) ∧
      p = [a, b, ':', c, d, ':', e, f, ','] ++ Binary64.paddedDigits 3 (ms.toNat % 1000) := by
  rw [formatActisenseTimestamp] at h
  generalize (splitOnce '.' u).getD (u, ['0', '0', '0']) = parts at h ⊢
  obtain ⟨time, frac⟩ := parts
  simp only [ite_throw_eq_pure, bind_eq_pure, check_eq_pure, orError_eq_pure, pure_inj] at h
  obtain ⟨-, ⟨hh, mm, ss⟩, hparts, x, hx, y, hy, z, hz, ms, hms, rfl⟩ := h
  obtain ⟨r, htime, hh2, hm2, hs2⟩ := timeParts_ok hparts
  obtain ⟨a, b, rfl⟩ := two_of_byteLen hh2 hx
  obtain ⟨c, d, rfl⟩ := two_of_byteLen hm2 hy
  obtain ⟨e, f, rfl⟩ := two_of_byteLen hs2 hz
  refine ⟨a, b, c, d, e, f, r, ms, htime, hms, ?_, ?_⟩
  · intro t ht
    have hmem : t ∈ [a, b] ∨ t ∈ [c, d] ∨ t ∈ [e, f] := by
      simpa [or_assoc] using ht
    rcases hmem with ht | ht | ht
    · exact (of_parseU32 hx t ht).2
    · exact (of_parseU32 hy t ht).2
    · exact (of_parseU32 hz t ht).2
  · rw [← toList_padded]
    rfl

/-- Digits in front of a token are its time. -/
theorem formatActisenseTimestamp_digits {u : List Char} {a b c d e f : Char} {r : List Char}
    {ms : UInt32} (hdigits : ∀ t ∈ [a, b, c, d, e, f], t.isDigit = true)
    (htime : ((splitOnce '.' u).getD (u, ['0', '0', '0'])).1 = a :: b :: c :: d :: e :: f :: r)
    (hms : parseU32 ((splitOnce '.' u).getD (u, ['0', '0', '0'])).2 = some ms) :
    formatActisenseTimestamp u =
      pure ([a, b, ':', c, d, ':', e, f, ','] ++ Binary64.paddedDigits 3 (ms.toNat % 1000)) := by
  have hnumber : ∀ x ∈ [a, b, c, d, e, f], ∀ y ∈ [a, b, c, d, e, f],
      ∃ v, parseU32 [x, y] = some v := by
    intro x hx y hy
    have hall : ∀ t ∈ [x, y], t.isDigit = true := by
      simp [hdigits x hx, hdigits y hy]
    obtain ⟨v, -, hv⟩ := parseU32_digits (List.cons_ne_nil x [y]) hall (by simp)
    exact ⟨v, hv⟩
  obtain ⟨x, hx⟩ := hnumber a (by simp) b (by simp)
  obtain ⟨y, hy⟩ := hnumber c (by simp) d (by simp)
  obtain ⟨z, hz⟩ := hnumber e (by simp) f (by simp)
  rw [formatActisenseTimestamp]
  generalize (splitOnce '.' u).getD (u, ['0', '0', '0']) = parts at htime hms ⊢
  obtain ⟨time, frac⟩ := parts
  obtain rfl : time = a :: b :: c :: d :: e :: f :: r := htime
  have hlen : ¬byteLen (a :: b :: c :: d :: e :: f :: r) < 6 := by
    have hle := length_le_byteLen (a :: b :: c :: d :: e :: f :: r)
    simp only [List.length_cons] at hle
    omega
  rw [ite_throw_eq_pure]
  refine ⟨hlen, ?_⟩
  simp only [bind_eq_pure, check_eq_pure, orError_eq_pure, pure_inj]
  refine ⟨_, timeParts_digits hdigits r, x, hx, y, hy, z, hz, ms, hms, ?_⟩
  rw [← toList_padded]
  rfl

/-- Three digits are their number in three places. -/
theorem paddedDigits_three {x y z : Char} (h : ∀ u ∈ [x, y, z], u.isDigit = true) {n : ℕ}
    (hn : n = digitsValue [x, y, z]) : Binary64.paddedDigits 3 (n % 1000) = [x, y, z] := by
  have hvalue : ∀ a b c : Char, Nat.ofDigitChars 10 [a, b, c] 0 = digitsValue [a, b, c] :=
    fun _ _ _ => rfl
  have hlt : n < 1000 :=
    calc n < 10 ^ 3 := hn ▸ digitsValue_lt h
      _ = 1000 := by norm_num
  obtain ⟨a, b, c, habc⟩ := List.length_eq_three.mp
    (@length_paddedDigits 3 n (by omega) (by decide))
  have hdigits := all_isDigit_padded 3 n
  have hread := ofDigitChars_padded 3 n
  rw [Nat.mod_eq_of_lt hlt]
  rw [habc] at hdigits hread ⊢
  rw [hvalue, hn] at hread
  simp only [List.forall_mem_cons] at h hdigits
  have hx := Plain.toNat_of_isDigit h.1
  have hy := Plain.toNat_of_isDigit h.2.1
  have hz := Plain.toNat_of_isDigit h.2.2.1
  have ha := Plain.toNat_of_isDigit hdigits.1
  have hb := Plain.toNat_of_isDigit hdigits.2.1
  have hc := Plain.toNat_of_isDigit hdigits.2.2.1
  simp only [digitsValue, List.foldl_cons, List.foldl_nil] at hread
  rw [Char.toNat_inj.mp (show a.toNat = x.toNat by omega),
    Char.toNat_inj.mp (show b.toNat = y.toNat by omega),
    Char.toNat_inj.mp (show c.toNat = z.toNat by omega)]

/-- A time in full is read, and normalised to itself where it is in range. -/
theorem carries_self (t : List Char) (ht : IsTime t) : Carries t t ↔ TimeInRange t := by
  have hbehind := normalizeTime_behind ht (Or.inr rfl)
  obtain ⟨a, b, c, d, e, f, x, y, z, rfl, hdigits⟩ := ht.form
  have hsix : ∀ u ∈ [a, b, c, d, e, f], u.isDigit = true :=
    fun u hu => hdigits u (List.mem_append_left [x, y, z] hu)
  have hthree : ∀ u ∈ [x, y, z], u.isDigit = true :=
    fun u hu => hdigits u (List.mem_append_right [a, b, c, d, e, f] hu)
  have hne : ∀ u ∈ [a, b, c, d, e, f, x, y, z], u ≠ ':' ∧ u ≠ '.' ∧ isWhitespace u = false := by
    intro u hu
    refine ⟨?_, ?_, isWhitespace_of_isDigit (hdigits u hu)⟩
    · rintro rfl
      cases hdigits ':' hu
    · rintro rfl
      cases hdigits '.' hu
  simp only [List.forall_mem_cons] at hne
  obtain ⟨ha, hb, hc, hd, he, hf, hx, hy, hz, -⟩ := hne
  have hfilter : [a, b, ':', c, d, ':', e, f, '.', x, y, z].filter (· ≠ ':') =
      [a, b, c, d, e, f, '.', x, y, z] := by
    simp [ha, hb, hc, hd, he, hf, hx, hy, hz]
  have htoken : IsToken ['A', a, b, c, d, e, f, '.', x, y, z] := by
    refine ⟨List.cons_ne_nil _ _, ?_⟩
    simp [ha, hb, hc, hd, he, hf, hx, hy, hz]
    decide
  have hsplit : splitOnce '.' [a, b, c, d, e, f, '.', x, y, z] =
      some ([a, b, c, d, e, f], [x, y, z]) := by
    simp [splitOnce, ha, hb, hc, hd, he, hf]
  obtain ⟨ms, hvalue, hms⟩ := parseU32_digits (List.cons_ne_nil x [y, z]) hthree (by simp)
  have hformat : formatActisenseTimestamp [a, b, c, d, e, f, '.', x, y, z] =
      pure [a, b, ':', c, d, ':', e, f, ',', x, y, z] := by
    have h := @formatActisenseTimestamp_digits [a, b, c, d, e, f, '.', x, y, z] a b c d e f [] ms
      hsix (by rw [hsplit]; rfl) (by rw [hsplit]; exact hms)
    rwa [paddedDigits_three hthree hvalue] at h
  have hnormal : NormalisesTo [a, b, ':', c, d, ':', e, f, ',', x, y, z]
      [a, b, ':', c, d, ':', e, f, '.', x, y, z] ↔
        TimeInRange [a, b, ':', c, d, ':', e, f, '.', x, y, z] := by
    rw [normalisesTo_comma _ rfl rfl ht]
    · rw [show normalizeTime [a, b, ':', c, d, ':', e, f, ',', x, y, z] = _ from hbehind]
      split_ifs with hrange
      · exact iff_of_true rfl hrange
      · exact iff_of_false (by rintro ⟨⟩) hrange
    · simp [ha, hb, hc, hd, he, hf, hx, hy, hz]
      decide
  rw [Carries, hfilter, splitWhitespace_token htoken]
  constructor
  · rintro ⟨u, p, hu, -, hp, h⟩
    obtain rfl : [a, b, c, d, e, f, '.', x, y, z] = u := by
      simpa using hu
    rw [hformat, pure_inj] at hp
    rw [← hp] at h
    exact hnormal.mp h
  · intro h
    refine ⟨_, _, rfl, ?_, hformat, hnormal.mpr h⟩
    have hle := length_le_byteLen [a, b, c, d, e, f, '.', x, y, z]
    exact Nat.le_trans (by simp) hle

/-- What stands before the point, if there is one. -/
theorem splitOnce_prefix (u frac : List Char) : ((splitOnce '.' u).getD (u, frac)).1 <+: u := by
  rw [splitOnce]
  split
  · exact List.prefix_refl u
  · exact List.takeWhile_prefix _

/-- Midnight is read of six zeros. -/
theorem carries_midnight (w : List Char) : Carries w midnight ↔ ReadsMidnight w := by
  rw [Carries, ReadsMidnight]
  constructor
  · rintro ⟨u, p, hu, -, hp, hnormal⟩
    obtain ⟨a, b, c, d, e, f, r, ms, htime, hms, hblank, rfl⟩ := of_formatActisenseTimestamp hp
    obtain ⟨x, y, z, hxyz⟩ := List.length_eq_three.mp
      (@length_paddedDigits 3 (ms.toNat % 1000) (Nat.mod_lt _ (by decide)) (by decide))
    have hthree := all_isDigit_padded 3 (ms.toNat % 1000)
    have hread := ofDigitChars_padded 3 (ms.toNat % 1000)
    rw [hxyz] at hthree hread hnormal
    have hclean : ∀ t ∈ [a, b, ':', c, d, ':', e, f, ','] ++ [x, y, z], isWhitespace t = false := by
      intro t ht
      simp only [List.forall_mem_cons] at hblank hthree
      simp only [List.cons_append, List.nil_append, List.mem_cons, List.not_mem_nil, or_false] at ht
      rcases ht with rfl | rfl | rfl | rfl | rfl | rfl | rfl | rfl | rfl | rfl | rfl | rfl
      case inr.inr.inl | inr.inr.inr.inr.inr.inl | inr.inr.inr.inr.inr.inr.inr.inr.inl => decide
      case inr.inr.inr.inr.inr.inr.inr.inr.inr.inl => exact isWhitespace_of_isDigit hthree.1
      case inr.inr.inr.inr.inr.inr.inr.inr.inr.inr.inl => exact isWhitespace_of_isDigit hthree.2.1
      case inr.inr.inr.inr.inr.inr.inr.inr.inr.inr.inr =>
        exact isWhitespace_of_isDigit hthree.2.2.1
      all_goals simp [hblank]
    rw [normalisesTo_comma hclean rfl rfl isTime_midnight.1] at hnormal
    -- what is normalised has digits
    have hfits := (normalizeTime_form hnormal).1
    have hform : IsTime [a, b, ':', c, d, ':', e, f, '.', x, y, z] := by
      simp only [List.forall_mem_cons] at hthree
      simp [fits] at hfits
      simp [IsTime, fits, hfits, hthree]
    have hbehind : normalizeTime ([a, b, ':', c, d, ':', e, f, ','] ++ [x, y, z]) = _ :=
      normalizeTime_behind hform (Or.inr rfl)
    rw [hnormal] at hbehind
    split_ifs at hbehind with hrange
    have hzeros : midnight = [a, b, ':', c, d, ':', e, f, '.', x, y, z] := Option.some.inj hbehind
    rw [show midnight = ['0', '0', ':', '0', '0', ':', '0', '0', '.', '0', '0', '0'] from rfl] at hzeros
    simp only [List.cons.injEq, and_true, true_and] at hzeros
    obtain ⟨rfl, rfl, rfl, rfl, rfl, rfl, rfl, rfl, rfl⟩ := hzeros
    refine ⟨u, hu, ?_, ?_⟩
    · have hprefix := splitOnce_prefix u ['0', '0', '0']
      rw [htime] at hprefix
      exact List.IsPrefix.trans ⟨r, rfl⟩ hprefix
    · intro a frac hsplit
      rw [hsplit] at hms
      exact ⟨ms, hms, hread.symm⟩
  · rintro ⟨u, hu, ⟨s, rfl⟩, hfrac⟩
    have hzero : ∀ t ∈ ['0', '0', '0', '0', '0', '0'], t.isDigit = true :=
      List.all_eq_true.mp (by decide)
    have hlong : 6 ≤ byteLen ("000000".toList ++ s) := by
      rw [byteLen_append]
      exact Nat.le_add_right 6 _
    obtain ⟨r, ms, htime, hms, hmod⟩ : ∃ r ms,
        ((splitOnce '.' ("000000".toList ++ s)).getD ("000000".toList ++ s, ['0', '0', '0'])).1 =
          '0' :: '0' :: '0' :: '0' :: '0' :: '0' :: r ∧
        parseU32 ((splitOnce '.' ("000000".toList ++ s)).getD
          ("000000".toList ++ s, ['0', '0', '0'])).2 = some ms ∧ ms.toNat % 1000 = 0 := by
      cases hsplit : splitOnce '.' ("000000".toList ++ s) with
      | none => exact ⟨s, 0, rfl, show parseU32 ['0', '0', '0'] = some 0 by decide, by decide⟩
      | some parts =>
          obtain ⟨a, frac⟩ := parts
          obtain ⟨ms, hms, hmod⟩ := hfrac a frac hsplit
          refine ⟨s.takeWhile (· ≠ '.'), ms, ?_, hms, hmod⟩
          rw [splitOnce] at hsplit
          split at hsplit
          · cases hsplit
          · exact (congrArg Prod.fst (Option.some.inj hsplit)).symm
    have hformat := formatActisenseTimestamp_digits hzero htime hms
    rw [hmod] at hformat
    refine ⟨_, _, hu, hlong, hformat, ?_⟩
    have hnormal : normalizeTimestamp (['0', '0', ':', '0', '0', ':', '0', '0', ','] ++
        Binary64.paddedDigits 3 0) = midnight := by decide
    exact .inl hnormal

/-! ## The message -/

def sdp (f : RawFrame) : UInt32 :=
  (f.src.toUInt32 <<< 12) ||| (f.dst.toUInt32 <<< 4) ||| f.prio.toUInt32

/-- The payload as one token, if there is any. -/
def payloadTokens (f : RawFrame) : List (List Char) :=
  if f.data = [] then [] else [f.data.flatMap fun b => paddedHex 2 b.toNat]

/-- The line behind its time. -/
def message (f : RawFrame) : List Char :=
  upperHex (sdp f).toNat ++ ' ' :: (upperHex f.pgn.toNat ++
    if f.data = [] then [] else ' ' :: f.data.flatMap fun b => paddedHex 2 b.toNat)

theorem writeLine_ok_iff {f : RawFrame} {line : List Char} :
    writeLine f = .ok line ↔ ∃ w, timeOfDay (f.timestamp.map (·.toList)) = .ok w ∧
      line = 'A' :: w.filter (· ≠ ':') ++ ' ' :: message f := by
  rw [writeLine, Fault.bind_ok_iff]
  refine exists_congr fun w => and_congr_right fun _ => ?_
  constructor
  · intro h
    exact (Except.ok.inj h).symm
  · rintro rfl
    rfl

theorem isToken_upperHex (n : ℕ) : IsToken (upperHex n) := by
  rw [← paddedHex_zero]
  exact isToken_paddedHex 0 n

theorem tokens_message (f : RawFrame) : splitWhitespace (message f) =
    upperHex (sdp f).toNat :: upperHex f.pgn.toNat :: payloadTokens f := by
  rw [message, splitWhitespace_append, splitWhitespace_token (isToken_upperHex _), payloadTokens]
  split_ifs with hdata
  · rw [List.append_nil, splitWhitespace_token (isToken_upperHex _)]
    rfl
  · have htoken : IsToken (f.data.flatMap fun b => paddedHex 2 b.toNat) := by
      constructor
      · intro hnil
        obtain ⟨b, l, hl⟩ := List.exists_cons_of_ne_nil hdata
        rw [hl, List.flatMap_cons] at hnil
        exact paddedHex_ne_nil 2 b.toNat (List.append_eq_nil_iff.mp hnil).1
      · intro c hc
        obtain ⟨b, -, hc⟩ := List.mem_flatMap.mp hc
        exact (isUpperHex_of_mem hc).spec.2.1
    rw [splitWhitespace_append, splitWhitespace_token (isToken_upperHex _),
      splitWhitespace_token htoken]
    rfl

theorem tokens_line (w : List Char) (f : RawFrame) :
    splitWhitespace (trimNewlines (w ++ ' ' :: message f)) = splitWhitespace w ++
      upperHex (sdp f).toNat :: upperHex f.pgn.toNat :: payloadTokens f := by
  have hhex : ∀ n, ∀ c ∈ upperHex n, c ≠ '\r' ∧ c ≠ '\n' := by
    intro n c hc
    have hblank := (isToken_upperHex n).2 c hc
    constructor
    · rintro rfl
      cases hblank
    · rintro rfl
      cases hblank
  have hclean : ∀ c ∈ ' ' :: message f, c ≠ '\r' ∧ c ≠ '\n' := by
    intro c hc
    rw [message, List.mem_cons, List.mem_append, List.mem_cons, List.mem_append] at hc
    rcases hc with rfl | hc | rfl | hc | hc
    · decide
    · exact hhex _ c hc
    · decide
    · exact hhex _ c hc
    · split_ifs at hc
      · cases hc
      · rcases List.mem_cons.mp hc with rfl | hc
        · decide
        · obtain ⟨b, -, hc⟩ := List.mem_flatMap.mp hc
          have hblank := (isUpperHex_of_mem hc).spec.2.1
          constructor
          · rintro rfl
            cases hblank
          · rintro rfl
            cases hblank
  rw [trimNewlines_append (List.cons_ne_nil _ _) hclean, splitWhitespace_append, tokens_message]

/-- A frame is read from a time, two numbers and payload. -/
theorem parseLine_pure_iff {line : List Char} {g : RawFrame} :
    parseLine line = pure g ↔ trimNewlines line ≠ [] ∧
      ∃ tok, (splitWhitespace (trimNewlines line))[0]? = some tok ∧
      ¬(tok.head? ≠ some 'A' ∨ byteLen tok < 7) ∧
      ∃ rest, sliceText tok 1 (byteLen tok) = .ok rest ∧
      ∃ ts, formatActisenseTimestamp rest = pure ts ∧
      ∃ sdpTok, (splitWhitespace (trimNewlines line))[1]? = some sdpTok ∧
      ∃ sdp, parseHex 4294967295 sdpTok = some sdp ∧
      ∃ pgnTok, (splitWhitespace (trimNewlines line))[2]? = some pgnTok ∧
      ∃ pgn, parseHex 4294967295 pgnTok = some pgn ∧
      ∃ data, ((splitWhitespace (trimNewlines line)).drop 3).foldlM appendToken [] = pure data ∧
      { timestamp := some (String.ofList ts), prio := (UInt32.ofNat sdp &&& 0xf).toUInt8,
        pgn := UInt32.ofNat pgn, src := ((UInt32.ofNat sdp >>> 12) &&& 0xff).toUInt8,
        dst := ((UInt32.ofNat sdp >>> 4) &&& 0xff).toUInt8, data } = g := by
  rw [parseLine, ite_throw_eq_pure]
  refine and_congr Iff.rfl ?_
  simp only [bind_eq_pure, orError_eq_pure, check_eq_pure, pure_inj, ite_throw_eq_pure]

/-- The numbers of a frame out of its second token. -/
theorem fields_of_sdp {f : RawFrame} (hprio : f.prio.toNat ≤ 15) :
    ((sdp f) &&& 0xf).toUInt8 = f.prio ∧ ((sdp f >>> 12) &&& 0xff).toUInt8 = f.src ∧
      ((sdp f >>> 4) &&& 0xff).toUInt8 = f.dst := by
  have hs := f.src.toNat_lt
  have hd := f.dst.toNat_lt
  have h12 : (f.src.toUInt32 <<< 12).toNat = f.src.toNat * 2 ^ 12 := by
    rw [toNat_shiftLeft _ _ (k := 12) rfl (by decide) (by rw [UInt8.toNat_toUInt32]; omega),
      UInt8.toNat_toUInt32]
  have h4 : (f.dst.toUInt32 <<< 4).toNat = f.dst.toNat * 2 ^ 4 := by
    rw [toNat_shiftLeft _ _ (k := 4) rfl (by decide) (by rw [UInt8.toNat_toUInt32]; omega),
      UInt8.toNat_toUInt32]
  have hdst : f.dst.toNat * 2 ^ 4 < 2 ^ 12 := by omega
  have hlow : f.prio.toNat < 2 ^ 4 := by omega
  have hnum : (sdp f).toNat = f.src.toNat * 4096 + f.dst.toNat * 16 + f.prio.toNat := by
    rw [sdp, UInt32.toNat_or, UInt32.toNat_or, h12, h4, UInt8.toNat_toUInt32,
      Nat.lor_comm (f.src.toNat * 2 ^ 12), or_mul_two_pow hdst, Nat.lor_comm,
      show f.dst.toNat * 2 ^ 4 + f.src.toNat * 2 ^ 12 =
        (f.dst.toNat + f.src.toNat * 256) * 2 ^ 4 by ring, or_mul_two_pow hlow]
    ring
  refine ⟨?_, ?_, ?_⟩ <;> apply UInt8.toNat_inj.mp
  · rw [toUInt8_and_mask _ _ (k := 4) rfl (by decide), hnum]
    omega
  · rw [toUInt8_and_mask _ _ (k := 8) rfl (by decide),
      toNat_shiftRight _ _ (k := 12) rfl (by decide), hnum]
    omega
  · rw [toUInt8_and_mask _ _ (k := 8) rfl (by decide),
      toNat_shiftRight _ _ (k := 4) rfl (by decide), hnum]
    omega

/-- What stands behind the `A`, in its token. -/
theorem tokens_time (s : List Char) : ∃ u toks, splitWhitespace ('A' :: s) = ('A' :: u) :: toks := by
  have hA : ¬isWhitespace 'A' = true := by decide
  obtain ⟨x, l, hl⟩ := List.exists_cons_of_ne_nil (List.splitOnP_ne_nil isWhitespace s)
  rw [splitWhitespace, List.splitOnP_cons_eq_if_modifyHead, if_neg hA, hl, List.modifyHead_cons]
  exact ⟨x, _, List.filter_cons_of_pos (decide_eq_true (List.cons_ne_nil _ _))⟩

theorem length_of_payload {l : List (List Char)} {acc out : List UInt8}
    (h : l.foldlM appendToken acc = pure out) :
    out.length = acc.length + (l.map fun t => (byteLen t + 1) / 2).sum :=
  length_of_foldlM (fun acc t out ht => by
    obtain ⟨heven, hlen⟩ := length_of_appendToken ht
    rw [hlen]
    omega) h

theorem appendToken_payload (f : RawFrame) :
    (payloadTokens f).foldlM appendToken [] = pure f.data := by
  rw [payloadTokens]
  split_ifs with hdata
  · rw [hdata, List.foldlM_nil]
  · rw [List.foldlM_cons, appendToken_hex, pure_bind, List.foldlM_nil, List.nil_append]

/-- The message comes back, and the time where it fits in its token. -/
theorem roundTrips_iff_carries {f : RawFrame} (hprio : f.prio.toNat ≤ 15) :
    RoundTrips writeLine parseLine f ↔ ∃ w, timeOfDay (f.timestamp.map (·.toList)) = .ok w ∧
      Carries w (givenTime (f.timestamp.map (·.toList))) := by
  have hsdp : parseHex 4294967295 (upperHex (sdp f).toNat) = some (sdp f).toNat := by
    have hlt := (sdp f).toNat_lt
    exact parseHex_upperHex (by omega)
  have hpgn : parseHex 4294967295 (upperHex f.pgn.toNat) = some f.pgn.toNat := by
    have hlt := f.pgn.toNat_lt
    exact parseHex_upperHex (by omega)
  constructor
  · rintro ⟨line, g, p, hline, hparse, hsame, hp, hnormal⟩
    obtain ⟨w, hw, rfl⟩ := writeLine_ok_iff.mp hline
    obtain ⟨-, tok, htok, hlong, rest, hrest, ts, hts, sdpTok, -, sdp', -, pgnTok, -, pgn, -, data,
      hdata, rfl⟩ := parseLine_pure_iff.mp hparse
    rw [tokens_line] at htok hdata
    obtain rfl : p = String.ofList ts := (Option.some.inj hp).symm
    rw [String.toList_ofList] at hnormal
    obtain ⟨u, toks, htoks⟩ := tokens_time (w.filter (· ≠ ':'))
    rw [htoks] at htok hdata
    obtain rfl := Option.some.inj htok
    obtain rfl : u = rest := by
      rw [show sliceText ('A' :: u) 1 (byteLen ('A' :: u)) = .ok u from sliceText_append ['A'] u]
        at hrest
      exact Except.ok.inj hrest
    rw [not_or, Nat.not_lt] at hlong
    have hbytes : 6 ≤ byteLen u := by
      have hA : byteLen ('A' :: u) = 1 + byteLen u := rfl
      omega
    cases toks with
    | nil => exact ⟨w, hw, u, ts, htoks, hbytes, hts, hnormal⟩
    | cons t toks =>
        -- one more token makes the payload longer
        have hlength : data.length = f.data.length := congrArg List.length hsame.2.2.2.2
        have hread := length_of_payload hdata
        have hown := length_of_payload (appendToken_payload f)
        have hpos : 0 < byteLen (upperHex f.pgn.toNat) := by
          have hle := length_le_byteLen (upperHex f.pgn.toNat)
          have hne := List.length_pos_iff.mpr (isToken_upperHex f.pgn.toNat).1
          omega
        have hsplit : ∃ extra, (('A' :: u) :: t :: toks ++ upperHex (sdp f).toNat ::
            upperHex f.pgn.toNat :: payloadTokens f).drop 3 =
              extra ++ upperHex f.pgn.toNat :: payloadTokens f := by
          cases toks with
          | nil => exact ⟨[], rfl⟩
          | cons t' toks =>
              refine ⟨toks ++ [upperHex (sdp f).toNat], ?_⟩
              rw [List.append_assoc]
              rfl
        obtain ⟨extra, hextra⟩ := hsplit
        rw [hextra, List.map_append, List.sum_append, List.map_cons, List.sum_cons, hlength] at hread
        simp only [List.length_nil, Nat.zero_add] at hread hown
        omega
  · rintro ⟨w, hw, u, ts, htoks, hbytes, hts, hnormal⟩
    have htokens := tokens_line ('A' :: w.filter (· ≠ ':')) f
    rw [htoks] at htokens
    have hne : trimNewlines ('A' :: w.filter (· ≠ ':') ++ ' ' :: message f) ≠ [] := by
      intro hnil
      rw [hnil] at htokens
      cases htokens
    have hlong : ¬(('A' :: u).head? ≠ some 'A' ∨ byteLen ('A' :: u) < 7) := by
      have hA : byteLen ('A' :: u) = 1 + byteLen u := rfl
      rw [not_or, not_not, Nat.not_lt, hA]
      exact ⟨rfl, by omega⟩
    obtain ⟨hp, hsrc, hdst⟩ := fields_of_sdp hprio
    refine ⟨_, _, String.ofList ts, writeLine_ok_iff.mpr ⟨w, hw, rfl⟩, parseLine_pure_iff.mpr
      ⟨hne, 'A' :: u, by rw [htokens]; rfl, hlong, u, sliceText_append ['A'] u, ts, hts, _,
        by rw [htokens]; rfl, _, hsdp, _, by rw [htokens]; rfl, _, hpgn, f.data, ?_, rfl⟩, ?_, rfl, ?_⟩
    · rw [htokens]
      exact appendToken_payload f
    · rw [UInt32.ofNat_toNat, UInt32.ofNat_toNat]
      exact ⟨hp, rfl, hsrc, hdst, rfl⟩
    · rwa [String.toList_ofList]

end ActisenseAscii

/-- **A line brings back the message of its frame and the time of day of its timestamp, where
that time is in range and no unrecognised timestamp looks like one.** For YDWG-02 the host's date
needs a year of four digits. -/
theorem lines_round_trip_iff (clock : Option UInt64) (f : RawFrame) :
    (f.prio.toNat < 8 → CarriablePgn f.pgn → (240 ≤ pduFormat f.pgn → f.dst = 0xff) →
      (RoundTrips Ydwg02.writeLine (Ydwg02.parseLine clock) f ↔ Ydwg02.FourDigitYear clock ∧
        TimeHeld Ydwg02.ReadsMidnight (f.timestamp.map (·.toList)))) ∧
    (f.prio.toNat ≤ 15 →
      (RoundTrips ActisenseAscii.writeLine ActisenseAscii.parseLine f ↔
        TimeHeld ActisenseAscii.ReadsMidnight (f.timestamp.map (·.toList)))) := by
  constructor
  · intro hprio hpgn hdst
    rw [Ydwg02.roundTrips_iff_carries clock hprio hpgn hdst,
      timeHeld_iff Ydwg02.carries_self fun w =>
        show Ydwg02.Carries w midnight ↔ Ydwg02.ReadsMidnight w from Iff.rfl]
  · intro hprio
    rw [ActisenseAscii.roundTrips_iff_carries hprio,
      timeHeld_iff ActisenseAscii.carries_self ActisenseAscii.carries_midnight]

/-- A heading at some time. -/
def headingAt (ts : String) : RawFrame where
  timestamp := some ts
  prio := 2
  pgn := 127250
  src := 35
  dst := 255
  data := [0xff, 0x10, 0x27, 0xff, 0x7f, 0xff, 0x7f, 0xfd]

theorem lines_round_trip_noon :
    RoundTrips Ydwg02.writeLine (Ydwg02.parseLine (some 1767225600))
        (headingAt "2026-01-01-12:00:00,5") ∧
      RoundTrips ActisenseAscii.writeLine ActisenseAscii.parseLine
        (headingAt "2026-01-01-12:00:00,5") := by
  have hheld : ∀ reads, TimeHeld reads (some "2026-01-01-12:00:00,5".toList) := by
    rintro reads raw ⟨⟩
    rw [if_pos (by decide)]
    decide
  obtain ⟨hydwg, hactisense⟩ := lines_round_trip_iff (some 1767225600)
    (headingAt "2026-01-01-12:00:00,5")
  exact ⟨(hydwg (by decide) (by decide) (fun _ => rfl)).mpr ⟨⟨by decide, by decide⟩, hheld _⟩,
    (hactisense (by decide)).mpr (hheld _)⟩

/-- A time of day that is none is written as it stands. -/
theorem not_lines_round_trip :
    ¬RoundTrips Ydwg02.writeLine (Ydwg02.parseLine (some 1767225600)) (headingAt "99:99:99.999") ∧
      ¬RoundTrips ActisenseAscii.writeLine ActisenseAscii.parseLine (headingAt "99:99:99.999") := by
  have hgiven : givenTime (some "99:99:99.999".toList) = midnight := by decide
  have hwritten : timeOfDay (some "99:99:99.999".toList) = .ok "99:99:99.999".toList := by decide
  constructor
  · rw [Ydwg02.roundTrips_iff_carries _ (by decide) (by decide) fun _ => rfl]
    rintro ⟨-, w, hw, t, ht, hfound⟩
    obtain rfl : "99:99:99.999".toList = w := Except.ok.inj (hwritten.symm.trans hw)
    obtain rfl : "99:99:99.999".toList = t := by
      rw [show splitWhitespace "99:99:99.999".toList = ["99:99:99.999".toList] by decide] at ht
      exact List.head_eq_of_cons_eq ht
    rw [show normalizeTime "99:99:99.999".toList = none by decide] at hfound
    cases hfound
  · rw [ActisenseAscii.roundTrips_iff_carries (by decide)]
    rintro ⟨w, hw, h⟩
    obtain rfl : "99:99:99.999".toList = w := Except.ok.inj (hwritten.symm.trans hw)
    rw [show givenTime ((headingAt "99:99:99.999").timestamp.map (·.toList)) = midnight from hgiven,
      ActisenseAscii.carries_midnight] at h
    obtain ⟨u, hu, hzeros, -⟩ := h
    rw [show splitWhitespace ('A' :: "99:99:99.999".toList.filter (· ≠ ':')) =
      ["A999999.999".toList] by decide] at hu
    obtain rfl : "999999.999".toList = u := List.cons.inj (List.head_eq_of_cons_eq hu) |>.2
    exact absurd hzeros (by decide)

end Canboat
