import Canboat.Core.Utf8
import Canboat.Format.Readers

/-!
# One instant

Where the readers of timestamps agree: on every timestamp that this program writes, and on a
captured one if its seconds and its fraction have the usual number of digits.
-/

namespace Canboat

open Checked Plain

/-! ## Parts of a timestamp -/

/-- A timestamp with a date, part by part. -/
structure Places where
  y : List Char
  mo : List Char
  d : List Char
  sep : Char
  h : List Char
  mi : List Char
  s : List Char
  rest : List Char

namespace Places

/-- The part that has its places. -/
def front (q : Places) : List Char :=
  q.y ++ '-' :: (q.mo ++ '-' :: (q.d ++ q.sep :: (q.h ++ ':' :: (q.mi ++ ':' :: q.s))))

def text (q : Places) : List Char := q.front ++ q.rest

/-- The parts are as wide as the places are, and are numbers. -/
structure Reads (q : Places) (parse : List Char → Option ℤ) (f : TimeFields) : Prop where
  width : q.y.length = 4 ∧ q.mo.length = 2 ∧ q.d.length = 2 ∧ q.h.length = 2 ∧ q.mi.length = 2 ∧
    q.s.length = 2
  sep : q.sep = 'T' ∨ q.sep = '-' ∨ q.sep = ' '
  y : parseI64Int q.y = some f.y
  mo : parse q.mo = some f.mo
  d : parse q.d = some f.d
  h : parse q.h = some f.h
  mi : parse q.mi = some f.mi
  s : parse q.s = some f.s
  ms : f.ms = fractionRead (utf8Bytes q.text)

end Places

theorem utf8Bytes_of_fromUtf8 {b : List UInt8} {t : List Char} (h : fromUtf8 b = some t) :
    utf8Bytes t = b := by
  rw [fromUtf8] at h
  split_ifs at h with heq
  rw [← Option.some.inj h]
  exact heq

theorem utf8Bytes_cons {c : Char} (hc : Ascii c) (s : List Char) :
    utf8Bytes (c :: s) = UInt8.ofNat c.toNat :: utf8Bytes s := by
  rw [utf8Bytes, List.flatMap_cons, utf8EncodeChar_ascii hc]
  rfl

/-- What is a number is of ASCII. -/
theorem ascii_of_number {s : List Char} {v : ℤ} (h : parseI64Int s = some v) :
    ∀ c ∈ s, Ascii c := by
  rcases ascii_of_parseI64Int h with ⟨t, rfl, -, ht, -⟩ | ⟨t, rfl, -, ht, -⟩ | ⟨-, ht, -⟩
  · exact List.forall_mem_cons.mpr
      ⟨show '-'.toNat < 128 by decide, fun c hc => ascii_of_isDigit (ht c hc)⟩
  · exact List.forall_mem_cons.mpr
      ⟨show '+'.toNat < 128 by decide, fun c hc => ascii_of_isDigit (ht c hc)⟩
  · exact fun c hc => ascii_of_isDigit (ht c hc)

/-- A piece of the bytes that is read as a number of ASCII. -/
theorem piece_of_number {parse : List Char → Option ℤ}
    (hascii : ∀ t v, parse t = some v → ∀ c ∈ t, Ascii c) {b : List UInt8} {i j : ℕ} {v : ℤ}
    (h : ∃ t, fromUtf8 ((b.take j).drop i) = some t ∧ parse t = some v) (hij : i ≤ j) (hj : j ≤ b.length) :
    ∃ t, parse t = some v ∧ (∀ c ∈ t, Ascii c) ∧ t.length = j - i ∧
      b.take j = b.take i ++ utf8Bytes t := by
  obtain ⟨t, ht, hv⟩ := h
  have hbytes := utf8Bytes_of_fromUtf8 ht
  have hlen := congrArg List.length hbytes
  rw [utf8Bytes_ascii (hascii t v hv), List.length_map, List.length_drop, List.length_take,
    Nat.min_eq_left hj] at hlen
  refine ⟨t, hv, hascii t v hv, hlen, ?_⟩
  have hsplit := List.take_append_drop i (b.take j)
  rw [List.take_take, Nat.min_eq_left hij] at hsplit
  rw [hbytes, hsplit]

theorem take_mark {b : List UInt8} {i : ℕ} {c : Char} (hc : Ascii c)
    (h : b[i]? = some (UInt8.ofNat c.toNat)) : b.take (i + 1) = b.take i ++ utf8Bytes [c] := by
  rw [List.take_add_one, h, utf8Bytes_cons hc]
  rfl

section

variable {parse : List Char → Option ℤ} {part : List UInt8 → ℕ → ℕ → Option ℤ} {s : List Char}
  {f : TimeFields}

/-- What is read by places stands in its places. -/
theorem places_of_fields (hpart : ∀ b i j, part b i j = (fromUtf8 ((b.take j).drop i)).bind parse)
    (hascii : ∀ t v, parse t = some v → ∀ c ∈ t, Ascii c) (h : fieldsByPlace part s = some f) :
    ∃ q : Places, s = q.text ∧ q.Reads parse f := by
  rw [fieldsByPlace] at h
  generalize hb : utf8Bytes s = b at h
  by_cases hlen : b.length < 19
  · rw [if_pos hlen] at h
    cases h
  rw [if_neg hlen] at h
  simp only [Option.bind_eq_bind, Option.bind_eq_some_iff, hpart] at h
  obtain ⟨y, hy, mo, hmo, d, hd, h', hh, mi, hmi, sec, hs, hrest⟩ := h
  split_ifs at hrest with hmarks
  cases hrest
  obtain ⟨h₄, hmarks⟩ := not_or.mp hmarks
  obtain ⟨h₇, hmarks⟩ := not_or.mp hmarks
  obtain ⟨h₁₀, hmarks⟩ := not_or.mp hmarks
  obtain ⟨h₁₃, h₁₆⟩ := not_or.mp hmarks
  rw [not_not] at h₄ h₇ h₁₀ h₁₃ h₁₆
  obtain ⟨ty, hy, hya, hyl, hyb⟩ := piece_of_number (fun t v => ascii_of_number)
    (Option.bind_eq_some_iff.mp hy) (Nat.zero_le 4) (by omega)
  obtain ⟨tmo, hmo, hmoa, hmol, hmob⟩ := piece_of_number hascii hmo (by decide) (by omega)
  obtain ⟨td, hd, hda, hdl, hdb⟩ := piece_of_number hascii hd (by decide) (by omega)
  obtain ⟨th, hh, hha, hhl, hhb⟩ := piece_of_number hascii hh (by decide) (by omega)
  obtain ⟨tmi, hmi, hmia, hmil, hmib⟩ := piece_of_number hascii hmi (by decide) (by omega)
  obtain ⟨ts, hs, hsa, hsl, hsb⟩ := piece_of_number hascii hs (by decide) (by omega)
  obtain ⟨sep, hsep, hsepa, hsepb⟩ : ∃ sep : Char, (sep = 'T' ∨ sep = '-' ∨ sep = ' ') ∧
      Ascii sep ∧ b[10]? = some (UInt8.ofNat sep.toNat) := by
    rcases h₁₀ with h | h | h
    · exact ⟨'T', .inl rfl, show 'T'.toNat < 128 by decide, h⟩
    · exact ⟨'-', .inr (.inl rfl), show '-'.toNat < 128 by decide, h⟩
    · exact ⟨' ', .inr (.inr rfl), show ' '.toNat < 128 by decide, h⟩
  have hdash : Ascii '-' := show '-'.toNat < 128 by decide
  have hcolon : Ascii ':' := show ':'.toNat < 128 by decide
  obtain ⟨q, hq⟩ : ∃ q : Places, q = ⟨ty, tmo, td, sep, th, tmi, ts, s.drop 19⟩ := ⟨_, rfl⟩
  have hfront : utf8Bytes q.front = b.take 19 := by
    have hchain : q.front = ty ++ ['-'] ++ tmo ++ ['-'] ++ td ++ [sep] ++ th ++ [':'] ++ tmi ++
        [':'] ++ ts := by
      rw [hq, Places.front]
      simp
    rw [hsb, take_mark hcolon h₁₆, hmib, take_mark hcolon h₁₃, hhb, take_mark hsepa hsepb, hdb,
      take_mark hdash h₇, hmob, take_mark hdash h₄, hyb, hchain]
    simp only [utf8Bytes_append, List.take_zero, List.nil_append]
  have hfa : ∀ c ∈ q.front, Ascii c := by
    rw [hq, Places.front]
    simp only [List.forall_mem_append, List.forall_mem_cons]
    exact ⟨hya, hdash, hmoa, hdash, hda, hsepa, hha, hcolon, hmia, hcolon, hsa⟩
  have hfl : q.front.length = 19 := by
    rw [hq, Places.front]
    simp only [List.length_append, List.length_cons]
    omega
  have htext : s = q.text := by
    have hprefix : q.front <+: s := by
      apply prefix_of_utf8Bytes_prefix hfa
      rw [hfront, hb]
      exact List.take_prefix _ _
    obtain ⟨rest, hrest⟩ := hprefix
    rw [Places.text, ← hrest, List.append_cancel_left_eq, hq]
    dsimp only
    rw [← hrest, List.drop_left' hfl]
  refine ⟨q, htext, ?_⟩
  rw [hq] at htext ⊢
  exact ⟨⟨hyl, hmol, hdl, hhl, hmil, hsl⟩, hsep, hy, hmo, hd, hh, hmi, hs, by rw [← htext, hb]⟩

/-- What stands in its places is read by places. -/
theorem fields_of_places (hpart : ∀ b i j, part b i j = (fromUtf8 ((b.take j).drop i)).bind parse)
    (hascii : ∀ t v, parse t = some v → ∀ c ∈ t, Ascii c) {q : Places} (h : q.Reads parse f) :
    fieldsByPlace part q.text = some f := by
  obtain ⟨y, mo, d, sep, h', mi, sec, rest⟩ := q
  obtain ⟨⟨hyl, hmol, hdl, hhl, hmil, hsl⟩, hsep, hy, hmo, hd, hh, hmi, hs, hms⟩ := h
  dsimp only at hyl hmol hdl hhl hmil hsl hsep hy hmo hd hh hmi hs
  obtain ⟨y₀, y', rfl⟩ := List.exists_cons_of_length_eq_add_one hyl
  obtain ⟨y₁, y₂, y₃, rfl⟩ := List.length_eq_three.mp (Nat.succ.inj hyl)
  obtain ⟨mo₀, mo₁, rfl⟩ := List.length_eq_two.mp hmol
  obtain ⟨d₀, d₁, rfl⟩ := List.length_eq_two.mp hdl
  obtain ⟨h₀, h₁, rfl⟩ := List.length_eq_two.mp hhl
  obtain ⟨mi₀, mi₁, rfl⟩ := List.length_eq_two.mp hmil
  obtain ⟨s₀, s₁, rfl⟩ := List.length_eq_two.mp hsl
  have hya := ascii_of_number hy
  have hmoa := hascii _ _ hmo
  have hda := hascii _ _ hd
  have hha := hascii _ _ hh
  have hmia := hascii _ _ hmi
  have hsa := hascii _ _ hs
  have hdash : Ascii '-' := show '-'.toNat < 128 by decide
  have hcolon : Ascii ':' := show ':'.toNat < 128 by decide
  have hsepa : Ascii sep := by
    rcases hsep with rfl | rfl | rfl
    · exact show 'T'.toNat < 128 by decide
    · exact show '-'.toNat < 128 by decide
    · exact show ' '.toNat < 128 by decide
  have hfront : ∀ c ∈ Places.front ⟨[y₀, y₁, y₂, y₃], [mo₀, mo₁], [d₀, d₁], sep, [h₀, h₁],
      [mi₀, mi₁], [s₀, s₁], rest⟩, Ascii c := by
    rw [Places.front]
    simp only [List.forall_mem_append, List.forall_mem_cons] at hya hmoa hda hha hmia hsa ⊢
    exact ⟨hya, hdash, hmoa, hdash, hda, hsepa, hha, hcolon, hmia, hcolon, hsa⟩
  rw [fieldsByPlace, ← hms, Places.text, utf8Bytes_append, utf8Bytes_ascii hfront]
  -- the bytes are the characters of the front, one by one
  obtain ⟨b, hb⟩ : ∃ b, b = (Places.front ⟨[y₀, y₁, y₂, y₃], [mo₀, mo₁], [d₀, d₁], sep, [h₀, h₁],
      [mi₀, mi₁], [s₀, s₁], rest⟩).map (fun c => UInt8.ofNat c.toNat) ++ utf8Bytes rest := ⟨_, rfl⟩
  have hpiece : ∀ {p : List Char → Option ℤ} {t : List Char} {v : ℤ} {i j : ℕ}, p t = some v →
      (∀ c ∈ t, Ascii c) → (b.take j).drop i = t.map (fun c => UInt8.ofNat c.toNat) →
      (fromUtf8 ((b.take j).drop i)).bind p = some v := by
    intro p t v i j hv ht hslice
    rw [hslice, ← utf8Bytes_ascii ht, fromUtf8_ascii ht, Option.bind_some, hv]
  have hlen : ¬b.length < 19 := by
    rw [hb, List.length_append]
    exact Nat.not_lt.mpr (Nat.le_add_right 19 _)
  have hny : numberBetween b 0 4 = some f.y := hpiece hy hya (by rw [hb]; rfl)
  have hnmo : part b 5 7 = some f.mo := (hpart b 5 7).trans (hpiece hmo hmoa (by rw [hb]; rfl))
  have hnd : part b 8 10 = some f.d := (hpart b 8 10).trans (hpiece hd hda (by rw [hb]; rfl))
  have hnh : part b 11 13 = some f.h := (hpart b 11 13).trans (hpiece hh hha (by rw [hb]; rfl))
  have hnmi : part b 14 16 = some f.mi :=
    (hpart b 14 16).trans (hpiece hmi hmia (by rw [hb]; rfl))
  have hns : part b 17 19 = some f.s := (hpart b 17 19).trans (hpiece hs hsa (by rw [hb]; rfl))
  have hmarks : ¬(b[4]? ≠ some 0x2d ∨ b[7]? ≠ some 0x2d ∨
      ¬(b[10]? = some 0x54 ∨ b[10]? = some 0x2d ∨ b[10]? = some 0x20) ∨
      b[13]? ≠ some 0x3a ∨ b[16]? ≠ some 0x3a) := by
    have h₄ : b[4]? = some 0x2d := by rw [hb]; rfl
    have h₇ : b[7]? = some 0x2d := by rw [hb]; rfl
    have h₁₀ : b[10]? = some (UInt8.ofNat sep.toNat) := by rw [hb]; rfl
    have h₁₃ : b[13]? = some 0x3a := by rw [hb]; rfl
    have h₁₆ : b[16]? = some 0x3a := by rw [hb]; rfl
    rintro (hn | hn | hn | hn | hn)
    · exact hn h₄
    · exact hn h₇
    · apply hn
      rcases hsep with rfl | rfl | rfl
      · exact .inl h₁₀
      · exact .inr (.inl h₁₀)
      · exact .inr (.inr h₁₀)
    · exact hn h₁₃
    · exact hn h₁₆
  rw [← hb, if_neg hlen, hny, hnmo, hnd, hnh, hnmi, hns]
  simp only [Option.bind_eq_bind, Option.bind_some, if_neg hmarks]

end

/-! ## Parts of a split text -/

theorem splitOnce_append {sep : Char} {a : List Char} (ha : sep ∉ a) (b : List Char) :
    splitOnce sep (a ++ sep :: b) = some (a, b) := by
  have hne : ∀ c ∈ a, decide (c ≠ sep) = true := by
    intro c hc
    rw [decide_eq_true_eq]
    rintro rfl
    exact ha hc
  rw [splitOnce, List.dropWhile_append_of_pos hne, List.takeWhile_append_of_pos hne,
    List.dropWhile_cons_of_neg (by simp), List.takeWhile_cons_of_neg (by simp), List.append_nil]

theorem of_splitOnce {sep : Char} {s a b : List Char} (h : splitOnce sep s = some (a, b)) :
    s = a ++ sep :: b ∧ sep ∉ a := by
  have hsplit := List.takeWhile_append_dropWhile (p := fun c => decide (c ≠ sep)) (l := s)
  rw [splitOnce] at h
  cases hdrop : s.dropWhile fun c => decide (c ≠ sep) with
  | nil =>
      rw [hdrop] at h
      cases h
  | cons x rest =>
      rw [hdrop] at h hsplit
      cases h
      have hx : x = sep := by
        have hhead := List.head?_dropWhile_not (fun c => decide (c ≠ sep)) s
        rw [hdrop] at hhead
        simpa using hhead
      rw [hx] at hsplit
      refine ⟨hsplit.symm, fun hmem => ?_⟩
      have hne := List.mem_takeWhile_imp hmem
      simp at hne

theorem splitOnce_eq_none {sep : Char} {s : List Char} (h : sep ∉ s) : splitOnce sep s = none := by
  have hdrop : s.dropWhile (fun c => decide (c ≠ sep)) = [] := by
    rw [List.dropWhile_eq_nil_iff]
    intro c hc
    rw [decide_eq_true_eq]
    rintro rfl
    exact h hc
  rw [splitOnce, hdrop]

theorem of_threeParts {sep : Char} {s a b c : List Char} (h : threeParts sep s = some (a, b, c)) :
    s = a ++ sep :: (b ++ sep :: c) ∧ sep ∉ a ∧ sep ∉ b ∧ sep ∉ c := by
  rw [threeParts] at h
  obtain ⟨⟨a', s'⟩, ha, h⟩ := Option.bind_eq_some_iff.mp h
  obtain ⟨⟨b', c'⟩, hb, h⟩ := Option.bind_eq_some_iff.mp h
  dsimp only at h
  split_ifs at h with hc
  cases h
  obtain ⟨rfl, hna⟩ := of_splitOnce ha
  obtain ⟨rfl, hnb⟩ := of_splitOnce hb
  exact ⟨rfl, hna, hnb, hc⟩

theorem threeParts_append {sep : Char} {a b c : List Char} (ha : sep ∉ a) (hb : sep ∉ b)
    (hc : sep ∉ c) : threeParts sep (a ++ sep :: (b ++ sep :: c)) = some (a, b, c) := by
  rw [threeParts, splitOnce_append ha]
  change (splitOnce sep (b ++ sep :: c)).bind _ = _
  rw [splitOnce_append hb]
  exact if_neg hc

/-- Around a `T`, a space or the third dash there is the text. -/
theorem of_separator {t date time : List Char}
    (h : (splitOnce 'T' t).or ((splitOnce ' ' t).or (splitThirdDash t)) = some (date, time)) :
    ∃ sep, (sep = 'T' ∨ sep = '-' ∨ sep = ' ') ∧ t = date ++ sep :: time := by
  rcases Option.or_eq_some_iff.mp h with h | ⟨-, h⟩
  · exact ⟨'T', .inl rfl, (of_splitOnce h).1⟩
  rcases Option.or_eq_some_iff.mp h with h | ⟨-, h⟩
  · exact ⟨' ', .inr (.inr rfl), (of_splitOnce h).1⟩
  · rw [splitThirdDash] at h
    obtain ⟨⟨a, s⟩, ha, h⟩ := Option.bind_eq_some_iff.mp h
    obtain ⟨⟨b, s'⟩, hb, h⟩ := Option.bind_eq_some_iff.mp h
    obtain ⟨⟨c, s''⟩, hc, h⟩ := Option.bind_eq_some_iff.mp h
    cases h
    obtain ⟨rfl, -⟩ := of_splitOnce ha
    obtain ⟨rfl, -⟩ := of_splitOnce hb
    obtain ⟨rfl, -⟩ := of_splitOnce hc
    exact ⟨'-', .inr (.inl rfl), by simp⟩

namespace Places

/-- The parts are what the separators leave, and are numbers. -/
structure Splits (q : Places) (f : TimeFields) : Prop where
  sep : q.sep = 'T' ∨ q.sep = '-' ∨ q.sep = ' '
  dashes : '-' ∉ q.y ∧ '-' ∉ q.mo ∧ '-' ∉ q.d
  colons : ':' ∉ q.h ∧ ':' ∉ q.mi ∧ ':' ∉ q.s
  y : parseSigned (-2147483648) 2147483647 q.y = some f.y
  mo : parseU32Int q.mo = some f.mo
  d : parseU32Int q.d = some f.d
  h : parseI64Int q.h = some f.h
  mi : parseI64Int q.mi = some f.mi
  s : parseI64Int q.s = some f.s
  rest : q.rest = [] ∧ f.ms = 0 ∨
    ∃ frac ms, q.rest = '.' :: frac ∧ fractionMillis frac = some ms ∧ f.ms = (ms : ℤ)

end Places

theorem places_of_isoFields {s : List Char} {f : TimeFields} (h : isoFields s = some f) :
    ∃ q : Places, trimZulu s = q.text ∧ q.Splits f := by
  rw [isoFields] at h
  obtain ⟨⟨date, time⟩, hdate, h⟩ := Option.bind_eq_some_iff.mp h
  obtain ⟨⟨y, mo, d⟩, hparts, h⟩ := Option.bind_eq_some_iff.mp h
  obtain ⟨vy, hy, h⟩ := Option.bind_eq_some_iff.mp h
  obtain ⟨vmo, hmo, h⟩ := Option.bind_eq_some_iff.mp h
  obtain ⟨vd, hd, h⟩ := Option.bind_eq_some_iff.mp h
  obtain ⟨⟨hms, millis⟩, hfrac, h⟩ := Option.bind_eq_some_iff.mp h
  obtain ⟨⟨h', mi, sec⟩, htime, h⟩ := Option.bind_eq_some_iff.mp h
  obtain ⟨vh, hh, h⟩ := Option.bind_eq_some_iff.mp h
  obtain ⟨vmi, hmi, h⟩ := Option.bind_eq_some_iff.mp h
  obtain ⟨vs, hs, h⟩ := Option.bind_eq_some_iff.mp h
  cases h
  obtain ⟨sep, hsep, htext⟩ := of_separator hdate
  obtain ⟨rfl, hny, hnmo, hnd⟩ := of_threeParts hparts
  obtain ⟨rfl, hnh, hnmi, hns⟩ := of_threeParts htime
  have hrest : ∃ rest, time = (h' ++ ':' :: (mi ++ ':' :: sec)) ++ rest ∧
      (rest = [] ∧ millis = 0 ∨ ∃ frac, rest = '.' :: frac ∧ fractionMillis frac = some millis) := by
    cases hpoint : splitOnce '.' time with
    | none =>
        rw [hpoint] at hfrac
        cases hfrac
        exact ⟨[], (List.append_nil _).symm, .inl ⟨rfl, rfl⟩⟩
    | some parts =>
        obtain ⟨before, frac⟩ := parts
        rw [hpoint] at hfrac
        obtain ⟨ms, hms, heq⟩ := Option.map_eq_some_iff.mp hfrac
        cases heq
        obtain ⟨rfl, -⟩ := of_splitOnce hpoint
        exact ⟨'.' :: frac, rfl, .inr ⟨frac, rfl, hms⟩⟩
  obtain ⟨rest, rfl, hrest⟩ := hrest
  refine ⟨⟨y, mo, d, sep, h', mi, sec, rest⟩, ?_, hsep, ⟨hny, hnmo, hnd⟩, ⟨hnh, hnmi, hns⟩, hy, hmo,
    hd, hh, hmi, hs, ?_⟩
  · rw [htext, Places.text, Places.front]
    simp
  · rcases hrest with ⟨rfl, rfl⟩ | ⟨frac, rfl, hms⟩
    · exact .inl ⟨rfl, rfl⟩
    · exact .inr ⟨frac, millis, rfl, hms, rfl⟩

/-! ## Both ways -/

theorem eq_trimEnd_append {α : Type} (p : α → Bool) (l : List α) :
    ∃ ends, l = trimEnd p l ++ ends ∧ ∀ c ∈ ends, p c = true := by
  induction l using List.reverseRecOn with
  | nil => exact ⟨[], rfl, nofun⟩
  | append_singleton l c ih =>
      by_cases hc : p c = true
      · obtain ⟨ends, hl, hends⟩ := ih
        refine ⟨ends ++ [c], ?_, ?_⟩
        · rw [trimEnd_concat_of_pos hc, ← List.append_assoc, ← hl]
        · rw [List.forall_mem_append, List.forall_mem_singleton]
          exact ⟨hends, hc⟩
      · exact ⟨[], by rw [trimEnd_concat_of_neg hc, List.append_nil], nofun⟩

theorem trimEnd_append {α : Type} {p : α → Bool} {a : List α} (ha : ∀ c ∈ a.getLast?, ¬p c = true)
    (b : List α) : trimEnd p (a ++ b) = a ++ trimEnd p b := by
  induction b using List.reverseRecOn with
  | nil =>
      rw [List.append_nil, show trimEnd p [] = [] from rfl, List.append_nil]
      induction a using List.reverseRecOn with
      | nil => rfl
      | append_singleton a c => exact trimEnd_concat_of_neg (ha c (by rw [List.getLast?_concat]; rfl)) a
  | append_singleton b c ih =>
      rw [← List.append_assoc]
      by_cases hc : p c = true
      · rw [trimEnd_concat_of_pos hc, trimEnd_concat_of_pos hc, ih]
      · rw [trimEnd_concat_of_neg hc, trimEnd_concat_of_neg hc, List.append_assoc]

/-- Up to the first that is not. -/
theorem span_unique {α : Type} {P : α → Prop} {a b u v : List α} {x y : α} (ha : ∀ c ∈ a, P c)
    (hb : ∀ c ∈ b, P c) (hx : ¬P x) (hy : ¬P y) (h : a ++ x :: u = b ++ y :: v) :
    a = b ∧ x = y ∧ u = v := by
  induction a generalizing b with
  | nil =>
      cases b with
      | nil =>
          obtain ⟨hxy, huv⟩ := List.cons_eq_cons.mp h
          exact ⟨rfl, hxy, huv⟩
      | cons d b =>
          obtain ⟨rfl, -⟩ := List.cons_eq_cons.mp h
          exact absurd (hb x List.mem_cons_self) hx
  | cons c a ih =>
      cases b with
      | nil =>
          obtain ⟨rfl, -⟩ := List.cons_eq_cons.mp h
          exact absurd (ha c List.mem_cons_self) hy
      | cons d b =>
          obtain ⟨rfl, htail⟩ := List.cons_eq_cons.mp h
          obtain ⟨rfl, hxy, huv⟩ := ih (fun e he => ha e (List.mem_cons_of_mem _ he))
            (fun e he => hb e (List.mem_cons_of_mem _ he)) htail
          exact ⟨rfl, hxy, huv⟩

/-- A digit or a sign. -/
def NumberChar (c : Char) : Prop := c.isDigit = true ∨ c = '+' ∨ c = '-'

/-- A number is digits, but for a sign before them. -/
theorem chars_of_number {s : List Char} {v : ℤ} (h : parseI64Int s = some v) :
    s ≠ [] ∧ (∀ c ∈ s, NumberChar c) ∧ (∀ c ∈ s.tail, c.isDigit = true) ∧
      ('-' ∈ s → s.head? = some '-') := by
  have hminus : ∀ {t : List Char}, (∀ c ∈ t, c.isDigit = true) → '-' ∉ t :=
    fun ht hmem => absurd (ht _ hmem) (by decide)
  rcases ascii_of_parseI64Int h with ⟨t, rfl, -, ht, -⟩ | ⟨t, rfl, -, ht, -⟩ | ⟨hne, ht, -⟩
  · exact ⟨List.cons_ne_nil _ _, List.forall_mem_cons.mpr ⟨.inr (.inr rfl), fun c hc => .inl (ht c hc)⟩,
      ht, fun _ => rfl⟩
  · refine ⟨List.cons_ne_nil _ _,
      List.forall_mem_cons.mpr ⟨.inr (.inl rfl), fun c hc => .inl (ht c hc)⟩, ht, fun hmem => ?_⟩
    rcases List.mem_cons.mp hmem with heq | hmem
    · cases heq
    · exact absurd hmem (hminus ht)
  · exact ⟨hne, fun c hc => .inl (ht c hc), fun c hc => ht c (List.mem_of_mem_tail hc),
      fun hmem => absurd hmem (hminus ht)⟩

theorem parseI64Int_of_signed {lo hi v : ℤ} {s : List Char} (hlo : -9223372036854775808 ≤ lo)
    (hhi : hi ≤ 9223372036854775807) (h : parseSigned lo hi s = some v) :
    parseI64Int s = some v := by
  rw [parseSigned, Option.filter_eq_some_iff] at h
  rw [parseI64Int, parseSigned, Option.filter_eq_some_iff]
  refine ⟨h.1, ?_⟩
  have hin := of_decide_eq_true h.2
  exact decide_eq_true ⟨hlo.trans hin.1, hin.2.trans hhi⟩

/-- An unsigned number is the number, and has no minus. -/
theorem parseI64Int_of_unsigned {v : ℤ} {s : List Char} (h : parseU32Int s = some v) :
    parseI64Int s = some v ∧ '-' ∉ s := by
  rw [parseU32Int, Option.map_eq_some_iff] at h
  obtain ⟨n, hn, rfl⟩ := h
  unfold parseUnsigned at hn
  rw [Option.filter_eq_some_iff, decide_eq_true_eq] at hn
  obtain ⟨hdigits, hmax⟩ := hn
  have hplain : ∀ {t : List Char}, parseDigits t = some n → ∀ c ∈ t, c.isDigit = true := by
    intro t ht
    rw [parseDigits] at ht
    split_ifs at ht with hall
    exact List.all_eq_true.mp hall.2
  have hin : decide (-9223372036854775808 ≤ (n : ℤ) ∧ (n : ℤ) ≤ 9223372036854775807) = true :=
    decide_eq_true (by omega)
  split at hdigits
  · rename_i t
    constructor
    · show ((parseDigits t).map fun n : ℕ => (n : ℤ)).filter _ = _
      rw [hdigits, Option.map_some, Option.filter_some, if_pos hin]
    · intro hmem
      rcases List.mem_cons.mp hmem with heq | hmem
      · cases heq
      · exact absurd (hplain hdigits _ hmem) (by decide)
  · have hsign : splitSign s = (false, s) := by
      rw [splitSign]
      · rintro t rfl
        exact absurd (hplain hdigits '-' List.mem_cons_self) (by decide)
      · rintro t rfl
        exact absurd (hplain hdigits '+' List.mem_cons_self) (by decide)
    constructor
    · rw [parseI64Int, parseSigned, hsign, hdigits, Option.map_some, if_neg Bool.false_ne_true,
        Option.filter_some, if_pos hin]
    · exact fun hmem => absurd (hplain hdigits _ hmem) (by decide)

/-- A point with three characters behind it at least. -/
def LongFraction (rest : List Char) : Prop := ∃ frac, rest = '.' :: frac ∧ 3 ≤ frac.length

/-- Three digits weigh what they denote. -/
theorem digits_of_fractionMillis {frac : List Char} {ms : ℕ} (h : fractionMillis frac = some ms) :
    (∀ c ∈ frac.take 3, c.isDigit = true) ∧ ms < 1000 ∧
      (3 ≤ frac.length → ms = digitsValue (frac.take 3)) := by
  have hdigit : ∀ {weight : ℕ} {c : Char} {l : List Char} {v : ℕ}, weighed weight (c :: l) = some v →
      c.isDigit = true ∧ ∃ w, weighed (weight / 10) l = some w ∧ v = weight * (c.toNat - 48) + w := by
    intro weight c l v hv
    rw [weighed] at hv
    split_ifs at hv with hc
    obtain ⟨w, hw, heq⟩ := Option.map_eq_some_iff.mp hv
    exact ⟨hc, w, hw, heq.symm⟩
  have hnil : ∀ {weight v : ℕ}, weighed weight [] = some v → v = 0 := by
    intro weight v hv
    rw [weighed] at hv
    exact (Option.some.inj hv).symm
  rw [fractionMillis] at h
  rcases frac with _ | ⟨x, _ | ⟨y, _ | ⟨z, t⟩⟩⟩
  · obtain rfl := hnil h
    exact ⟨nofun, by decide, nofun⟩
  · obtain ⟨hx, w, hw, rfl⟩ := hdigit h
    obtain rfl := hnil hw
    have hxn := toNat_of_isDigit hx
    exact ⟨by simp [hx], by omega, fun hn => absurd hn (by simp)⟩
  · obtain ⟨hx, w, hw, rfl⟩ := hdigit h
    obtain ⟨hy, w', hw', rfl⟩ := hdigit hw
    obtain rfl := hnil hw'
    have hxn := toNat_of_isDigit hx
    have hyn := toNat_of_isDigit hy
    exact ⟨by simp [hx, hy], by omega, fun hn => absurd hn (by simp)⟩
  · obtain ⟨hx, w, hw, rfl⟩ := hdigit h
    obtain ⟨hy, w', hw', rfl⟩ := hdigit hw
    obtain ⟨hz, w'', hw'', rfl⟩ := hdigit hw'
    obtain rfl := hnil hw''
    have hxn := toNat_of_isDigit hx
    have hyn := toNat_of_isDigit hy
    have hzn := toNat_of_isDigit hz
    refine ⟨by simp [hx, hy, hz], by omega, fun _ => ?_⟩
    show _ = 10 * (10 * (10 * 0 + (x.toNat - 48)) + (y.toNat - 48)) + (z.toNat - 48)
    omega

/-- What is read by places behind the seconds is the fraction if it is long, and nothing if it is
not. -/
theorem fractionRead_split {front rest extra tail : List Char} {ms : ℕ}
    (hfront : ∀ c ∈ front, Ascii c) (hlen : front.length = 19)
    (hrest : trimZulu rest = extra ++ tail) (hextra : ∀ c ∈ extra, c.isDigit = true)
    (htail : tail = [] ∧ ms = 0 ∨ ∃ frac, tail = '.' :: frac ∧ fractionMillis frac = some ms) :
    (LongFraction (extra ++ tail) → fractionRead (utf8Bytes (front ++ rest)) = ms) ∧
      (¬LongFraction (extra ++ tail) → fractionRead (utf8Bytes (front ++ rest)) = 0) := by
  obtain ⟨zs, hzs, hz⟩ := eq_trimEnd_append (· == 'Z') rest
  change rest = trimZulu rest ++ zs at hzs
  have hzulu : ∀ c ∈ zs, c = 'Z' := fun c hc => beq_iff_eq.mp (hz c hc)
  have htake : ∀ c ∈ (front ++ rest).take 19, Ascii c := by
    rw [List.take_left' hlen]
    exact hfront
  have hhead : (front ++ rest)[19]? = rest.head? := by
    rw [List.getElem?_append_right hlen.le, hlen, Nat.sub_self, List.head?_eq_getElem?]
  have hdrop : (front ++ rest).drop 20 = rest.tail := by
    rw [show 20 = 19 + 1 from rfl, ← List.drop_drop, List.drop_left' hlen, List.drop_one]
  rw [fractionRead_ascii htake (by rw [List.length_append]; omega), hhead, hdrop]
  rw [hrest] at hzs
  rcases extra with _ | ⟨e, extra⟩
  · rw [List.nil_append] at hzs ⊢
    rcases htail with ⟨rfl, rfl⟩ | ⟨frac, rfl, hms⟩
    · -- no fraction
      have hnone : ¬(rest.head? = some '.' ∨ rest.head? = some ',') := by
        rw [hzs, List.nil_append]
        rintro (hn | hn)
        · exact absurd (hzulu _ (List.mem_of_mem_head? hn)) (by decide)
        · exact absurd (hzulu _ (List.mem_of_mem_head? hn)) (by decide)
      rw [if_neg hnone]
      exact ⟨fun _ => rfl, fun _ => rfl⟩
    · obtain ⟨hdigits, -, hvalue⟩ := digits_of_fractionMillis hms
      rw [if_pos (.inl (by rw [hzs]; rfl)), hzs, List.cons_append, List.tail_cons]
      constructor
      · rintro ⟨frac', heq, hthree⟩
        cases heq
        obtain ⟨x, y, z, t, rfl⟩ : ∃ x y z t, frac = x :: y :: z :: t := by
          rcases frac with _ | ⟨x, _ | ⟨y, _ | ⟨z, t⟩⟩⟩
          case cons.cons.cons => exact ⟨x, y, z, t, rfl⟩
          all_goals exact absurd hthree (by simp)
        have hxyz : ∀ c ∈ [x, y, z], c.isDigit = true := hdigits
        rw [List.cons_append, List.cons_append, List.cons_append,
          behindPoint_cons fun c hc => ascii_of_isDigit (hxyz c hc),
          parseI64Int_digits (List.cons_ne_nil _ _) hxyz (by simp), hvalue hthree]
        rfl
      · intro hshort
        have hfew : frac.length < 3 := Nat.lt_of_not_le fun hn => hshort ⟨frac, rfl, hn⟩
        cases hread : behindPoint (frac ++ zs) with
        | none => rfl
        | some v =>
            -- three characters of a number reach into the `Z`s
            obtain ⟨x, y, z, t, hxyz, hv⟩ := three_of_behindPoint hread
            have hzget : (frac ++ zs)[2]? = some z := by
              rw [hxyz]
              rfl
            rw [List.getElem?_append_right (by omega)] at hzget
            have hdigit := (chars_of_number hv).2.2.1 z (by simp)
            rw [hzulu z (List.mem_of_getElem? hzget)] at hdigit
            cases hdigit
  · have he := hextra e List.mem_cons_self
    have hnone : ¬(rest.head? = some '.' ∨ rest.head? = some ',') := by
      rw [hzs]
      rintro (hn | hn)
      · cases hn
        cases he
      · cases hn
        cases he
    rw [if_neg hnone]
    refine ⟨?_, fun _ => rfl⟩
    rintro ⟨frac, heq, -⟩
    cases heq
    cases he

/-- The part before a dash is the same both ways: a minus would leave nothing before the dash. -/
theorem before_dash {a b u v : List Char} {w : ℤ} (hne : a ≠ []) (ha : '-' ∉ a)
    (hb : parseI64Int b = some w) (h : a ++ '-' :: u = b ++ '-' :: v) : a = b ∧ u = v := by
  have hnb : '-' ∉ b := by
    intro hmem
    have hhead := (chars_of_number hb).2.2.2 hmem
    have hfirst : (a ++ '-' :: u).head? = some '-' := by
      rw [h, List.head?_append, hhead]
      rfl
    rw [List.head?_append_of_ne_nil _ hne] at hfirst
    exact ha (List.mem_of_mem_head? hfirst)
  obtain ⟨hab, -, huv⟩ := span_unique (P := fun c => c ≠ '-') (fun c hc heq => ha (heq ▸ hc))
    (fun c hc heq => hnb (heq ▸ hc)) (not_not.mpr rfl) (not_not.mpr rfl) h
  exact ⟨hab, huv⟩

theorem before_colon {a b u v : List Char} {w : ℤ} (ha : ':' ∉ a) (hb : parseI64Int b = some w)
    (h : a ++ ':' :: u = b ++ ':' :: v) : a = b ∧ u = v := by
  have hnb : ':' ∉ b := by
    intro hmem
    rcases (chars_of_number hb).2.1 ':' hmem with hc | hc | hc
    · cases hc
    · cases hc
    · cases hc
  obtain ⟨hab, -, huv⟩ := span_unique (P := fun c => c ≠ ':') (fun c hc heq => ha (heq ▸ hc))
    (fun c hc heq => hnb (heq ▸ hc)) (not_not.mpr rfl) (not_not.mpr rfl) h
  exact ⟨hab, huv⟩

/-- The day ends at the separator, which is no part of an unsigned number. -/
theorem before_separator {a b u v : List Char} {x y : Char} {w w' : ℤ} (ha : parseU32Int a = some w)
    (hb : parseI64Int b = some w') (hx : x = 'T' ∨ x = '-' ∨ x = ' ')
    (hy : y = 'T' ∨ y = '-' ∨ y = ' ') (h : a ++ x :: u = b ++ y :: v) : a = b ∧ u = v := by
  obtain ⟨hai, hna⟩ := parseI64Int_of_unsigned ha
  obtain ⟨hne, hac, -, -⟩ := chars_of_number hai
  obtain ⟨-, hbc, -, hhead⟩ := chars_of_number hb
  have hnb : '-' ∉ b := by
    intro hmem
    have hfirst : (a ++ x :: u).head? = some '-' := by
      rw [h, List.head?_append, hhead hmem]
      rfl
    rw [List.head?_append_of_ne_nil _ hne] at hfirst
    exact hna (List.mem_of_mem_head? hfirst)
  have hplain : ∀ {l : List Char}, (∀ c ∈ l, NumberChar c) → '-' ∉ l →
      ∀ c ∈ l, c.isDigit = true ∨ c = '+' := by
    intro l hl hn c hc
    rcases hl c hc with hd | hp | rfl
    · exact .inl hd
    · exact .inr hp
    · exact absurd hc hn
  have hstop : ∀ {c : Char}, c = 'T' ∨ c = '-' ∨ c = ' ' → ¬(c.isDigit = true ∨ c = '+') := by
    rintro c (rfl | rfl | rfl) <;> decide
  obtain ⟨hab, -, huv⟩ := span_unique (hplain hac hna) (hplain hbc hnb) (hstop hx) (hstop hy) h
  exact ⟨hab, huv⟩

/-- What both ways read, is the same but for what stands behind the two digits of the seconds. -/
theorem readers_meet {s : List Char} {f g : TimeFields} (hf : isoFields s = some f)
    (hg : fieldsByPlace numberBetween s = some g) :
    f.y = g.y ∧ f.mo = g.mo ∧ f.d = g.d ∧ f.h = g.h ∧ f.mi = g.mi ∧ (0 ≤ f.ms ∧ f.ms < 1000) ∧
      (LongFraction ((trimZulu s).drop 19) → f.s = g.s ∧ g.ms = f.ms) ∧
      (¬LongFraction ((trimZulu s).drop 19) → g.ms = 0) := by
  obtain ⟨q, hq, hqs⟩ := places_of_isoFields hf
  obtain ⟨p, rfl, hp⟩ := places_of_fields (fun b i j => rfl) (fun t v => ascii_of_number) hg
  have hwidth : p.front.length = 19 := by
    obtain ⟨hy, hmo, hd, hh, hmi, hs⟩ := hp.width
    rw [Places.front]
    simp only [List.length_append, List.length_cons]
    omega
  have hz : ∀ {l : List Char} {v : ℤ}, parseI64Int l = some v → ∀ c ∈ l, c ≠ 'Z' := by
    rintro l v hv c hc rfl
    rcases (chars_of_number hv).2.1 _ hc with hn | hn | hn <;> cases hn
  have hfrontZ : ∀ c ∈ p.front, c ≠ 'Z' := by
    rw [Places.front]
    simp only [List.forall_mem_append, List.forall_mem_cons]
    refine ⟨hz hp.y, by decide, hz hp.mo, by decide, hz hp.d, ?_, hz hp.h, by decide, hz hp.mi,
      by decide, hz hp.s⟩
    rcases hp.sep with h | h | h <;> rw [h] <;> decide
  have hfrontA : ∀ c ∈ p.front, Ascii c := by
    rw [Places.front]
    simp only [List.forall_mem_append, List.forall_mem_cons]
    refine ⟨ascii_of_number hp.y, show '-'.toNat < 128 by decide, ascii_of_number hp.mo,
      show '-'.toNat < 128 by decide, ascii_of_number hp.d, ?_, ascii_of_number hp.h,
      show ':'.toNat < 128 by decide, ascii_of_number hp.mi, show ':'.toNat < 128 by decide,
      ascii_of_number hp.s⟩
    rcases hp.sep with h | h | h <;> rw [h]
    · exact show 'T'.toNat < 128 by decide
    · exact show '-'.toNat < 128 by decide
    · exact show ' '.toNat < 128 by decide
  have htrim : trimZulu p.text = p.front ++ trimZulu p.rest := by
    apply trimEnd_append
    intro c hc hbeq
    exact hfrontZ c (List.mem_of_mem_getLast? hc) (beq_iff_eq.mp hbeq)
  -- the two ways to part one text
  have hparts := hq.symm.trans htrim
  rw [Places.text, Places.front, Places.front] at hparts
  simp only [List.append_assoc, List.cons_append] at hparts
  have hqy := parseI64Int_of_signed (by decide) (by decide) hqs.y
  obtain ⟨hqmo, -⟩ := parseI64Int_of_unsigned hqs.mo
  obtain ⟨hqd, -⟩ := parseI64Int_of_unsigned hqs.d
  obtain ⟨hy, hparts⟩ := before_dash (chars_of_number hqy).1 hqs.dashes.1 hp.y hparts
  obtain ⟨hmo, hparts⟩ := before_dash (chars_of_number hqmo).1 hqs.dashes.2.1 hp.mo hparts
  obtain ⟨hd, hparts⟩ := before_separator hqs.d hp.d hqs.sep hp.sep hparts
  obtain ⟨hh, hparts⟩ := before_colon hqs.colons.1 hp.h hparts
  obtain ⟨hmi, hparts⟩ := before_colon hqs.colons.2.1 hp.mi hparts
  have hsame : ∀ {a b : List Char} {v w : ℤ}, a = b → parseI64Int a = some v →
      parseI64Int b = some w → v = w := by
    rintro a b v w rfl hv hw
    exact Option.some.inj (hv.symm.trans hw)
  obtain ⟨extra, hextra, hrest⟩ : ∃ extra, q.s = p.s ++ extra ∧ trimZulu p.rest = extra ++ q.rest := by
    rcases List.append_eq_append_iff.mp hparts with ⟨e, hps, hqr⟩ | ⟨e, hqs', hpr⟩
    · -- the second digit of the seconds is no point
      cases e with
      | nil => exact ⟨[], by rw [hps, List.append_nil, List.append_nil], hqr.symm⟩
      | cons c e =>
          have hc : c = '.' := by
            rcases hqs.rest with ⟨hnil, -⟩ | ⟨frac, -, hcons, -⟩
            · rw [hnil] at hqr
              cases hqr
            · rw [hcons] at hqr
              exact (List.cons_eq_cons.mp hqr).1.symm
          have hmem := (chars_of_number hp.s).2.1 c (by rw [hps]; simp)
          rw [hc] at hmem
          rcases hmem with h | h | h <;> cases h
    · exact ⟨e, hqs', hpr⟩
  have hdigits : ∀ c ∈ extra, c.isDigit = true := by
    intro c hc
    apply (chars_of_number hqs.s).2.2.1
    rw [hextra, List.tail_append_of_ne_nil (chars_of_number hp.s).1]
    exact List.mem_append_right _ hc
  have htail : ∃ ms : ℕ, f.ms = ms ∧ ms < 1000 ∧
      (q.rest = [] ∧ ms = 0 ∨ ∃ frac, q.rest = '.' :: frac ∧ fractionMillis frac = some ms) := by
    rcases hqs.rest with ⟨hnil, hzero⟩ | ⟨frac, ms, hcons, hfrac, hms⟩
    · exact ⟨0, hzero, by decide, .inl ⟨hnil, rfl⟩⟩
    · exact ⟨ms, hms, (digits_of_fractionMillis hfrac).2.1, .inr ⟨frac, hcons, hfrac⟩⟩
  obtain ⟨ms, hms, hlt, htail⟩ := htail
  obtain ⟨hlong, hshort⟩ := fractionRead_split hfrontA hwidth hrest hdigits htail
  have hdrop : (trimZulu p.text).drop 19 = extra ++ q.rest := by
    rw [htrim, hrest, List.drop_left' hwidth]
  rw [hdrop]
  refine ⟨hsame hy hqy hp.y, hsame hmo hqmo hp.mo, hsame hd hqd hp.d, hsame hh hqs.h hp.h,
    hsame hmi hqs.mi hp.mi, by omega, ?_, fun hn => hp.ms.trans (hshort hn)⟩
  intro hl
  refine ⟨?_, (hp.ms.trans (hlong hl)).trans hms.symm⟩
  -- a point behind the seconds leaves no more digits
  cases extra with
  | nil => exact hsame (by rw [hextra, List.append_nil]) hqs.s hp.s
  | cons e extra =>
      obtain ⟨frac, heq, -⟩ := hl
      have he := hdigits e List.mem_cons_self
      cases heq
      cases he

/-! ## The readers by places -/

theorem number_bounds {t : List Char} {v : ℤ} (h : parseI64Int t = some v) {k : ℕ}
    (hk : t.length ≤ k) : -((10 : ℤ) ^ k - 1) ≤ v ∧ v ≤ (10 : ℤ) ^ k - 1 := by
  have hdigits : ∀ {l : List Char}, (∀ c ∈ l, c.isDigit = true) → l.length ≤ k →
      0 ≤ (digitsValue l : ℤ) ∧ (digitsValue l : ℤ) ≤ (10 : ℤ) ^ k - 1 := by
    intro l hl hlen
    have hlt := Nat.lt_of_lt_of_le (digitsValue_lt hl) (Nat.pow_le_pow_right (by decide) hlen)
    have hcast : (digitsValue l : ℤ) < (10 : ℤ) ^ k := by exact_mod_cast hlt
    omega
  rcases ascii_of_parseI64Int h with ⟨t, rfl, -, ht, rfl⟩ | ⟨t, rfl, -, ht, rfl⟩ | ⟨-, ht, rfl⟩
  · have hbound := hdigits ht ((Nat.le_succ _).trans hk)
    omega
  · have hbound := hdigits ht ((Nat.le_succ _).trans hk)
    omega
  · have hbound := hdigits ht hk
    omega

theorem fractionRead_bounds (b : List UInt8) : -999 ≤ fractionRead b ∧ fractionRead b ≤ 999 := by
  rw [fractionRead]
  split_ifs with hpoint
  · cases hread : numberBetween b 20 23 with
    | none => exact ⟨by decide, by decide⟩
    | some v =>
        obtain ⟨t, hv, -, hlen, -⟩ := piece_of_number (fun t v => ascii_of_number)
          (Option.bind_eq_some_iff.mp hread) (by decide) hpoint.1
        exact number_bounds hv hlen.le
  · exact ⟨by decide, by decide⟩

theorem Places.Reads.small {q : Places} {f : TimeFields} (h : q.Reads parseI64Int f) : f.Small where
  y := number_bounds h.y h.width.1.le
  h := number_bounds h.h h.width.2.2.2.1.le
  mi := number_bounds h.mi h.width.2.2.2.2.1.le
  s := number_bounds h.s h.width.2.2.2.2.2.le
  ms := h.ms ▸ fractionRead_bounds _

/-- What is read unsigned by places is read with signs too. -/
theorem fields_of_unsigned {s : List Char} {f : TimeFields}
    (h : fieldsByPlace unsignedBetween s = some f) : fieldsByPlace numberBetween s = some f := by
  obtain ⟨q, rfl, hq⟩ := places_of_fields (fun b i j => rfl)
    (fun t v hv => ascii_of_number (parseI64Int_of_unsigned hv).1) h
  obtain ⟨hwidth, hsep, hy, hmo, hd, hh, hmi, hs, hms⟩ := hq
  exact fields_of_places (fun b i j => rfl) (fun t v => ascii_of_number)
    ⟨hwidth, hsep, hy, (parseI64Int_of_unsigned hmo).1, (parseI64Int_of_unsigned hd).1,
      (parseI64Int_of_unsigned hh).1, (parseI64Int_of_unsigned hmi).1,
      (parseI64Int_of_unsigned hs).1, hms⟩

/-- The instant of fields, where there is such a day. -/
def TimeFields.value (f : TimeFields) : Option ℤ := (daysSinceEpoch f.y f.mo f.d).map f.total

theorem instantOf_byPlace {s : List Char} {fields : Option TimeFields}
    (h : ∀ f ∈ fields, fieldsByPlace numberBetween s = some f) :
    instantOf fields = .ok (fields.bind TimeFields.value) := by
  cases fields with
  | none => rfl
  | some f =>
      obtain ⟨q, -, hq⟩ := places_of_fields (fun b i j => rfl) (fun t v => ascii_of_number) (h f rfl)
      exact hq.small.instant

/-- No sum of `to_unix_ms` is too large. -/
theorem toUnixMsChecked_eq (s : List Char) : toUnixMsChecked s = .ok (toUnixMs s) := by
  rw [toUnixMsChecked, instantOf_byPlace fun f hf => hf]
  congr 1
  rw [fieldsByPlace, toUnixMs]
  generalize utf8Bytes s = b
  by_cases hlen : b.length < 19
  · rw [if_pos hlen, if_pos hlen]
    rfl
  rw [if_neg hlen, if_neg hlen]
  cases numberBetween b 0 4 with
  | none => rfl
  | some y =>
  cases numberBetween b 5 7 with
  | none => rfl
  | some mo =>
  cases numberBetween b 8 10 with
  | none => rfl
  | some d =>
  cases numberBetween b 11 13 with
  | none => rfl
  | some h =>
  cases numberBetween b 14 16 with
  | none => rfl
  | some mi =>
  cases numberBetween b 17 19 with
  | none => rfl
  | some sec =>
  simp only [Option.bind_eq_bind, Option.bind_some]
  split_ifs
  · rfl
  · rw [Option.bind_some, TimeFields.value]
    cases daysSinceEpoch y mo d <;> rfl

/-! ## One instant -/

/-- Two readers do not contradict each other. -/
def Agree (a b : Option ℤ) : Prop := ∀ x ∈ a, ∀ y ∈ b, x = y

/-- No reader overflows, and those that read the text read one instant. -/
def OneInstant (s : List Char) : Prop :=
  ∃ a b c, parseIsoMs s = .ok a ∧ toUnixMsChecked s = .ok b ∧ parseTimestampMs s = .ok c ∧
    Agree a b ∧ Agree a c ∧ Agree b c

/-- A text that can be split into a time has sums of 64 bits. If it can be read by places too, three
digits or more follow the point behind the two places of the seconds; or there is no fraction but
zero, and the number of the seconds is the one in their two places. -/
def UsualDigits (s : List Char) : Prop :=
  ∀ f ∈ isoFields s, ∀ days ∈ daysSinceEpoch f.y f.mo f.d, f.Fits days ∧
    ∀ g ∈ fieldsByPlace numberBetween s,
      LongFraction ((trimZulu s).drop 19) ∨ f.s = g.s ∧ f.ms = 0

/-- Both ways give one total exactly if the seconds and the fraction are the same. -/
theorem total_eq_iff {s : List Char} {f g : TimeFields} (hf : isoFields s = some f)
    (hg : fieldsByPlace numberBetween s = some g) (days : ℤ) :
    f.total days = g.total days ↔
      LongFraction ((trimZulu s).drop 19) ∨ f.s = g.s ∧ f.ms = 0 := by
  obtain ⟨-, -, -, hh, hmi, ⟨hlo, hhi⟩, hlong, hshort⟩ := readers_meet hf hg
  rw [TimeFields.total, TimeFields.total, hh, hmi]
  by_cases hl : LongFraction ((trimZulu s).drop 19)
  · obtain ⟨hs, hms⟩ := hlong hl
    rw [hs, hms]
    exact iff_of_true rfl (.inl hl)
  · rw [hshort hl, or_iff_right hl]
    constructor
    · intro h
      constructor <;> omega
    · rintro ⟨hs, hms⟩
      rw [hs, hms]

theorem oneInstant_iff (s : List Char) : OneInstant s ↔ UsualDigits s := by
  have hunix : toUnixMsChecked s = .ok ((fieldsByPlace numberBetween s).bind TimeFields.value) :=
    instantOf_byPlace fun f hf => hf
  have hreplay : parseTimestampMs s = .ok ((fieldsByPlace unsignedBetween s).bind TimeFields.value) :=
    instantOf_byPlace fun f hf => fields_of_unsigned hf
  have hbc : Agree ((fieldsByPlace numberBetween s).bind TimeFields.value)
      ((fieldsByPlace unsignedBetween s).bind TimeFields.value) := by
    intro x hx y hy
    obtain ⟨g, hg, hgy⟩ := Option.bind_eq_some_iff.mp hy
    rw [fields_of_unsigned hg] at hx
    exact Option.some.inj (hx.symm.trans hgy)
  have hac : ∀ {a : Option ℤ}, Agree a ((fieldsByPlace numberBetween s).bind TimeFields.value) →
      Agree a ((fieldsByPlace unsignedBetween s).bind TimeFields.value) := by
    intro a h x hx y hy
    obtain ⟨g, hg, hgy⟩ := Option.bind_eq_some_iff.mp hy
    exact h x hx y (by rw [fields_of_unsigned hg]; exact hgy)
  rw [OneInstant, hunix, hreplay]
  constructor
  · rintro ⟨a, b, c, ha, hb, -, hab, -, -⟩ f hf days hdays
    cases hb
    obtain ⟨q, -, hq⟩ := places_of_isoFields hf
    have hy := of_decide_eq_true (Option.filter_eq_some_iff.mp hq.y).2
    rw [parseIsoMs, hf] at ha
    obtain ⟨hfits, rfl⟩ := (TimeFields.instant_ok_iff hy.1 hy.2).mp ha
    refine ⟨hfits days hdays, fun g hg => ?_⟩
    obtain ⟨hy, hmo, hd, -⟩ := readers_meet hf hg
    rw [← total_eq_iff hf hg days]
    rw [Option.mem_def] at hdays hg
    refine hab _ ?_ _ ?_
    · rw [hdays]
      rfl
    · rw [hg, Option.bind_some, TimeFields.value, ← hy, ← hmo, ← hd, hdays]
      rfl
  · intro h
    cases hf : isoFields s with
    | none =>
        refine ⟨none, _, _, ?_, rfl, rfl, nofun, nofun, hbc⟩
        rw [parseIsoMs, hf]
        rfl
    | some f =>
        obtain ⟨q, -, hq⟩ := places_of_isoFields hf
        have hy := of_decide_eq_true (Option.filter_eq_some_iff.mp hq.y).2
        have hab : Agree f.value ((fieldsByPlace numberBetween s).bind TimeFields.value) := by
          intro x hx y hgy
          obtain ⟨days, hdays, rfl⟩ := Option.map_eq_some_iff.mp hx
          obtain ⟨g, hg, hgv⟩ := Option.bind_eq_some_iff.mp hgy
          obtain ⟨hy, hmo, hd, -⟩ := readers_meet hf hg
          rw [TimeFields.value, ← hy, ← hmo, ← hd, hdays, Option.map_some, Option.some.injEq] at hgv
          rw [← hgv, total_eq_iff hf hg days]
          exact (h f hf days hdays).2 g hg
        refine ⟨f.value, _, _, ?_, rfl, rfl, hab, hac hab, hbc⟩
        rw [parseIsoMs, hf]
        exact (TimeFields.instant_ok_iff hy.1 hy.2).mpr
          ⟨fun days hdays => (h f hf days hdays).1, rfl⟩

end Canboat
