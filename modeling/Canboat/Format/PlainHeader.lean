import Canboat.Format.Plain

/-!
# The numbers of a PLAIN header

The header of a line as five numerals, what the reader takes them for, and the reader of a build
without overflow checks beside the checked one.
-/

namespace Canboat

namespace Plain

open Checked

/-! ## Builds without overflow checks -/

/-- The number so far with the digits after it, in 64 bits that wrap around. -/
def wrapped (digits : List UInt8) : ℕ :=
  digits.foldl (fun acc b => (acc * 10 + (b.toNat - 48)) % 18446744073709551616) 0

/-- `take_uint_until_comma`, whatever becomes of the digits. -/
def takeUintWith (total : List UInt8 → Except Fault ℕ) (max : ℕ) (bytes : List UInt8)
    (cursor base : ℕ) (field : String) : Checked ParseError (ℕ × ℕ) := do
  let start := skipSpaces bytes cursor
  let digits := numberAt bytes cursor
  let acc ← check (total digits)
  if digits = [] then do
    let value ← check (slice bytes start (start + digits.length))
    throw (.badInteger field (fromUtf8Lossy value) (some (base + start)))
  else if acc ≤ max then pure (acc, afterNumber bytes cursor)
  else throw (.badInteger field acc.repr.toList (some (base + start)))

/-- `parse_line`, whatever becomes of the digits. -/
def parseLineWith (total : List UInt8 → Except Fault ℕ) (line : List Char) :
    Checked ParseError RawFrame := do
  let line := trimNewlines line
  if line = [] then throw .empty
  else do
    let (ts, rest) ← orError (splitOnce ',' line) .missingTimestamp
    let timestamp := if ts = [] then none else some (String.ofList ts)
    let base := byteLen ts + 1
    let bytes := utf8Bytes rest
    let (prio, cursor) ← takeUintWith total 255 bytes 0 base "prio"
    let (pgn, cursor) ← takeUintWith total 4294967295 bytes cursor base "pgn"
    let (src, cursor) ← takeUintWith total 255 bytes cursor base "src"
    let (dst, cursor) ← takeUintWith total 255 bytes cursor base "dst"
    let (len, cursor) ← takeUintWith total u64Max bytes cursor base "len"
    if len > RAWFRAME_MAX_SIZE then throw (.lengthTooLarge len)
    else do
      let payloadBytes ← check (slice bytes cursor bytes.length)
      let data ← payload payloadBytes (base + cursor) len 0 []
      if data.length ≠ len then throw (.badPayloadCount len data.length)
      else
        pure { timestamp, prio := UInt8.ofNat prio, pgn := UInt32.ofNat pgn,
               src := UInt8.ofNat src, dst := UInt8.ofNat dst, data }

/-- The checked build faults where a number is too large. -/
theorem parseLine_eq (line : List Char) :
    parseLine line = parseLineWith (accumulate u64Max 0) line := rfl

/-- The reader of a release build. -/
def parseLineRelease (line : List Char) : Checked ParseError RawFrame :=
  parseLineWith (fun digits => .ok (wrapped digits)) line

/-! ## The header as numerals -/

/-- The digits that come next, after spaces. -/
def numeral (s : List UInt8) : List UInt8 :=
  (s.dropWhile (· == 0x20)).takeWhile isDigitByte

def behindComma : List UInt8 → List UInt8
  | [] => []
  | b :: t => if b = 0x2c then t else b :: t

/-- What is behind them, after spaces and a comma. -/
def behindNumeral (s : List UInt8) : List UInt8 :=
  behindComma (((s.dropWhile (· == 0x20)).dropWhile isDigitByte).dropWhile (· == 0x20))

/-- The first numerals of a text. -/
def numerals : ℕ → List UInt8 → List (List UInt8)
  | 0, _ => []
  | n + 1, s => numeral s :: numerals n (behindNumeral s)

/-- The header of the line, behind its timestamp. -/
def header (line : List Char) : Option (List (List UInt8)) :=
  (splitOnce ',' (trimNewlines line)).map fun r => numerals 5 (utf8Bytes r.2)

/-- A numeral, and its number is of the type. -/
def FitsType (digits : List UInt8) (max : ℕ) : Prop := digits ≠ [] ∧ numberOf 0 digits ≤ max

/-- The largest values of the header's fields. -/
def fieldMaxes : List ℕ := [255, 4294967295, 255, 255, RAWFRAME_MAX_SIZE]

/-- Every numeral of the header fits its field. -/
def HeaderInRange (line : List Char) : Prop :=
  ∃ tokens ∈ header line, List.Forall₂ FitsType tokens fieldMaxes

/-- The frame says what the header says. -/
def SaysHeader (line : List Char) (f : RawFrame) : Prop :=
  ∃ tokens ∈ header line, tokens.map (numberOf 0) =
    [f.prio.toNat, f.pgn.toNat, f.src.toNat, f.dst.toNat, f.data.length]

/-- What is read has the header's numbers, and a header out of range is an error. -/
def ReadsHeader (line : List Char) (r : Checked ParseError RawFrame) : Prop :=
  (∀ f, r = pure f → HeaderInRange line ∧ SaysHeader line f) ∧
  (¬HeaderInRange line → ∃ e, r = throw e)

/-! ## The reader takes the numerals -/

section

variable {bytes : List UInt8} {cursor : ℕ}

theorem drop_takeWhile_length (p : UInt8 → Bool) (l : List UInt8) :
    l.drop (l.takeWhile p).length = l.dropWhile p := by
  have h : (l.takeWhile p ++ l.dropWhile p).drop (l.takeWhile p).length = l.dropWhile p :=
    List.drop_left
  rwa [List.takeWhile_append_dropWhile] at h

theorem drop_skipSpaces : bytes.drop (skipSpaces bytes cursor) =
    (bytes.drop cursor).dropWhile (· == 0x20) := by
  rw [skipSpaces, ← List.drop_drop, drop_takeWhile_length]

theorem numberAt_eq : numberAt bytes cursor = numeral (bytes.drop cursor) := by
  rw [numberAt, digitsAt, drop_skipSpaces, numeral]

theorem drop_skipComma (i : ℕ) :
    bytes.drop (skipComma bytes i) = behindComma (bytes.drop i) := by
  have hhead : bytes[i]? = (bytes.drop i).head? := List.head?_drop.symm
  have hdrop : bytes.drop (i + 1) = (bytes.drop i).drop 1 := by
    rw [List.drop_drop]
  rw [skipComma, hhead]
  split_ifs with hcomma
  · rw [hdrop]
    cases ht : bytes.drop i with
    | nil =>
        rw [ht] at hcomma
        cases hcomma
    | cons b t =>
        rw [ht, List.head?_cons, Option.some.injEq] at hcomma
        rw [List.drop_succ_cons, List.drop_zero]
        exact (if_pos hcomma).symm
  · cases ht : bytes.drop i with
    | nil => rfl
    | cons b t =>
        rw [ht, List.head?_cons, Option.some.injEq] at hcomma
        exact (if_neg hcomma).symm

theorem drop_afterNumber :
    bytes.drop (afterNumber bytes cursor) = behindNumeral (bytes.drop cursor) := by
  rw [afterNumber, drop_skipComma, drop_skipSpaces, ← List.drop_drop, drop_skipSpaces,
    numberAt_eq, numeral, drop_takeWhile_length, behindNumeral]

theorem takeUintWith_eq_pure {total : List UInt8 → Except Fault ℕ} {max base : ℕ} {field : String}
    {r : ℕ × ℕ} :
    takeUintWith total max bytes cursor base field = pure r ↔
      numeral (bytes.drop cursor) ≠ [] ∧ r.1 ≤ max ∧ total (numeral (bytes.drop cursor)) = .ok r.1 ∧
        r.2 = afterNumber bytes cursor := by
  obtain ⟨n, c⟩ := r
  rw [takeUintWith, numberAt_eq, bind_eq_pure]
  constructor
  · rintro ⟨acc, htotal, h⟩
    rw [check_eq_pure] at htotal
    split_ifs at h with hnone hmax
    · obtain ⟨value, -, hthrow⟩ := bind_eq_pure.mp h
      exact absurd hthrow (throw_ne_pure _ _)
    · rw [pure_inj, Prod.mk.injEq] at h
      obtain ⟨rfl, rfl⟩ := h
      exact ⟨hnone, hmax, htotal, rfl⟩
    · exact absurd h (throw_ne_pure _ _)
  · rintro ⟨hne, hmax, htotal, rfl⟩
    refine ⟨n, check_eq_pure.mpr htotal, ?_⟩
    rw [if_neg hne, if_pos hmax]

end

/-- The numbers of the numerals, taken with their bounds. -/
def Totals (total : List UInt8 → Except Fault ℕ) : List UInt8 → List ℕ → List ℕ → Prop
  | _, [], [] => True
  | s, max :: maxes, n :: ns =>
      numeral s ≠ [] ∧ n ≤ max ∧ total (numeral s) = .ok n ∧
        Totals total (behindNumeral s) maxes ns
  | _, _, _ => False

/-- A frame that is read has the numbers of its header, and the timestamp before it. -/
theorem parseLineWith_eq_pure {total : List UInt8 → Except Fault ℕ} {line : List Char}
    {f : RawFrame} (h : parseLineWith total line = pure f) :
    ∃ ts rest prio pgn src dst, splitOnce ',' (trimNewlines line) = some (ts, rest) ∧
      f.timestamp = (if ts = [] then none else some (String.ofList ts)) ∧
      Totals total (utf8Bytes rest) headerMaxes [prio, pgn, src, dst, f.data.length] ∧
      f.data.length ≤ RAWFRAME_MAX_SIZE ∧ f.prio = UInt8.ofNat prio ∧ f.pgn = UInt32.ofNat pgn ∧
      f.src = UInt8.ofNat src ∧ f.dst = UInt8.ofNat dst := by
  rw [parseLineWith] at h
  dsimp only at h
  obtain ⟨-, h⟩ := ite_throw_eq_pure.mp h
  obtain ⟨⟨ts, rest⟩, hsplit, h⟩ := bind_eq_pure.mp h
  rw [orError_eq_pure] at hsplit
  dsimp only at h
  obtain ⟨⟨prio, c₁⟩, hprio, h⟩ := bind_eq_pure.mp h
  obtain ⟨⟨pgn, c₂⟩, hpgn, h⟩ := bind_eq_pure.mp h
  obtain ⟨⟨src, c₃⟩, hsrc, h⟩ := bind_eq_pure.mp h
  obtain ⟨⟨dst, c₄⟩, hdst, h⟩ := bind_eq_pure.mp h
  obtain ⟨⟨len, c₅⟩, hlen, h⟩ := bind_eq_pure.mp h
  obtain ⟨hmax, h⟩ := ite_throw_eq_pure.mp h
  obtain ⟨payloadBytes, -, h⟩ := bind_eq_pure.mp h
  obtain ⟨data, -, h⟩ := bind_eq_pure.mp h
  obtain ⟨hcount, h⟩ := ite_throw_eq_pure.mp h
  rw [pure_inj] at h
  subst h
  rw [takeUintWith_eq_pure] at hprio hpgn hsrc hdst hlen
  obtain ⟨hne₁, hle₁, htotal₁, rfl⟩ := hprio
  obtain ⟨hne₂, hle₂, htotal₂, rfl⟩ := hpgn
  obtain ⟨hne₃, hle₃, htotal₃, rfl⟩ := hsrc
  obtain ⟨hne₄, hle₄, htotal₄, rfl⟩ := hdst
  obtain ⟨hne₅, hle₅, htotal₅, rfl⟩ := hlen
  simp only [drop_afterNumber, List.drop_zero] at *
  obtain rfl := not_not.mp hcount
  exact ⟨ts, rest, prio, pgn, src, dst, hsplit, rfl,
    ⟨hne₁, hle₁, htotal₁, hne₂, hle₂, htotal₂, hne₃, hle₃, htotal₃, hne₄, hle₄, htotal₄,
      hne₅, hle₅, htotal₅, trivial⟩, Nat.not_lt.mp hmax, rfl, rfl, rfl, rfl⟩

/-! ## Both builds, up to the first number that is too large -/

theorem wrapped_eq (digits : List UInt8) :
    wrapped digits = numberOf 0 digits % 18446744073709551616 := by
  have hfold : ∀ acc, digits.foldl
      (fun acc b => (acc * 10 + (b.toNat - 48)) % 18446744073709551616)
        (acc % 18446744073709551616) = numberOf acc digits % 18446744073709551616 := by
    induction digits with
    | nil =>
        intro acc
        rfl
    | cons b digits ih =>
        intro acc
        have hstep : (acc % 18446744073709551616 * 10 + (b.toNat - 48)) % 18446744073709551616 =
            (acc * 10 + (b.toNat - 48)) % 18446744073709551616 := by omega
        rw [List.foldl_cons, hstep, ih, numberOf, numberOf, List.foldl_cons]
  exact hfold 0

/-- A number that the checked build adds up. -/
theorem totals_agree {digits : List UInt8} (h : numberOf 0 digits ≤ u64Max) :
    accumulate u64Max 0 digits = .ok (numberOf 0 digits) ∧
      wrapped digits = numberOf 0 digits := by
  refine ⟨(accumulate_ok_iff (Nat.zero_le _)).mpr ⟨h, rfl⟩, ?_⟩
  rw [wrapped_eq, Nat.mod_eq_of_lt]
  rw [u64Max] at h
  omega

theorem release_bind {α : Type} {bytes : List UInt8} {cursor base max : ℕ} {maxes : List ℕ}
    {field : String} (h : HeaderFits bytes (max :: maxes) cursor)
    {f g : ℕ × ℕ → Checked ParseError α}
    (hfg : ∀ n c, HeaderFits bytes maxes c → f (n, c) = g (n, c)) :
    (takeUintWith (fun digits => .ok (wrapped digits)) max bytes cursor base field >>= f) =
      (takeUintWith (accumulate u64Max 0) max bytes cursor base field >>= g) := by
  obtain ⟨hfits, hrest⟩ := h
  obtain ⟨hchecked, hwrapped⟩ := totals_agree hfits
  have hsame : takeUintWith (fun digits => .ok (wrapped digits)) max bytes cursor base field =
      takeUintWith (accumulate u64Max 0) max bytes cursor base field := by
    rw [takeUintWith, takeUintWith, hchecked, hwrapped]
  rw [hsame]
  apply bind_congr_pure
  rintro ⟨n, c⟩ hn
  rw [takeUintWith_eq_pure, ← numberAt_eq] at hn
  obtain ⟨hne, hmax, htotal, hc⟩ := hn
  dsimp only at hmax htotal hc
  rw [hchecked, Except.ok.injEq] at htotal
  subst htotal
  subst hc
  exact hfg _ _ (hrest hne hmax)

theorem parseLineRelease_eq {line : List Char} (h : Fits line) :
    parseLineRelease line = parseLine line := by
  rw [parseLineRelease, parseLine_eq, parseLineWith, parseLineWith]
  dsimp only
  split_ifs with hempty
  · rfl
  apply bind_congr_pure
  rintro ⟨ts, rest⟩ hsplit
  rw [orError_eq_pure] at hsplit
  have hheader := h _ hsplit
  dsimp only at hheader ⊢
  refine release_bind hheader fun prio c hheader => ?_
  refine release_bind hheader fun pgn c hheader => ?_
  refine release_bind hheader fun src c hheader => ?_
  refine release_bind hheader fun dst c hheader => ?_
  exact release_bind hheader fun len c hheader => rfl

/-- Numbers that are in range fit 64 bits. -/
theorem fits_of_headerInRange {line : List Char} (h : HeaderInRange line) : Fits line := by
  obtain ⟨tokens, htokens, hrange⟩ := h
  intro r hr
  rw [header, Option.mem_def, Option.map_eq_some_iff] at htokens
  obtain ⟨r', hr', rfl⟩ := htokens
  rw [hr] at hr'
  obtain rfl := Option.some.inj hr'
  have hwide : ∀ {n max : ℕ}, n ≤ max → max ≤ 4294967295 → n ≤ u64Max := by
    intro n max hn hmax
    rw [u64Max]
    omega
  simp only [numerals, fieldMaxes, List.forall₂_cons, FitsType] at hrange
  obtain ⟨⟨-, h₁⟩, ⟨-, h₂⟩, ⟨-, h₃⟩, ⟨-, h₄⟩, ⟨-, h₅⟩, -⟩ := hrange
  simp only [headerMaxes, HeaderFits, numberAt_eq, drop_afterNumber, List.drop_zero]
  exact ⟨hwide h₁ (by decide), fun _ _ => ⟨hwide h₂ (by decide), fun _ _ =>
    ⟨hwide h₃ (by decide), fun _ _ => ⟨hwide h₄ (by decide), fun _ _ =>
      ⟨hwide h₅ (by decide), fun _ _ => trivial⟩⟩⟩⟩⟩

/-- What the checked build reads is in range and says what the header says. -/
theorem header_of_parseLine {line : List Char} {f : RawFrame} (h : parseLine line = pure f) :
    HeaderInRange line ∧ SaysHeader line f := by
  rw [parseLine_eq] at h
  obtain ⟨ts, rest, prio, pgn, src, dst, hsplit, -, htotals, hlen, hprio, hpgn, hsrc, hdst⟩ :=
    parseLineWith_eq_pure h
  have hheader : header line = some (numerals 5 (utf8Bytes rest)) := by
    rw [header, hsplit, Option.map_some]
  have hnumber : ∀ {digits : List UInt8} {n : ℕ}, accumulate u64Max 0 digits = .ok n →
      numberOf 0 digits = n := fun hok => ((accumulate_ok_iff (Nat.zero_le _)).mp hok).2.symm
  obtain ⟨hne₁, hle₁, ht₁, hne₂, hle₂, ht₂, hne₃, hle₃, ht₃, hne₄, hle₄, ht₄, hne₅, -, ht₅, -⟩ :=
    htotals
  have h₁ := hnumber ht₁
  have h₂ := hnumber ht₂
  have h₃ := hnumber ht₃
  have h₄ := hnumber ht₄
  have h₅ := hnumber ht₅
  constructor
  · refine ⟨_, hheader, ?_⟩
    simp only [numerals, fieldMaxes, List.forall₂_cons, FitsType, h₁, h₂, h₃, h₄, h₅]
    exact ⟨⟨hne₁, hle₁⟩, ⟨hne₂, hle₂⟩, ⟨hne₃, hle₃⟩, ⟨hne₄, hle₄⟩, ⟨hne₅, hlen⟩, .nil⟩
  · refine ⟨_, hheader, ?_⟩
    have hbyte : ∀ {n : ℕ}, n ≤ 255 → (UInt8.ofNat n).toNat = n := by
      intro n hn
      rw [UInt8.toNat_ofNat', Nat.mod_eq_of_lt (by omega)]
    have hword : (UInt32.ofNat pgn).toNat = pgn := by
      rw [UInt32.toNat_ofNat', Nat.mod_eq_of_lt (by omega)]
    simp only [numerals, List.map_cons, List.map_nil, h₁, h₂, h₃, h₄, h₅]
    rw [hprio, hpgn, hsrc, hdst, hbyte hle₁, hword, hbyte hle₃, hbyte hle₄]

/-- The header means what it says, in both builds, just where each number that is reached has
64 bits. -/
theorem readsHeader_iff (line : List Char) :
    ReadsHeader line (parseLine line) ∧ ReadsHeader line (parseLineRelease line) ↔ Fits line := by
  constructor
  · rintro ⟨⟨-, herror⟩, -⟩
    by_contra hfits
    obtain ⟨e, he⟩ := herror fun hrange => hfits (fits_of_headerInRange hrange)
    apply hfits
    rw [← parseLine_returns_iff, he]
    exact returns_throw e
  · intro hfits
    have hreads : ReadsHeader line (parseLine line) := by
      refine ⟨fun f => header_of_parseLine, fun hrange => ?_⟩
      rcases ((parseLine_returns_iff line).mpr hfits).cases with ⟨f, hf⟩ | herror
      · exact absurd (header_of_parseLine hf).1 hrange
      · exact herror
    refine ⟨hreads, ?_⟩
    rw [parseLineRelease_eq hfits]
    exact hreads

/-- A line whose priority is 2^64 + 3. -/
def wideLine : List Char := "t,18446744073709551619,129029,36,255,1,e6".toList

/-- What the wrapped number makes of it. -/
def wideLineFrame : RawFrame where
  timestamp := some "t"
  prio := 3
  pgn := 129029
  src := 36
  dst := 255
  data := [0xe6]

/-- The checked build faults on it, and the other takes the priority for 3. -/
theorem wideLine_read :
    (parseLine wideLine).run = .error .overflow ∧
    (parseLineRelease wideLine).run = .ok (.ok wideLineFrame) ∧
    ¬ReadsHeader wideLine (parseLine wideLine) ∧
    ¬ReadsHeader wideLine (parseLineRelease wideLine) := by
  have hchecked : (parseLine wideLine).run = .error .overflow := by decide +kernel
  have hrelease : (parseLineRelease wideLine).run = .ok (.ok wideLineFrame) := by decide +kernel
  have hrange : ¬HeaderInRange wideLine := by
    rintro ⟨tokens, htokens, hrange⟩
    have hheader : header wideLine = some [utf8Bytes "18446744073709551619".toList,
        utf8Bytes "129029".toList, utf8Bytes "36".toList, utf8Bytes "255".toList,
        utf8Bytes "1".toList] := by decide +kernel
    have hprio : numberOf 0 (utf8Bytes "18446744073709551619".toList) =
        18446744073709551619 := by decide +kernel
    rw [hheader] at htokens
    obtain rfl := Option.mem_some.mp htokens
    simp only [fieldMaxes, List.forall₂_cons] at hrange
    have hle := hrange.1.2
    rw [hprio] at hle
    omega
  refine ⟨hchecked, hrelease, ?_, ?_⟩
  · rintro ⟨-, herror⟩
    obtain ⟨e, he⟩ := herror hrange
    rw [he] at hchecked
    cases hchecked
  · rintro ⟨hvalue, -⟩
    exact hrange (hvalue _ hrelease).1

end Plain

end Canboat
