import Canboat.Core.Str
import Canboat.Frame
import Canboat.Lib.Checked

/-!
# PLAIN and FAST lines

    <timestamp>,<prio>,<pgn>,<src>,<dst>,<len>,<hex0>,<hex1>,...,<hexN>
-/

namespace Canboat

inductive ParseError
  | empty
  | missingTimestamp
  | badHeader (expected found : ℕ)
  | badInteger (field : String) (value : List Char) (offset : Option ℕ)
  | lengthTooLarge (len : ℕ)
  | badPayloadCount (expected found : ℕ)
  | badHexByte (index : ℕ) (value : List Char) (offset : Option ℕ)
deriving DecidableEq, Repr

open Checked

/-- The largest payload of the ISO 11783 Transport Protocol: `255 * 7`. -/
def RAWFRAME_MAX_SIZE : ℕ := 1785

/-- The largest `u64`, and `usize`. -/
def u64Max : ℕ := 18446744073709551615

namespace Plain

def isDigitByte (b : UInt8) : Bool := 0x30 ≤ b && b ≤ 0x39

def hexNibble (b : UInt8) : UInt8 :=
  if isDigitByte b then b - 0x30
  else if 0x61 ≤ b && b ≤ 0x66 then b - 0x61 + 10
  else if 0x41 ≤ b && b ≤ 0x46 then b - 0x41 + 10
  else 0xff

/-- The position after the spaces. -/
def skipSpaces (bytes : List UInt8) (i : ℕ) : ℕ :=
  i + ((bytes.drop i).takeWhile (· == 0x20)).length

def skipComma (bytes : List UInt8) (i : ℕ) : ℕ := if bytes[i]? = some 0x2c then i + 1 else i

/-- The number so far with the digits after it, in a type with a largest number. -/
def accumulate (max acc : ℕ) : List UInt8 → Except Fault ℕ
  | [] => .ok acc
  | b :: digits => do
      let scaled ← checkedNat max (acc * 10)
      let acc ← checkedNat max (scaled + (b.toNat - 48))
      accumulate max acc digits

/-- The digits of the number at the position. -/
def digitsAt (bytes : List UInt8) (start : ℕ) : List UInt8 :=
  (bytes.drop start).takeWhile isDigitByte

/-- The digits of the next number. -/
def numberAt (bytes : List UInt8) (cursor : ℕ) : List UInt8 :=
  digitsAt bytes (skipSpaces bytes cursor)

/-- The position after the next number, its spaces and its comma. -/
def afterNumber (bytes : List UInt8) (cursor : ℕ) : ℕ :=
  skipComma bytes (skipSpaces bytes (skipSpaces bytes cursor + (numberAt bytes cursor).length))

/-- A number and the position after it. -/
def takeUintUntilComma (max : ℕ) (bytes : List UInt8) (cursor base : ℕ) (field : String) :
    Checked ParseError (ℕ × ℕ) := do
  let start := skipSpaces bytes cursor
  let digits := numberAt bytes cursor
  let acc ← check (accumulate u64Max 0 digits)
  if digits = [] then do
    let value ← check (slice bytes start (start + digits.length))
    throw (.badInteger field (fromUtf8Lossy value) (some (base + start)))
  else if acc ≤ max then pure (acc, afterNumber bytes cursor)
  else throw (.badInteger field acc.repr.toList (some (base + start)))

/-- So many bytes of the payload, from a position on. -/
def payload (bytes : List UInt8) (base : ℕ) : ℕ → ℕ → List UInt8 → Checked ParseError (List UInt8)
  | 0, _, data => pure data
  | n + 1, i, data =>
      if i < bytes.length then do
        let i := skipSpaces bytes i
        if i + 2 > bytes.length then do
          let value ← check (slice bytes i bytes.length)
          throw (.badHexByte data.length (fromUtf8Lossy value) (some (base + i)))
        else do
          let hi ← check (byteAt bytes i)
          let lo ← check (byteAt bytes (i + 1))
          if hexNibble hi = 0xff ∨ hexNibble lo = 0xff then do
            let value ← check (slice bytes i (i + 2))
            throw (.badHexByte data.length (fromUtf8Lossy value) (some (base + i)))
          else
            payload bytes base n (skipComma bytes (skipSpaces bytes (i + 2)))
              (data ++ [(hexNibble hi <<< 4) ||| hexNibble lo])
      else pure data

def parseLine (line : List Char) : Checked ParseError RawFrame := do
  let line := trimNewlines line
  if line = [] then throw .empty
  else do
    let (ts, rest) ← orError (splitOnce ',' line) .missingTimestamp
    let timestamp := if ts = [] then none else some (String.ofList ts)
    let base := byteLen ts + 1
    let bytes := utf8Bytes rest
    let (prio, cursor) ← takeUintUntilComma 255 bytes 0 base "prio"
    let (pgn, cursor) ← takeUintUntilComma 4294967295 bytes cursor base "pgn"
    let (src, cursor) ← takeUintUntilComma 255 bytes cursor base "src"
    let (dst, cursor) ← takeUintUntilComma 255 bytes cursor base "dst"
    let (len, cursor) ← takeUintUntilComma u64Max bytes cursor base "len"
    if len > RAWFRAME_MAX_SIZE then throw (.lengthTooLarge len)
    else do
      let payloadBytes ← check (slice bytes cursor bytes.length)
      let data ← payload payloadBytes (base + cursor) len 0 []
      if data.length ≠ len then throw (.badPayloadCount len data.length)
      else
        pure { timestamp, prio := UInt8.ofNat prio, pgn := UInt32.ofNat pgn,
               src := UInt8.ofNat src, dst := UInt8.ofNat dst, data }

/-! ## When a line can be read -/

section

variable {bytes : List UInt8}

theorem add_takeWhile_le {α : Type} {l : List α} {i : ℕ} (h : i ≤ l.length) (p : α → Bool) :
    i + ((l.drop i).takeWhile p).length ≤ l.length := by
  have hle := (List.takeWhile_prefix p (l := l.drop i)).length_le
  rw [List.length_drop] at hle
  omega

theorem skipSpaces_le {i : ℕ} (h : i ≤ bytes.length) : skipSpaces bytes i ≤ bytes.length :=
  add_takeWhile_le h _

theorem le_skipSpaces (i : ℕ) : i ≤ skipSpaces bytes i := Nat.le_add_right _ _

theorem skipComma_le {i : ℕ} (h : i ≤ bytes.length) : skipComma bytes i ≤ bytes.length := by
  rw [skipComma]
  split_ifs with hcomma
  · exact (List.getElem?_eq_some_iff.mp hcomma).1
  · exact h

/-- The number that digits denote after others. -/
def numberOf (acc : ℕ) (digits : List UInt8) : ℕ :=
  digits.foldl (fun n b => n * 10 + (b.toNat - 48)) acc

theorem le_numberOf (acc : ℕ) (digits : List UInt8) : acc ≤ numberOf acc digits := by
  induction digits generalizing acc with
  | nil => exact Nat.le_refl acc
  | cons b digits ih =>
      have hle := ih (acc * 10 + (b.toNat - 48))
      rw [numberOf, List.foldl_cons]
      exact Nat.le_trans (by omega) hle

theorem accumulate_ok_iff {max acc m : ℕ} {digits : List UInt8} (hacc : acc ≤ max) :
    accumulate max acc digits = .ok m ↔ numberOf acc digits ≤ max ∧ m = numberOf acc digits := by
  induction digits generalizing acc with
  | nil => rw [accumulate, numberOf, List.foldl_nil, and_iff_right hacc, Except.ok.injEq, eq_comm]
  | cons b digits ih =>
      rw [accumulate, numberOf, List.foldl_cons]
      have hle := le_numberOf (acc * 10 + (b.toNat - 48)) digits
      by_cases hfits : acc * 10 + (b.toNat - 48) ≤ max
      · rw [checkedNat_of_le (Nat.le_trans (Nat.le_add_right _ _) hfits)]
        dsimp only [bind, Except.bind]
        rw [checkedNat_of_le hfits]
        exact ih hfits
      · refine iff_of_false (fun h => ?_) fun h => hfits (Nat.le_trans hle h.1)
        cases hscaled : checkedNat max (acc * 10) with
        | error e =>
            rw [hscaled] at h
            cases h
        | ok scaled =>
            obtain ⟨-, rfl⟩ := checkedNat_ok_iff.mp hscaled
            rw [hscaled] at h
            dsimp only [bind, Except.bind] at h
            rw [checkedNat, if_neg hfits] at h
            cases h

theorem returns_takeUint_bind {α : Type} {max cursor base : ℕ} {field : String}
    (hcursor : cursor ≤ bytes.length) {f : ℕ × ℕ → Checked ParseError α} :
    Returns (takeUintUntilComma max bytes cursor base field >>= f) ↔
      numberOf 0 (numberAt bytes cursor) ≤ u64Max ∧
      (numberAt bytes cursor ≠ [] → numberOf 0 (numberAt bytes cursor) ≤ max →
        Returns (f (numberOf 0 (numberAt bytes cursor), afterNumber bytes cursor))) := by
  have hend : skipSpaces bytes cursor + (numberAt bytes cursor).length ≤ bytes.length :=
    add_takeWhile_le (skipSpaces_le hcursor) _
  rw [takeUintUntilComma, bind_assoc, returns_check_bind]
  simp only [accumulate_ok_iff (Nat.zero_le u64Max)]
  constructor
  · rintro ⟨acc, ⟨hfits, rfl⟩, h⟩
    refine ⟨hfits, fun hdigits hmax => ?_⟩
    rw [if_neg hdigits, if_pos hmax, pure_bind] at h
    exact h
  · rintro ⟨hfits, h⟩
    refine ⟨_, ⟨hfits, rfl⟩, ?_⟩
    split_ifs with hdigits hmax
    · rw [bind_assoc, returns_check_bind]
      exact ⟨_, slice_of_le (Nat.le_add_right _ _) hend, returns_throw _⟩
    · rw [pure_bind]
      exact h hdigits hmax
    · exact returns_throw _

theorem returns_payload (base n : ℕ) {i : ℕ} (hi : i ≤ bytes.length) (data : List UInt8) :
    Returns (payload bytes base n i data) := by
  induction n generalizing i data with
  | zero => exact returns_pure _
  | succ n ih =>
      have hstart := skipSpaces_le hi
      rw [payload]
      dsimp only
      split_ifs with hin hshort
      · rw [returns_check_bind]
        exact ⟨_, slice_of_le hstart (Nat.le_refl _), returns_throw _⟩
      · rw [returns_check_bind]
        refine ⟨_, byteAt_of_lt (show skipSpaces bytes i < bytes.length by omega), ?_⟩
        rw [returns_check_bind]
        refine ⟨_, byteAt_of_lt (show skipSpaces bytes i + 1 < bytes.length by omega), ?_⟩
        split_ifs with hbad
        · rw [returns_check_bind]
          exact ⟨_, slice_of_le (Nat.le_add_right _ _) (by omega), returns_throw _⟩
        · exact ih (skipComma_le (skipSpaces_le (by omega))) _
      · exact returns_pure _

end

/-- No number of the header, up to one that is an error, is too large for 64 bits. -/
def HeaderFits (bytes : List UInt8) : List ℕ → ℕ → Prop
  | [], _ => True
  | max :: maxes, cursor =>
      numberOf 0 (numberAt bytes cursor) ≤ u64Max ∧
      (numberAt bytes cursor ≠ [] → numberOf 0 (numberAt bytes cursor) ≤ max →
        HeaderFits bytes maxes (afterNumber bytes cursor))

/-- The largest numbers of the header's fields. -/
def headerMaxes : List ℕ := [255, 4294967295, 255, 255, u64Max]

def Fits (line : List Char) : Prop :=
  ∀ r ∈ splitOnce ',' (trimNewlines line), HeaderFits (utf8Bytes r.2) headerMaxes 0

theorem afterNumber_le {bytes : List UInt8} {cursor : ℕ} (h : cursor ≤ bytes.length) :
    afterNumber bytes cursor ≤ bytes.length :=
  skipComma_le (skipSpaces_le (add_takeWhile_le (skipSpaces_le h) _))

theorem parseLine_returns_iff (line : List Char) : Returns (parseLine line) ↔ Fits line := by
  rw [parseLine, Fits]
  dsimp only
  rw [returns_ite_throw]
  have hnonempty : ∀ r ∈ splitOnce ',' (trimNewlines line), trimNewlines line ≠ [] := by
    intro r hr hnil
    rw [hnil] at hr
    cases hr
  rw [returns_orError_bind]
  refine Iff.trans ⟨fun h r hr => h (hnonempty r hr) r hr, fun h _ => h⟩
    (forall₂_congr fun r _ => ?_)
  generalize byteLen r.1 + 1 = base
  generalize utf8Bytes r.2 = bytes
  have hprio := Nat.zero_le bytes.length
  have hpgn := afterNumber_le hprio
  have hsrc := afterNumber_le hpgn
  have hdst := afterNumber_le hsrc
  have hlen := afterNumber_le hdst
  have hpayload := afterNumber_le hlen
  rw [headerMaxes, HeaderFits, returns_takeUint_bind hprio]
  refine and_congr_right fun _ => forall₂_congr fun _ _ => ?_
  rw [HeaderFits, returns_takeUint_bind hpgn]
  refine and_congr_right fun _ => forall₂_congr fun _ _ => ?_
  rw [HeaderFits, returns_takeUint_bind hsrc]
  refine and_congr_right fun _ => forall₂_congr fun _ _ => ?_
  rw [HeaderFits, returns_takeUint_bind hdst]
  refine and_congr_right fun _ => forall₂_congr fun _ _ => ?_
  rw [HeaderFits, returns_takeUint_bind hlen]
  refine and_congr_right fun _ => forall₂_congr fun _ _ => ?_
  rw [HeaderFits, returns_ite_throw, iff_true]
  intro _
  rw [returns_check_bind]
  refine ⟨_, slice_of_le hpayload (Nat.le_refl _), ?_⟩
  rw [returns_bind]
  refine ⟨returns_payload _ _ (Nat.zero_le _) _, fun data _ => ?_⟩
  rw [returns_ite_throw]
  exact fun _ => returns_pure _

end Plain

end Canboat
