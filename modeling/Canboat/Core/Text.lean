import Mathlib.Data.Nat.Notation

/-!
# Text out of bytes

Lossy conversions, which put U+FFFD for what is not text, and the white space and padding to
trim.
-/

namespace Canboat

def replacementChar : Char := '\uFFFD'

/-- A sequence that still needs bytes, the next one between the bounds. -/
structure Utf8Pending where
  code : ℕ
  needed : ℕ
  lower : UInt8
  upper : UInt8
deriving DecidableEq, Repr

/-- A byte where a sequence may begin. -/
def utf8First (b : UInt8) : List Char × Option Utf8Pending :=
  if b < 0x80 then ([Char.ofNat b.toNat], none)
  else if 0xc2 ≤ b ∧ b ≤ 0xdf then ([], some ⟨b.toNat - 0xc0, 1, 0x80, 0xbf⟩)
  else if b = 0xe0 then ([], some ⟨0, 2, 0xa0, 0xbf⟩)
  else if b = 0xed then ([], some ⟨0xd, 2, 0x80, 0x9f⟩)
  else if 0xe1 ≤ b ∧ b ≤ 0xef then ([], some ⟨b.toNat - 0xe0, 2, 0x80, 0xbf⟩)
  else if b = 0xf0 then ([], some ⟨0, 3, 0x90, 0xbf⟩)
  else if 0xf1 ≤ b ∧ b ≤ 0xf3 then ([], some ⟨b.toNat - 0xf0, 3, 0x80, 0xbf⟩)
  else if b = 0xf4 then ([], some ⟨4, 3, 0x80, 0x8f⟩)
  else ([replacementChar], none)

/-- A byte after a sequence's first; one that cannot go on ends the sequence before it. -/
def utf8Next (p : Utf8Pending) (b : UInt8) : List Char × Option Utf8Pending :=
  if p.lower ≤ b ∧ b ≤ p.upper then
    let code := p.code * 64 + (b.toNat - 0x80)
    if p.needed = 1 then ([Char.ofNat code], none)
    else ([], some ⟨code, p.needed - 1, 0x80, 0xbf⟩)
  else (replacementChar :: (utf8First b).1, (utf8First b).2)

def utf8LossyFrom : Option Utf8Pending → List UInt8 → List Char
  | none, [] => []
  | some _, [] => [replacementChar]
  | none, b :: bytes => (utf8First b).1 ++ utf8LossyFrom (utf8First b).2 bytes
  | some p, b :: bytes => (utf8Next p b).1 ++ utf8LossyFrom (utf8Next p b).2 bytes

/-- `String::from_utf8_lossy`. -/
def fromUtf8Lossy (bytes : List UInt8) : List Char := utf8LossyFrom none bytes

/-- `String::from_utf16_lossy`. -/
def fromUtf16Lossy : List UInt16 → List Char
  | [] => []
  | u :: units =>
      if u < 0xd800 ∨ 0xdfff < u then Char.ofNat u.toNat :: fromUtf16Lossy units
      else
        match units with
        | [] => [replacementChar]
        | v :: rest =>
            if u < 0xdc00 ∧ 0xdc00 ≤ v ∧ v ≤ 0xdfff then
              Char.ofNat (0x10000 + (u.toNat - 0xd800) * 1024 + (v.toNat - 0xdc00)) ::
                fromUtf16Lossy rest
            else replacementChar :: fromUtf16Lossy (v :: rest)

/-- Little-endian code units; an odd byte at the end is left out. -/
def codeUnits : List UInt8 → List UInt16
  | a :: b :: bytes => (a.toUInt16 ||| (b.toUInt16 <<< 8)) :: codeUnits bytes
  | _ => []

/-- Without the elements at the end that the predicate holds of. -/
def trimEnd {α : Type*} (p : α → Bool) (l : List α) : List α := (l.reverse.dropWhile p).reverse

/-- Unicode `White_Space`. -/
def isWhitespace (c : Char) : Bool :=
  (0x9 ≤ c.toNat && c.toNat ≤ 0xd) || c.toNat == 0x20 || c.toNat == 0x85 || c.toNat == 0xa0 ||
    c.toNat == 0x1680 || (0x2000 ≤ c.toNat && c.toNat ≤ 0x200a) || c.toNat == 0x2028 ||
    c.toNat == 0x2029 || c.toNat == 0x202f || c.toNat == 0x205f || c.toNat == 0x3000

def trimStart (s : List Char) : List Char := s.dropWhile isWhitespace

def trim (s : List Char) : List Char := (trimStart (trimStart s).reverse).reverse

/-- A byte that pads text. -/
def isPaddingByte (b : UInt8) : Bool := b == 0xff || b == 0 || b == 0x40 || b == 0x20

def trimStringPadding (s : List Char) : List Char :=
  trimEnd (fun c => c == '\x00' || c == '@' || c == ' ' || c == '\u00ff') s

example : fromUtf8Lossy [0x68, 0xc3, 0xa9, 0xe2, 0x82, 0x21, 0xff] =
    ['h', 'é', replacementChar, '!', replacementChar] := by decide

end Canboat
