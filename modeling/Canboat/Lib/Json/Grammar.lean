import Mathlib.Data.List.Basic
import Mathlib.Data.Nat.Notation

/-!
# JSON texts

The grammar of RFC 8259 over lists of characters.
-/

namespace Json

/-- Along the list, and not over all the characters there are. -/
instance decidableForallMem (p : Char → Prop) [DecidablePred p] (s : List Char) :
    Decidable (∀ c ∈ s, p c) :=
  List.decidableBAll p s

def isWs (c : Char) : Bool := c == ' ' || c == '\t' || c == '\n' || c == '\r'

def isDigit (c : Char) : Bool := '0' ≤ c && c ≤ '9'

def isHex (c : Char) : Bool := isDigit c || ('a' ≤ c && c ≤ 'f') || ('A' ≤ c && c ≤ 'F')

/-- A character that stands for itself in a string. -/
def isPlain (c : Char) : Bool := 0x20 ≤ c.toNat && c != '"' && c != '\\'

/-- A character that follows a backslash on its own. -/
def isEscape (c : Char) : Bool :=
  c == '"' || c == '\\' || c == '/' || c == 'b' || c == 'f' || c == 'n' || c == 'r' || c == 't'

def Ws (s : List Char) : Prop := ∀ c ∈ s, isWs c = true

def Digits (s : List Char) : Prop := ∀ c ∈ s, isDigit c = true

/-! ## Numbers -/

/-- No leading zeros. -/
inductive IntPart : List Char → Prop
  | zero : IntPart ['0']
  | digits {c : Char} {s : List Char} (hc : isDigit c = true) (hzero : c ≠ '0')
      (hs : Digits s) : IntPart (c :: s)

inductive FracPart : List Char → Prop
  | absent : FracPart []
  | present {c : Char} {s : List Char} (hc : isDigit c = true) (hs : Digits s) :
      FracPart ('.' :: c :: s)

inductive ExpPart : List Char → Prop
  | absent : ExpPart []
  | unsigned {e c : Char} {s : List Char} (he : e = 'e' ∨ e = 'E') (hc : isDigit c = true)
      (hs : Digits s) : ExpPart (e :: c :: s)
  | signed {e g c : Char} {s : List Char} (he : e = 'e' ∨ e = 'E') (hg : g = '+' ∨ g = '-')
      (hc : isDigit c = true) (hs : Digits s) : ExpPart (e :: g :: c :: s)

inductive Unsigned : List Char → Prop
  | mk {int frac exp : List Char} (hint : IntPart int) (hfrac : FracPart frac)
      (hexp : ExpPart exp) : Unsigned (int ++ (frac ++ exp))

inductive Number : List Char → Prop
  | plus {s : List Char} (hs : Unsigned s) : Number s
  | minus {s : List Char} (hs : Unsigned s) : Number ('-' :: s)

/-! ## Strings -/

inductive Chars : List Char → Prop
  | nil : Chars []
  | plain {c : Char} {s : List Char} (hc : isPlain c = true) (hs : Chars s) : Chars (c :: s)
  | escape {c : Char} {s : List Char} (hc : isEscape c = true) (hs : Chars s) :
      Chars ('\\' :: c :: s)
  | unicode {a b c d : Char} {s : List Char} (ha : isHex a = true) (hb : isHex b = true)
      (hc : isHex c = true) (hd : isHex d = true) (hs : Chars s) :
      Chars ('\\' :: 'u' :: a :: b :: c :: d :: s)

/-- A quoted string. -/
inductive Str : List Char → Prop
  | mk {s : List Char} (hs : Chars s) : Str ('"' :: (s ++ ['"']))

/-! ## Values -/

mutual

inductive Value : List Char → Prop
  | litNull : Value "null".toList
  | litTrue : Value "true".toList
  | litFalse : Value "false".toList
  | number {s : List Char} (hs : Number s) : Value s
  | string {s : List Char} (hs : Str s) : Value s
  | emptyArray {w : List Char} (hw : Ws w) : Value ('[' :: (w ++ [']']))
  | array {s : List Char} (hs : Elements s) : Value ('[' :: (s ++ [']']))
  | emptyObject {w : List Char} (hw : Ws w) : Value ('\x7b' :: (w ++ ['\x7d']))
  | object {s : List Char} (hs : Members s) : Value ('\x7b' :: (s ++ ['\x7d']))

/-- A value between white space. -/
inductive Element : List Char → Prop
  | mk {w v w' : List Char} (hw : Ws w) (hv : Value v) (hw' : Ws w') : Element (w ++ (v ++ w'))

inductive Elements : List Char → Prop
  | one {s : List Char} (hs : Element s) : Elements s
  | cons {s t : List Char} (hs : Element s) (ht : Elements t) : Elements (s ++ ',' :: t)

inductive Member : List Char → Prop
  | mk {w k w' e : List Char} (hw : Ws w) (hk : Str k) (hw' : Ws w') (he : Element e) :
      Member (w ++ (k ++ (w' ++ ':' :: e)))

inductive Members : List Char → Prop
  | one {s : List Char} (hs : Member s) : Members s
  | cons {s t : List Char} (hs : Member s) (ht : Members t) : Members (s ++ ',' :: t)

end

/-- A JSON text is one value, between white space. -/
abbrev Text : List Char → Prop := Element

end Json
