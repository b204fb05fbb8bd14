import Canboat.Core.Parse
import Canboat.Core.Text

/-!
# Parts of a line

Methods of `str`, on its characters.
-/

namespace Canboat

/-- `trim_end_matches(['\r', '\n'])`. -/
def trimNewlines (s : List Char) : List Char := trimEnd (fun c => c == '\r' || c == '\n') s

def splitWhitespace (s : List Char) : List (List Char) :=
  (s.splitOnP isWhitespace).filter (· ≠ [])

/-- Around the first separator. -/
def splitOnce (sep : Char) (s : List Char) : Option (List Char × List Char) :=
  match s.dropWhile (· ≠ sep) with
  | [] => none
  | _ :: rest => some (s.takeWhile (· ≠ sep), rest)

/-- Around the first occurrence. -/
def splitOnceText (sep : List Char) : List Char → Option (List Char × List Char)
  | [] => none
  | c :: s =>
      if sep.isPrefixOf (c :: s) then some ([], (c :: s).drop sep.length)
      else (splitOnceText sep s).map fun (a, b) => (c :: a, b)

/-- At most so many parts, the last with the separators that are left. -/
def splitN (sep : Char) : ℕ → List Char → List (List Char)
  | 0, _ => []
  | 1, s => [s]
  | n + 2, s =>
      match splitOnce sep s with
      | none => [s]
      | some (a, b) => a :: splitN sep (n + 1) b

def stripPrefix (pre s : List Char) : Option (List Char) :=
  if pre.isPrefixOf s then some (s.drop pre.length) else none

def toAsciiUppercase (s : List Char) : List Char :=
  s.map fun c => if 'a' ≤ c ∧ c ≤ 'z' then Char.ofNat (c.toNat - 32) else c

/-! ## UTF-8 -/

def utf8Bytes (s : List Char) : List UInt8 := s.flatMap String.utf8EncodeChar

/-- Text if it is; what is not comes back as other bytes. -/
def fromUtf8 (bytes : List UInt8) : Option (List Char) :=
  let s := fromUtf8Lossy bytes
  if utf8Bytes s = bytes then some s else none

/-- A sequence whose character is not one of ASCII. -/
def Utf8Pending.Wide (p : Utf8Pending) : Prop :=
  0x80 ≤ p.lower.toNat ∧ 0 < p.needed ∧
    128 ≤ p.code * 64 ^ p.needed + (p.lower.toNat - 0x80) * 64 ^ (p.needed - 1)

theorem wide_utf8First {b : UInt8} {q : Utf8Pending} (h : (utf8First b).2 = some q) : q.Wide := by
  rw [utf8First] at h
  simp only [UInt8.le_iff_toNat_le, UInt8.lt_iff_toNat_lt, UInt8.reduceToNat] at h
  split_ifs at h <;> simp only [Option.some.injEq] at h <;> subst h <;>
    refine ⟨by simp, by simp, ?_⟩ <;> simp <;> omega

theorem wide_utf8Next {p q : Utf8Pending} {b : UInt8} (hp : p.Wide)
    (h : (utf8Next p b).2 = some q) : q.Wide := by
  obtain ⟨hlower, hneeded, hcode⟩ := hp
  rw [utf8Next] at h
  split_ifs at h with hin hlast
  · simp only [Option.some.injEq] at h
    subst h
    have hb : p.lower.toNat ≤ b.toNat := UInt8.le_iff_toNat_le.mp hin.1
    refine ⟨by simp, by dsimp only; omega, ?_⟩
    have hpow : 64 ^ p.needed = 64 * 64 ^ (p.needed - 1) := by
      rw [← Nat.pow_succ', Nat.succ_eq_add_one, Nat.sub_add_cancel hneeded]
    have hmul : (p.lower.toNat - 0x80) * 64 ^ (p.needed - 1) ≤
        (b.toNat - 0x80) * 64 ^ (p.needed - 1) := Nat.mul_le_mul_right _ (by omega)
    dsimp only
    rw [hpow, ← Nat.mul_assoc] at hcode
    rw [Nat.add_mul]
    omega
  · exact wide_utf8First h

theorem ofNat_ne_newline {n : ℕ} (h : n ≠ 10) : Char.ofNat n ≠ '\n' := by
  intro heq
  by_cases hn : n.isValidChar
  · have hval : (Char.ofNat n).toNat = n := by
      rw [Char.ofNat, dif_pos hn]
      rfl
    rw [heq] at hval
    exact h hval.symm
  · rw [Char.ofNat, dif_neg hn] at heq
    cases heq

theorem newline_not_mem_utf8First {b : UInt8} (h : b ≠ 0x0a) : '\n' ∉ (utf8First b).1 := by
  have hn : b.toNat ≠ 10 := fun hn => h (UInt8.toNat_inj.mp hn)
  rw [utf8First]
  split_ifs
  · exact fun hmem => ofNat_ne_newline hn (List.mem_singleton.mp hmem).symm
  all_goals simp [replacementChar]

theorem newline_not_mem_utf8Next {p : Utf8Pending} {b : UInt8} (hp : p.Wide) (h : b ≠ 0x0a) :
    '\n' ∉ (utf8Next p b).1 := by
  obtain ⟨hlower, hneeded, hcode⟩ := hp
  rw [utf8Next]
  split_ifs with hin hlast
  · have hb : p.lower.toNat ≤ b.toNat := UInt8.le_iff_toNat_le.mp hin.1
    rw [hlast, pow_one, Nat.sub_self, pow_zero, Nat.mul_one] at hcode
    refine fun hmem => ofNat_ne_newline ?_ (List.mem_singleton.mp hmem).symm
    omega
  · simp
  · rw [List.mem_cons, not_or]
    exact ⟨by decide, newline_not_mem_utf8First h⟩

theorem newline_not_mem_utf8LossyFrom {bytes : List UInt8} (h : 0x0a ∉ bytes)
    {p : Option Utf8Pending} (hp : ∀ q ∈ p, q.Wide) : '\n' ∉ utf8LossyFrom p bytes := by
  induction bytes generalizing p with
  | nil => cases p <;> simp [utf8LossyFrom, replacementChar]
  | cons b bytes ih =>
      rw [List.mem_cons, not_or] at h
      cases p with
      | none =>
          rw [utf8LossyFrom, List.mem_append, not_or]
          exact ⟨newline_not_mem_utf8First (Ne.symm h.1), ih h.2 fun q => wide_utf8First⟩
      | some p =>
          rw [utf8LossyFrom, List.mem_append, not_or]
          have hp := hp p rfl
          exact ⟨newline_not_mem_utf8Next hp (Ne.symm h.1), ih h.2 fun q => wide_utf8Next hp⟩

theorem utf8LossyFrom_append_newline {bytes : List UInt8} {p : Option Utf8Pending}
    (hp : ∀ q ∈ p, q.Wide) :
    utf8LossyFrom p (bytes ++ [0x0a]) = utf8LossyFrom p bytes ++ ['\n'] := by
  induction bytes generalizing p with
  | nil =>
      cases p with
      | none => rfl
      | some p =>
          obtain ⟨hlower, -⟩ := hp p rfl
          have hend : ¬(p.lower ≤ 0x0a ∧ 0x0a ≤ p.upper) := by
            rintro ⟨hle, -⟩
            have hle : p.lower.toNat ≤ 10 := UInt8.le_iff_toNat_le.mp hle
            omega
          show (utf8Next p 0x0a).1 ++ utf8LossyFrom (utf8Next p 0x0a).2 [] = _
          rw [utf8Next, if_neg hend]
          rfl
  | cons b bytes ih =>
      cases p with
      | none =>
          rw [List.cons_append, utf8LossyFrom, utf8LossyFrom, ih fun q => wide_utf8First,
            List.append_assoc]
      | some p =>
          have hp := hp p rfl
          rw [List.cons_append, utf8LossyFrom, utf8LossyFrom, ih fun q => wide_utf8Next hp,
            List.append_assoc]

/-- A line of bytes is a line of text. -/
theorem fromUtf8Lossy_line {bytes : List UInt8} (h : 0x0a ∉ bytes) :
    fromUtf8Lossy (bytes ++ [0x0a]) = fromUtf8Lossy bytes ++ ['\n'] ∧
      '\n' ∉ fromUtf8Lossy bytes :=
  ⟨utf8LossyFrom_append_newline nofun, newline_not_mem_utf8LossyFrom h nofun⟩

/-! ## Hexadecimal numbers -/

def hexValue (c : Char) : Option ℕ :=
  if c.isDigit then some (c.toNat - 48)
  else if 'a' ≤ c ∧ c ≤ 'f' then some (c.toNat - 87)
  else if 'A' ≤ c ∧ c ≤ 'F' then some (c.toNat - 55)
  else none

def parseHexDigits : ℕ → List Char → Option ℕ
  | acc, [] => some acc
  | acc, c :: s => (hexValue c).bind fun d => parseHexDigits (16 * acc + d) s

/-- `from_str_radix(_, 16)`. -/
def parseHex (max : ℕ) (s : List Char) : Option ℕ :=
  let digits := match s with
    | '+' :: t => t
    | s => s
  if digits = [] then none else (parseHexDigits 0 digits).filter (· ≤ max)

/-- Elements two by two. -/
def pairs {α : Type} : List α → List (List α)
  | a :: b :: l => [a, b] :: pairs l
  | [a] => [[a]]
  | [] => []

example : splitN ',' 3 "a,b,c,d".toList = ["a".toList, "b".toList, "c,d".toList] ∧
    parseHex 255 "+fF".toList = some 255 ∧ parseHex 255 "100".toList = none := by decide

end Canboat
