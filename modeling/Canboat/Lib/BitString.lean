import Mathlib.Data.Nat.Bitwise
import Mathlib.Data.List.Induction
import Mathlib.Tactic.Ring

/-!
# Bit strings

Numbers of a width as lists of bits, the highest first, and the same list of bits cut into
numbers of another width.
-/

namespace BitString

/-- The lowest `w` bits of a number, the highest of them first. -/
def bits : ℕ → ℕ → List Bool
  | 0, _ => []
  | w + 1, n => n.testBit w :: bits w n

/-- The number that the bits denote. -/
def value (l : List Bool) : ℕ := l.foldl (fun n b => 2 * n + b.toNat) 0

example : bits 6 37 = [true, false, false, true, false, true] ∧ value (bits 6 37) = 37 := by decide

@[simp] theorem length_bits (w n : ℕ) : (bits w n).length = w := by
  induction w with
  | zero => rfl
  | succ w ih => rw [bits, List.length_cons, ih]

@[simp] theorem bits_zero (w : ℕ) : bits w 0 = List.replicate w false := by
  induction w with
  | zero => rfl
  | succ w ih => rw [bits, Nat.zero_testBit, ih, List.replicate_succ]

/-- Bits above the width do not matter. -/
theorem bits_congr {w m n : ℕ} (h : ∀ i < w, m.testBit i = n.testBit i) : bits w m = bits w n := by
  induction w with
  | zero => rfl
  | succ w ih =>
      rw [bits, bits, h w (Nat.lt_succ_self w), ih fun i hi => h i (Nat.lt_succ_of_lt hi)]

theorem bits_mod (w n : ℕ) : bits w (n % 2 ^ w) = bits w n := by
  apply bits_congr
  intro i hi
  rw [Nat.testBit_mod_two_pow, decide_eq_true hi, Bool.true_and]

/-- The upper bits, then the lower ones. -/
theorem bits_add (v w n : ℕ) : bits (v + w) n = bits v (n / 2 ^ w) ++ bits w n := by
  induction v with
  | zero => rw [Nat.zero_add, bits, List.nil_append]
  | succ v ih =>
      rw [show v + 1 + w = v + w + 1 from Nat.add_right_comm v 1 w, bits, ih, bits,
        Nat.testBit_div_two_pow, List.cons_append, Nat.add_comm v w]

/-- One number after the other. -/
theorem bits_append (v a : ℕ) {w b : ℕ} (hb : b < 2 ^ w) :
    bits v a ++ bits w b = bits (v + w) (a * 2 ^ w + b) := by
  have hdiv : (a * 2 ^ w + b) / 2 ^ w = a := by
    rw [Nat.add_comm, Nat.add_mul_div_right _ _ (Nat.two_pow_pos w), Nat.div_eq_of_lt hb,
      Nat.zero_add]
  have hmod : bits w (a * 2 ^ w + b) = bits w b := by
    rw [← bits_mod w (a * 2 ^ w + b), Nat.add_comm, Nat.add_mul_mod_self_right,
      Nat.mod_eq_of_lt hb]
  rw [bits_add, hdiv, hmod]

theorem value_append_singleton (l : List Bool) (b : Bool) :
    value (l ++ [b]) = 2 * value l + b.toNat := by
  rw [value, List.foldl_append]
  rfl

theorem value_lt (l : List Bool) : value l < 2 ^ l.length := by
  induction l using List.reverseRecOn with
  | nil => decide
  | append_singleton l b ih =>
      have hb := Bool.toNat_le b
      rw [value_append_singleton, List.length_append, List.length_singleton, pow_succ]
      omega

theorem bits_succ (w n : ℕ) : bits (w + 1) n = bits w (n / 2) ++ [n.testBit 0] := by
  rw [bits_add w 1, pow_one, bits, bits]

/-- Bits in place of zeros, at the end or before more zeros. -/
theorem bits_or {k t x : ℕ} (r a : ℕ) (ht : t ≤ k) (hx : x < 2 ^ t) :
    bits (r + k) (a * 2 ^ k ||| x * 2 ^ (k - t)) =
      bits r a ++ (bits t x ++ List.replicate (k - t) false) := by
  have hlt : x * 2 ^ (k - t) < 2 ^ k := by
    calc x * 2 ^ (k - t) < 2 ^ t * 2 ^ (k - t) :=
          Nat.mul_lt_mul_of_pos_right hx (Nat.two_pow_pos _)
      _ = 2 ^ k := by rw [← pow_add, Nat.add_sub_cancel' ht]
  have hadd : a * 2 ^ k ||| x * 2 ^ (k - t) = a * 2 ^ k + x * 2 ^ (k - t) := by
    rw [← Nat.shiftLeft_eq a, Nat.shiftLeft_add_eq_or_of_lt hlt]
  have hlow : bits k (x * 2 ^ (k - t)) = bits t x ++ List.replicate (k - t) false := by
    have h := bits_append t x (Nat.two_pow_pos (k - t))
    rw [Nat.add_zero, Nat.add_sub_cancel' ht, bits_zero] at h
    exact h.symm
  rw [hadd, ← bits_append r a hlt, hlow]

theorem bits_getElem? {w j : ℕ} (hj : j < w) (n : ℕ) :
    (bits w n)[j]? = some (n.testBit (w - 1 - j)) := by
  induction w generalizing j with
  | zero => cases hj
  | succ w ih =>
      cases j with
      | zero => rfl
      | succ j =>
          rw [bits, List.getElem?_cons_succ, ih (Nat.lt_of_succ_lt_succ hj)]
          congr 2
          omega

/-- A list of bits is the bits of its number. -/
@[simp] theorem bits_value (l : List Bool) : bits l.length (value l) = l := by
  induction l using List.reverseRecOn with
  | nil => rfl
  | append_singleton l b ih =>
      have hdiv : (2 * value l + b.toNat) / 2 = value l := by
        have hb := Bool.toNat_le b
        cases b
        · rw [Bool.toNat_false, Nat.add_zero, Nat.mul_div_cancel_left _ (by decide)]
        · rw [Bool.toNat_true]
          omega
      have hlow : (2 * value l + b.toNat).testBit 0 = b := by
        rw [Nat.testBit_zero]
        cases b
        · rw [Bool.toNat_false]
          simp
        · rw [Bool.toNat_true]
          simp
      rw [value_append_singleton, List.length_append, List.length_singleton, bits_succ, hdiv, ih,
        hlow]

/-- The number of the bits is the number again, as far as the width goes. -/
theorem value_bits (w n : ℕ) : value (bits w n) = n % 2 ^ w := by
  induction w generalizing n with
  | zero => rw [pow_zero, Nat.mod_one]; rfl
  | succ w ih =>
      rw [bits_succ, value_append_singleton, ih, Nat.testBit_zero]
      have hsplit : n % 2 ^ (w + 1) = 2 * (n / 2 % 2 ^ w) + n % 2 := by
        rw [pow_succ', Nat.mod_mul]
        ring
      rw [hsplit]
      rcases Nat.mod_two_eq_zero_or_one n with h | h <;> rw [h] <;> rfl

theorem bits_inj {w m n : ℕ} (hm : m < 2 ^ w) (hn : n < 2 ^ w) (h : bits w m = bits w n) :
    m = n := by
  have hvalue := congrArg value h
  rwa [value_bits, value_bits, Nat.mod_eq_of_lt hm, Nat.mod_eq_of_lt hn] at hvalue

/-- Bits over the first of the zeros behind `l`, which begin in the middle of a number. -/
theorem append_bits_or {P Q l : List Bool} {w r k t z b x : ℕ} (hw : w = r + k)
    (h : P ++ (bits w b ++ Q) = l ++ List.replicate z false) (hl : l.length = P.length + r)
    (ht : t ≤ k) (hx : x < 2 ^ t) :
    P ++ (bits w (b ||| x * 2 ^ (k - t)) ++ Q) =
      l ++ bits t x ++ List.replicate (z - t) false := by
  subst hw
  rw [bits_add, List.append_assoc, ← List.append_assoc] at h
  obtain ⟨hfront, hzeros⟩ := List.append_inj h (by rw [List.length_append, length_bits, hl])
  obtain ⟨hlength, hbits, hQ⟩ := List.append_eq_replicate_iff.mp hzeros
  rw [length_bits] at hlength hbits
  have hlow : b % 2 ^ k = 0 := by
    refine bits_inj (Nat.mod_lt _ (Nat.two_pow_pos k)) (Nat.two_pow_pos k) ?_
    rw [bits_mod, hbits, bits_zero]
  have hb : b = b / 2 ^ k * 2 ^ k := by
    rw [Nat.div_mul_cancel (Nat.dvd_of_mod_eq_zero hlow)]
  have hrest : List.replicate (k - t) false ++ Q = List.replicate (z - t) false := by
    rw [hQ, List.replicate_append_replicate]
    congr 1
    omega
  calc P ++ (bits (r + k) (b ||| x * 2 ^ (k - t)) ++ Q)
      = P ++ (bits r (b / 2 ^ k) ++ (bits t x ++ List.replicate (k - t) false) ++ Q) := by
        conv_lhs => rw [hb]
        rw [bits_or r _ ht hx]
    _ = P ++ bits r (b / 2 ^ k) ++ bits t x ++ (List.replicate (k - t) false ++ Q) := by
        simp only [List.append_assoc]
    _ = l ++ bits t x ++ List.replicate (z - t) false := by rw [hfront, hrest]

/-! ## Numbers in a row -/

/-- The bits of numbers of one width, one after the other. -/
def join (w : ℕ) (ns : List ℕ) : List Bool := ns.flatMap (bits w)

@[simp] theorem join_nil (w : ℕ) : join w [] = [] := rfl

@[simp] theorem join_cons (w n : ℕ) (ns : List ℕ) : join w (n :: ns) = bits w n ++ join w ns := rfl

@[simp] theorem join_append (w : ℕ) (ms ns : List ℕ) :
    join w (ms ++ ns) = join w ms ++ join w ns := List.flatMap_append

@[simp] theorem length_join (w : ℕ) (ns : List ℕ) : (join w ns).length = w * ns.length := by
  induction ns with
  | nil => rfl
  | cons n ns ih =>
      rw [join_cons, List.length_append, length_bits, ih, List.length_cons]
      ring

theorem join_replicate_zero (w k : ℕ) :
    join w (List.replicate k 0) = List.replicate (w * k) false := by
  induction k with
  | zero => rfl
  | succ k ih =>
      rw [List.replicate_succ, join_cons, ih, bits_zero, List.replicate_append_replicate]
      congr 1
      ring

/-- The bits in a row tell the numbers. -/
theorem join_inj {w : ℕ} (hw : 0 < w) {ms ns : List ℕ} (hm : ∀ m ∈ ms, m < 2 ^ w)
    (hn : ∀ n ∈ ns, n < 2 ^ w) (h : join w ms = join w ns) : ms = ns := by
  induction ms generalizing ns with
  | nil =>
      cases ns with
      | nil => rfl
      | cons n ns =>
          have hlen := congrArg List.length h
          rw [length_join, length_join, List.length_nil, List.length_cons, Nat.mul_zero] at hlen
          exact absurd hlen.symm (Nat.mul_ne_zero (Nat.ne_of_gt hw) (Nat.succ_ne_zero _))
  | cons m ms ih =>
      cases ns with
      | nil =>
          have hlen := congrArg List.length h
          rw [length_join, length_join, List.length_nil, List.length_cons, Nat.mul_zero] at hlen
          exact absurd hlen (Nat.mul_ne_zero (Nat.ne_of_gt hw) (Nat.succ_ne_zero _))
      | cons n ns =>
          rw [List.forall_mem_cons] at hm hn
          obtain ⟨hfirst, hrest⟩ := List.append_inj h (by rw [length_bits, length_bits])
          rw [bits_inj hm.1 hn.1 hfirst, ih hm.2 hn.2 hrest]

/-- Whole numbers out of the front of the bits are the front of the numbers. -/
theorem join_take (w : ℕ) (ns : List ℕ) (k : ℕ) :
    (join w ns).take (w * k) = join w (ns.take k) := by
  induction ns generalizing k with
  | nil => rw [join_nil, List.take_nil, List.take_nil, join_nil]
  | cons n ns ih =>
      cases k with
      | zero => rw [Nat.mul_zero, List.take_zero, List.take_zero, join_nil]
      | succ k =>
          have hlen : w * (k + 1) = (bits w n).length + w * k := by
            rw [length_bits]
            ring
          rw [List.take_succ_cons, join_cons, join_cons, hlen, List.take_length_add_append, ih]

/-- A bit of the row is a bit of one of the numbers. -/
theorem join_getElem? {w : ℕ} (hw : 0 < w) (ns : List ℕ) (j : ℕ) :
    (join w ns)[j]? = ns[j / w]?.map fun n => n.testBit (w - 1 - j % w) := by
  induction ns generalizing j with
  | nil => simp
  | cons n ns ih =>
      rw [join_cons]
      rcases Nat.lt_or_ge j w with hj | hj
      · rw [List.getElem?_append_left (by rwa [length_bits]), Nat.div_eq_of_lt hj,
          Nat.mod_eq_of_lt hj, List.getElem?_cons_zero, Option.map_some, bits_getElem? hj]
      · obtain ⟨i, rfl⟩ := Nat.exists_eq_add_of_le' hj
        rw [List.getElem?_append_right (by rw [length_bits]; exact hj), length_bits,
          Nat.add_sub_cancel, ih, Nat.add_div_right i hw, List.getElem?_cons_succ,
          Nat.add_mod_right]

end BitString
