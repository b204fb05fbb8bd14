import Mathlib.Data.Nat.Bitwise
import Mathlib.Data.Nat.Basic

/-!
# Bit masks as sets of positions

A word `BitVec w` used as a mask is read through `getLsbD`: position `i` is in
the set when bit `i` is one. The lemmas give that reading for the operations a
bit set is kept with: single bits, unions, containment and the mask of the
lowest `n` positions.
-/

namespace BitMask

variable {w : ℕ}

/-- The mask of positions `0 .. n - 1`, for `n < w`: `(1 << n) - 1`. -/
theorem getLsbD_twoPow_sub_one {n : ℕ} (hn : n < w) (i : ℕ) :
    (BitVec.twoPow w n - 1#w).getLsbD i = decide (i < n) := by
  have hpow : (2 : ℕ) ^ n < 2 ^ w := Nat.pow_lt_pow_right (by omega) hn
  have hone : (1 : ℕ) < 2 ^ w := Nat.one_lt_two_pow (by omega)
  have hpos : 0 < 2 ^ n := Nat.two_pow_pos n
  have hval : (BitVec.twoPow w n - 1#w).toNat = 2 ^ n - 1 := by
    rw [BitVec.toNat_sub, BitVec.toNat_twoPow, BitVec.toNat_ofNat, Nat.mod_eq_of_lt hpow,
      Nat.mod_eq_of_lt hone, show 2 ^ w - 1 + 2 ^ n = 2 ^ n - 1 + 2 ^ w by omega,
      Nat.add_mod_right, Nat.mod_eq_of_lt (by omega)]
  rw [← BitVec.testBit_toNat, hval, Nat.testBit_two_pow_sub_one]

/-- Adding a position to the set. -/
theorem getLsbD_or_twoPow {i : ℕ} (hi : i < w) (x : BitVec w) (j : ℕ) :
    (x ||| BitVec.twoPow w i).getLsbD j = (x.getLsbD j || decide (i = j)) := by
  simp [hi]

/-- Testing a single position. -/
theorem and_twoPow_ne_zero {i : ℕ} (hi : i < w) (x : BitVec w) :
    x &&& BitVec.twoPow w i ≠ 0#w ↔ x.getLsbD i = true := by
  rw [BitVec.and_twoPow]
  cases hx : x.getLsbD i with
  | false => simp
  | true =>
      simp only [if_true, iff_true]
      intro h
      have := congrArg (fun y => y.getLsbD i) h
      simp [hi] at this

/-- `m` is contained in `x`. -/
theorem and_eq_right_iff (x m : BitVec w) :
    x &&& m = m ↔ ∀ i, m.getLsbD i = true → x.getLsbD i = true := by
  constructor
  · intro h i hm
    have := congrArg (fun y => y.getLsbD i) h
    simp only [BitVec.getLsbD_and, hm, Bool.and_true] at this
    exact this
  · intro h
    apply BitVec.eq_of_getLsbD_eq
    intro i _
    rw [BitVec.getLsbD_and]
    cases hm : m.getLsbD i with
    | false => simp
    | true => simp [h i hm]

theorem eq_zero_iff (x : BitVec w) : x = 0#w ↔ ∀ i, x.getLsbD i = false := by
  constructor
  · rintro rfl i
    simp
  · intro h
    exact BitVec.eq_of_getLsbD_eq fun i _ => by simp [h i]

/-! ## A set kept in several words -/

/-- Position `n` of the set kept in a list of words. -/
def mem (ws : List (BitVec w)) (n : ℕ) : Bool := (ws.getD (n / w) 0#w).getLsbD (n % w)

theorem mem_replicate_zero (k n : ℕ) : mem (List.replicate k 0#w) n = false := by
  unfold mem
  rw [List.getD_eq_getElem?_getD, List.getElem?_replicate]
  split <;> simp

/-- Marking a position in its word. -/
theorem mem_modify {ws : List (BitVec w)} {i : ℕ} (hw : 0 < w) (hi : i / w < ws.length) (n : ℕ) :
    mem (ws.modify (i / w) fun word => word ||| BitVec.twoPow w (i % w)) n =
      (mem ws n || decide (i = n)) := by
  have hmod : i % w < w := Nat.mod_lt i hw
  unfold mem
  by_cases hword : i / w = n / w
  · have hn : n / w < ws.length := hword ▸ hi
    have hbit : i % w = n % w ↔ i = n := by
      constructor
      · intro h
        rw [← Nat.div_add_mod i w, ← Nat.div_add_mod n w, hword, h]
      · rintro rfl
        rfl
    rw [List.getD_eq_getElem?_getD, List.getD_eq_getElem?_getD, List.getElem?_modify, hword,
      List.getElem?_eq_getElem hn]
    simp only [if_true, Option.map_eq_map, Option.map_some, Option.getD_some]
    rw [getLsbD_or_twoPow hmod]
    simp only [hbit]
  · have hne : i ≠ n := fun h => hword (h ▸ rfl)
    rw [List.getD_eq_getElem?_getD, List.getD_eq_getElem?_getD, List.getElem?_modify]
    simp [hword, hne]

/-- The full words and the low bits of the next one cover the first `k` positions. -/
theorem all_below_iff {ws : List (BitVec w)} {k : ℕ} (hw : 0 < w) (hk : k / w ≤ ws.length) :
    ((∀ word ∈ ws.take (k / w), word = BitVec.allOnes w) ∧
        (k % w ≠ 0 → ws.getD (k / w) 0#w &&& (BitVec.twoPow w (k % w) - 1#w) =
          BitVec.twoPow w (k % w) - 1#w)) ↔
      ∀ n, n < k → mem ws n = true := by
  have hkmod : k % w < w := Nat.mod_lt k hw
  constructor
  · rintro ⟨hfull, hlast⟩ n hn
    unfold mem
    rcases Nat.lt_or_ge (n / w) (k / w) with hlt | hge
    · have hlen : n / w < ws.length := lt_of_lt_of_le hlt hk
      have hmem : ws[n / w] ∈ ws.take (k / w) := by
        rw [List.mem_take_iff_getElem]
        exact ⟨n / w, by omega, rfl⟩
      rw [List.getD_eq_getElem?_getD, List.getElem?_eq_getElem hlen, Option.getD_some,
        hfull _ hmem, BitVec.getLsbD_allOnes]
      exact decide_eq_true (Nat.mod_lt n hw)
    · have hdiv : n / w = k / w := le_antisymm (Nat.div_le_div_right hn.le) hge
      have hmod : n % w < k % w := by
        have h1 := Nat.div_add_mod n w
        have h2 := Nat.div_add_mod k w
        rw [hdiv] at h1
        omega
      have hmask := (and_eq_right_iff _ _).mp (hlast (by omega)) (n % w)
      rw [getLsbD_twoPow_sub_one hkmod, decide_eq_true_iff] at hmask
      rw [hdiv]
      exact hmask hmod
  · intro h
    constructor
    · intro word hword
      obtain ⟨j, hj, rfl⟩ := List.mem_take_iff_getElem.mp hword
      apply BitVec.eq_of_getLsbD_eq
      intro b hb
      have hdiv : (j * w + b) / w = j := by
        rw [Nat.mul_comm, Nat.mul_add_div hw, Nat.div_eq_of_lt hb, Nat.add_zero]
      have hmod : (j * w + b) % w = b := by
        rw [Nat.mul_comm, Nat.mul_add_mod, Nat.mod_eq_of_lt hb]
      have hlt : j * w + b < k := by
        calc j * w + b < j * w + w := Nat.add_lt_add_left hb _
          _ = (j + 1) * w := (Nat.succ_mul j w).symm
          _ ≤ k / w * w := Nat.mul_le_mul_right w (by omega)
          _ ≤ k := Nat.div_mul_le_self k w
      have hb' := h _ hlt
      unfold mem at hb'
      rw [hdiv, hmod, List.getD_eq_getElem?_getD, List.getElem?_eq_getElem (by omega),
        Option.getD_some] at hb'
      rw [hb', BitVec.getLsbD_allOnes]
      exact (decide_eq_true hb).symm
    · intro _
      rw [and_eq_right_iff]
      intro b hb
      rw [getLsbD_twoPow_sub_one hkmod, decide_eq_true_iff] at hb
      have hbw : b < w := by omega
      have hdiv : (k / w * w + b) / w = k / w := by
        rw [Nat.mul_comm, Nat.mul_add_div hw, Nat.div_eq_of_lt hbw, Nat.add_zero]
      have hmod : (k / w * w + b) % w = b := by
        rw [Nat.mul_comm, Nat.mul_add_mod, Nat.mod_eq_of_lt hbw]
      have hlt : k / w * w + b < k := by
        have := Nat.div_add_mod k w
        rw [Nat.mul_comm] at this
        omega
      have hb' := h _ hlt
      unfold mem at hb'
      rwa [hdiv, hmod] at hb'

end BitMask
