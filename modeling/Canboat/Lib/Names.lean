import Mathlib.Data.List.Basic
import Mathlib.Data.Nat.Notation
import Std.Data.String.ToNat

/-!
# Names of several components

Components joined by underscores can be told apart when none but the last contains one,
as no decimal numeral does.
-/

namespace Names

theorem digits (n : ℕ) : '_' ∉ n.repr.toList := by
  rw [Nat.toList_repr]
  exact Nat.underscore_not_in_toDigits

/-- Two texts joined by an underscore fall apart at it when it is the first one. -/
theorem split {a b x y : String} (ha : '_' ∉ a.toList) (hb : '_' ∉ b.toList)
    (h : a ++ ("_" ++ x) = b ++ ("_" ++ y)) : a = b ∧ x = y := by
  have h := congrArg String.toList h
  rw [String.toList_append, String.toList_append, String.toList_append,
    String.toList_append, show "_".toList = ['_'] by decide, List.singleton_append,
    List.singleton_append] at h
  have hparts : a.toList = b.toList ∧ x.toList = y.toList := by
    rcases List.append_eq_append_iff.mp h with ⟨c, hc, hrest⟩ | ⟨c, hc, hrest⟩
    · cases c with
      | nil => exact ⟨by simpa using hc.symm, by simpa using hrest⟩
      | cons d c =>
          rw [← (List.cons.inj hrest).1] at hc
          exact absurd (by rw [hc]; simp) hb
    · cases c with
      | nil => exact ⟨by simpa using hc, by simpa using hrest.symm⟩
      | cons d c =>
          rw [← (List.cons.inj hrest).1] at hc
          exact absurd (by rw [hc]; simp) ha
  exact ⟨String.toList_inj.mp hparts.1, String.toList_inj.mp hparts.2⟩

end Names
