import Mathlib.Tactic

/-!
# Bounded linear search

The `for` loops of the kernel that look for the first index with a property.
-/

namespace Sbunix.Lib

/-- The first index in `[i, i + n)` that satisfies `p`. -/
def firstFrom (p : ℕ → Bool) : ℕ → ℕ → Option ℕ
  | _, 0 => none
  | i, n + 1 => if p i then some i else firstFrom p (i + 1) n

theorem firstFrom_some {p : ℕ → Bool} {i n k : ℕ} (h : firstFrom p i n = some k) :
    i ≤ k ∧ k < i + n ∧ p k = true ∧ ∀ j, i ≤ j → j < k → p j = false := by
  induction n generalizing i with
  | zero => simp [firstFrom] at h
  | succ n ih =>
    by_cases hp : p i = true
    · simp only [firstFrom, hp, if_true, Option.some.injEq] at h
      subst h
      exact ⟨le_rfl, by omega, hp, fun j hj hj' => by omega⟩
    · simp only [firstFrom, hp] at h
      obtain ⟨h1, h2, h3, h4⟩ := ih h
      refine ⟨by omega, by omega, h3, fun j hj hjk => ?_⟩
      rcases Nat.eq_or_lt_of_le hj with rfl | hlt
      · simpa using hp
      · exact h4 j hlt hjk

end Sbunix.Lib
