import Mathlib.Tactic
import Mathlib.Data.Finset.Card

/-!
# Counting under a point change

How many elements of a finite set satisfy a predicate, and how the number moves
when the predicate changes at one element.
-/

namespace Sbunix.Lib

open List

variable {α : Type*}

/-- The indicator of a proposition, as a number. -/
def ind (p : Prop) [Decidable p] : ℕ := if p then 1 else 0

variable {p : Prop} {U : Finset α} {P : α → Prop} {a : α}

@[simp] theorem ind_of_true [Decidable p] (h : p) : ind p = 1 := if_pos h

@[simp] theorem ind_of_false [Decidable p] (h : ¬ p) : ind p = 0 := if_neg h

theorem ind_congr {q : Prop} [Decidable p] [Decidable q] (h : p ↔ q) : ind p = ind q := by
  unfold ind
  split_ifs <;> tauto

theorem ind_le_one (p : Prop) [Decidable p] : ind p ≤ 1 := by
  unfold ind
  split_ifs <;> omega

def count (U : Finset α) (P : α → Prop) [DecidablePred P] : ℕ := (U.filter P).card

variable [DecidablePred P]

theorem count_congr {Q : α → Prop} [DecidablePred Q]
    (h : ∀ a ∈ U, P a ↔ Q a) : count U P = count U Q := by
  unfold count
  rw [Finset.filter_congr h]

theorem count_pos : 0 < count U P ↔ ∃ a ∈ U, P a := by
  simp [count, Finset.card_pos, Finset.Nonempty]

theorem count_eq_zero : count U P = 0 ↔ ∀ a ∈ U, ¬ P a := by
  rw [← Nat.le_zero, ← not_lt, count_pos]
  push Not
  rfl

theorem count_le_one (h : count U P ≤ 1) {b : α}
    (ha : a ∈ U) (hb : b ∈ U) (hPa : P a) (hPb : P b) : a = b :=
  Finset.card_le_one.mp h a (by simp [ha, hPa]) b (by simp [hb, hPb])

theorem count_insert [DecidableEq α] (ha : a ∉ U) :
    count (insert a U) P = count U P + ind (P a) := by
  unfold count ind
  rw [Finset.filter_insert]
  split_ifs
  · rw [Finset.card_insert_of_notMem (by simp [ha])]
  · rfl

theorem count_erase [DecidableEq α] (ha : a ∈ U) :
    count (U.erase a) P + ind (P a) = count U P := by
  conv_rhs => rw [← Finset.insert_erase ha]
  rw [count_insert (Finset.notMem_erase a U)]

theorem count_le_card : count U P ≤ U.card :=
  Finset.card_filter_le U P

/-! ## Counters that follow a count -/

/-! ## Sums over a list with distinct keys -/

section

variable {κ : Type*} [DecidableEq κ] {l : List α} {key : α → κ} {p : α}

/-- Replacing the entry with one key moves a sum by that entry's share. -/
theorem sum_map_replace (c : α → ℕ) (g : α → α) (hnd : (l.map key).Nodup) (hp : p ∈ l) :
    ((l.map fun q => if key q = key p then g q else q).map c).sum + c p = (l.map c).sum +
    c (g p) := by
  induction l with
  | nil => simp at hp
  | cons a l ih =>
    rw [map_cons, nodup_cons] at hnd
    simp only [map_cons, sum_cons]
    rcases mem_cons.mp hp with rfl | hp
    · have hrest : (l.map fun q => if key q = key p then g q else q) = l := by
        refine (map_congr_left fun q hq => ?_).trans (map_id l)
        exact if_neg fun he => hnd.1 (mem_map.mpr ⟨q, hq, he⟩)
      rw [hrest, if_pos rfl]
      omega
    · have hne : key a ≠ key p := fun he => hnd.1 (mem_map.mpr ⟨p, hp, he.symm⟩)
      have := ih hnd.2 hp
      rw [if_neg hne]
      omega

/-- Removing the entry with one key. -/
theorem sum_map_remove (c : α → ℕ) (hnd : (l.map key).Nodup) (hp : p ∈ l) :
    ((l.filter fun q => key q ≠ key p).map c).sum + c p = (l.map c).sum := by
  induction l with
  | nil => simp at hp
  | cons a l ih =>
    rw [map_cons, nodup_cons] at hnd
    rcases mem_cons.mp hp with rfl | hp
    · have hrest : (l.filter fun q => key q ≠ key p) = l := by
        refine filter_eq_self.mpr fun q hq => decide_eq_true fun he => ?_
        exact hnd.1 (mem_map.mpr ⟨q, hq, he⟩)
      rw [filter_cons_of_neg (by simp), hrest, map_cons, sum_cons]
      omega
    · have hne : key a ≠ key p := fun he => hnd.1 (mem_map.mpr ⟨p, hp, he.symm⟩)
      have := ih hnd.2 hp
      rw [filter_cons_of_pos (by simpa using hne)]
      simp only [map_cons, sum_cons]
      omega

end

end Sbunix.Lib
