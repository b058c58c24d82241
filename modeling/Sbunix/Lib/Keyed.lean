import Mathlib.Tactic

/-!
# Lists searched by key

A list whose elements may have a key is a finite map: a key leads to the first
element that has it. Replacing that element and dropping the later ones with the
same key, appending an element with a new key, and dropping all elements with a
key are the updates of the map.
-/

namespace Sbunix.Lib.Keyed

open List

variable {α κ : Type*} [DecidableEq κ] (key : α → Option κ)

/-- The first element with this key. -/
def first (l : List α) (n : κ) : Option α := l.find? fun a => key a = some n

/-- The elements without this key. -/
def drop (l : List α) (n : κ) : List α := l.filter fun a => key a ≠ some n

variable {key} {l l₁ l₂ : List α} {a b : α} {n n' : κ}

theorem first_eq_none : first key l n = none ↔ ∀ a ∈ l, key a ≠ some n := by
  simp [first]

theorem first_drop_self : first key (drop key l n) n = none := by
  rw [first_eq_none]
  intro a ha
  simpa using (mem_filter.mp ha).2

theorem first_drop_ne (hne : n' ≠ n) : first key (drop key l n) n' = first key l n' := by
  induction l with
  | nil => rfl
  | cons a l ih =>
    unfold first drop at *
    by_cases ha : key a = some n
    · have ha' : ¬key a = some n' := by
        rw [ha]
        exact fun h => hne (Option.some.inj h).symm
      rw [filter_cons_of_neg (by simpa using ha), find?_cons_of_neg (by simpa using ha'), ih]
    · rw [filter_cons_of_pos (by simpa using ha)]
      by_cases ha' : key a = some n'
      · rw [find?_cons_of_pos (by simpa using ha'), find?_cons_of_pos (by simpa using ha')]
      · rw [find?_cons_of_neg (by simpa using ha'), find?_cons_of_neg (by simpa using ha'), ih]

theorem first_append_none (h : first key l₁ n = none) :
    first key (l₁ ++ l₂) n = first key l₂ n := by
  unfold first at *
  rw [find?_append, h, Option.none_or]

theorem first_cons_self (h : key a = some n) : first key (a :: l) n = some a :=
  find?_cons_of_pos (by simpa using h)

theorem first_cons_ne (h : key a ≠ some n) : first key (a :: l) n = first key l n :=
  find?_cons_of_neg (by simpa using h)

/-- What follows the same prefix may be replaced by what has the same first elements. -/
theorem first_append_congr {l' : List α} (h : first key l₂ n = first key l' n) :
    first key (l₁ ++ l₂) n = first key (l₁ ++ l') n := by
  unfold first at *
  rw [find?_append, find?_append, h]

end Sbunix.Lib.Keyed
