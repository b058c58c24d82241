import Mathlib.Tactic
import Mathlib.Data.Finset.Card
import Mathlib.Logic.Relation

/-!
# Trees given by parent pointers

The walk from a node upwards ends if the node is accessible in the relation of
parents. What stays accessible when one pointer is changed, and how long a walk
can be.
-/

namespace Sbunix.Lib

variable {α : Type*} {par : α → Option α} {a c p : α}

/-- `p` is the parent of `a`. -/
def Above (par : α → Option α) (p a : α) : Prop := par a = some p

/-- The walk from a node upwards ends without meeting `c`. -/
inductive Avoids (par : α → Option α) (c : α) : Option α → Prop
  | top : Avoids par c none
  | up {a : α} : a ≠ c → Avoids par c (par a) → Avoids par c (some a)

section

variable [DecidableEq α]

theorem Above.update_ne {x : Option α} (hac : a ≠ c) :
    Above (Function.update par c x) p a ↔ Above par p a := by
  rw [Above, Function.update_of_ne hac, Above]

/-- A change at `c` does not matter to a walk that avoids `c`. -/
theorem Avoids.acc {o : Option α} (h : Avoids par c o) (x : Option α) :
    ∀ a ∈ o, Acc (Above (Function.update par c x)) a := by
  induction h with
  | top => exact fun a ha => absurd ha (Option.not_mem_none a)
  | up hne _ ih =>
    intro b hb
    obtain rfl := Option.mem_some.mp hb
    exact ⟨_, fun p hp => ih p ((Above.update_ne hne).mp hp)⟩

/-- Hanging `c` below `p`, where the walk from `p` still ends. -/
theorem acc_update (h : Acc (Above par) a) (hp : Acc (Above (Function.update par c (some p))) p) :
    Acc (Above (Function.update par c (some p))) a := by
  induction h with
  | intro a _ ih =>
    refine ⟨_, fun q hq => ?_⟩
    by_cases hac : a = c
    · subst hac
      rw [Above, Function.update_self] at hq
      exact Option.some.inj hq ▸ hp
    · exact ih q ((Above.update_ne hac).mp hq)

end

/-! ## The length of a walk -/

/-- The walk has at most `n` nodes. -/
inductive Ends (par : α → Option α) : ℕ → Option α → Prop
  | top (n : ℕ) : Ends par n none
  | up {n : ℕ} {a : α} : Ends par n (par a) → Ends par (n + 1) (some a)

theorem not_rel_self_of_acc {r : α → α → Prop} (h : Acc r a) : ¬ r a a := by
  induction h with
  | intro a _ ih => exact fun ha => ih a ha ha

/-- A walk that ends does not meet a node twice. -/
theorem ends_of_acc [DecidableEq α] {S : Finset α} (h : Acc (Above par) a)
    (hS : ∀ x, Relation.ReflTransGen (Above par) x a → x ∈ S) : Ends par S.card (some a) := by
  induction h generalizing S with
  | intro a hacc ih =>
    have ha : a ∈ S := hS a .refl
    rw [← Finset.card_erase_add_one ha]
    refine .up ?_
    cases hpar : par a with
    | none => exact .top _
    | some p =>
      refine ih p hpar fun x hx => Finset.mem_erase.mpr ⟨?_, hS x (hx.tail hpar)⟩
      rintro rfl
      -- `x` would be above itself
      have hcycle : Relation.TransGen (Above par) x x := .tail' hx hpar
      exact not_rel_self_of_acc (Acc.transGen ⟨x, hacc⟩) hcycle

end Sbunix.Lib
