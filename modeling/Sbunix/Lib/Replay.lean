import Mathlib.Tactic

/-!
# Ordered block writes and their prefixes

A device is a map from addresses to values and a run is the ordered list of
its writes. A crash keeps a prefix of that list. When every write to an
address carries the same value, the result at an address only depends on
whether the address was reached, which makes replaying idempotent.
-/

namespace Sbunix.Lib

open List

variable {α β : Type*} [DecidableEq α]

/-- Apply `ws` to `d`, oldest write first. -/
def applyWrites (ws : List (α × β)) (d : α → β) : α → β :=
  ws.foldl (fun d w => Function.update d w.1 w.2) d

@[simp] theorem applyWrites_nil (d : α → β) : applyWrites [] d = d := rfl

theorem applyWrites_append (ws vs : List (α × β)) (d : α → β) :
    applyWrites (ws ++ vs) d = applyWrites vs (applyWrites ws d) := by
  simp [applyWrites]

@[simp] theorem applyWrites_cons (w : α × β) (ws : List (α × β)) (d : α → β) :
    applyWrites (w :: ws) d = applyWrites ws (Function.update d w.1 w.2) := rfl

/-- All writes of `ws` agree with the final contents `f`. -/
def WritesFrom (f : α → β) (ws : List (α × β)) : Prop := ∀ w ∈ ws, w.2 = f w.1

variable {f : α → β} {ws : List (α × β)}

omit [DecidableEq α] in
theorem WritesFrom.take (h : WritesFrom f ws) (k : ℕ) : WritesFrom f (ws.take k) :=
  fun w hw => h w (mem_of_mem_take hw)

/-- An address holds the common written value if it was written, its old value otherwise. -/
theorem applyWrites_from (h : WritesFrom f ws) (d : α → β) (a : α) :
    applyWrites ws d a = if a ∈ ws.map Prod.fst then f a else d a := by
  induction ws generalizing d with
  | nil => simp
  | cons w ws ih =>
    have hw : w.2 = f w.1 := h w (by simp)
    have ht : WritesFrom f ws := fun v hv => h v (by simp [hv])
    rw [applyWrites_cons, ih ht]
    by_cases hm : a ∈ ws.map Prod.fst
    · simp [hm]
    · by_cases ha : a = w.1
      · subst ha
        simp [hw]
      · simp [hm, ha]

theorem applyWrites_of_notMem (d : α → β) {a : α}
    (h : a ∉ ws.map Prod.fst) : applyWrites ws d a = d a := by
  induction ws generalizing d with
  | nil => rfl
  | cons w ws ih =>
    simp only [map_cons, mem_cons, not_or] at h
    rw [applyWrites_cons, ih _ h.2, Function.update_of_ne h.1]

/-- Indexed writes to distinct addresses leave each value at its address. -/
theorem applyWrites_range {addr : ℕ → α} {v : ℕ → β} {n : ℕ}
    (hinj : ∀ i < n, ∀ j < n, addr i = addr j → i = j) (d : α → β) {i : ℕ} (hi : i < n) :
    applyWrites ((List.range n).map fun i => (addr i, v i)) d (addr i) = v i := by
  induction n with
  | zero => omega
  | succ n ih =>
    rw [range_succ, map_append, applyWrites_append]
    simp only [map_cons, map_nil, applyWrites_cons, applyWrites_nil]
    rcases Nat.lt_succ_iff_lt_or_eq.mp hi with hlt | rfl
    · have hne : addr i ≠ addr n := fun he => absurd (hinj i hi n (by omega) he) (by omega)
      rw [Function.update_of_ne hne]
      exact ih (fun j hj k hk => hinj j (by omega) k (by omega)) hlt
    · rw [Function.update_self]

end Sbunix.Lib
