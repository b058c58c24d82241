import Mathlib.Data.List.Rotate
import Mathlib.Tactic

/-!
# Round robin

A list is scanned cyclically, starting behind the entry picked last. `turns` is
the order of the scan, and `before l cur t` are the entries that come before `t`
in it. Picking one of them, adding an entry at the end and removing an entry
that is neither the last pick nor `t` bring nothing old in front of `t`.
-/

namespace Sbunix.Lib

open List

variable {α : Type*}

/-! ### The scan -/

/-- Search `l` from index `i` on, wrapping at the end, until the index is `start` again. -/
def cycleFind (p : α → Bool) (l : List α) (start : ℕ) : ℕ → ℕ → Option α
  | 0, _ => none
  | fuel + 1, i =>
    match l[i]? with
    | none => none
    | some a =>
      if p a then some a
      else
        let next := if i + 1 < l.length then i + 1 else 0
        if next = start then none else cycleFind p l start fuel next

variable {p : α → Bool} {l u v : List α} {f t x : α} {cur : Option α} {start : ℕ} {n : α}

theorem cycleFind_drop (hstart : start < l.length)
    {fuel t : ℕ} (ht : t < l.length) (hfuel : l.length ≤ fuel + t) :
    cycleFind p l start fuel ((t + start) % l.length) = ((l.rotate start).drop t).find? p := by
  induction fuel generalizing t with
  | zero => omega
  | succ fuel ih =>
    have hlt : (t + start) % l.length < l.length := Nat.mod_lt _ (by omega)
    have hnext : (if (t + start) % l.length + 1 < l.length then (t + start) % l.length + 1 else 0) =
        (t + 1 + start) % l.length := by
      rw [Nat.add_right_comm, ← Nat.mod_add_mod (t + start)]
      split
      · next h => exact (Nat.mod_eq_of_lt h).symm
      · next h => rw [show (t + start) % l.length + 1 = l.length by omega, Nat.mod_self]
    have hcons : (l.rotate start).drop t = l[(t + start) % l.length] :: (l.rotate start).drop
        (t + 1) := by
      rw [drop_eq_getElem_cons (by rwa [length_rotate]), getElem_rotate]
    rw [hcons, find?_cons, cycleFind, getElem?_eq_getElem hlt]
    dsimp only
    by_cases hp : p l[(t + start) % l.length] = true
    · rw [if_pos hp, hp]
    · rw [if_neg hp, Bool.eq_false_of_not_eq_true hp, hnext]
      by_cases hlast : t + 1 = l.length
      · have hback : (t + 1 + start) % l.length = start := by
          rw [hlast, Nat.add_mod_left, Nat.mod_eq_of_lt hstart]
        rw [if_pos hback, drop_eq_nil_of_le (by rw [length_rotate]; omega)]
        rfl
      · have hmore : (t + 1 + start) % l.length ≠ start := by
          intro h
          rcases Nat.lt_or_ge (t + 1 + start) l.length with hw | hw
          · rw [Nat.mod_eq_of_lt hw] at h
            omega
          · rw [Nat.mod_eq_sub_mod hw, Nat.mod_eq_of_lt (by omega)] at h
            omega
        rw [if_neg hmore, ih (by omega) (by omega)]

/-- The loop visits the whole list once, beginning at `start`. -/
theorem cycleFind_eq (hstart : start < l.length) :
    cycleFind p l start l.length start = (l.rotate start).find? p := by
  have h := cycleFind_drop (p := p) hstart (t := 0) (by omega) le_rfl
  rwa [Nat.zero_add, Nat.mod_eq_of_lt hstart, drop_zero] at h

/-! ### Lists -/

/-- A rotation of a list without duplicates is known by its last entry. -/
theorem eq_of_isRotated_concat {x y : List α} (h : x ++ [f] ~r y ++ [f])
    (hx : (x ++ [f]).Nodup) : x = y := by
  obtain ⟨n, hn⟩ := h
  rw [← rotate_mod] at hn
  have hlt : n % (x ++ [f]).length < (x ++ [f]).length := Nat.mod_lt _ (by simp)
  generalize n % (x ++ [f]).length = m at hn hlt
  rw [rotate_eq_drop_append_take hlt.le] at hn
  rcases Nat.eq_zero_or_pos m with rfl | hpos
  · simpa using hn
  · -- `f` would be the last entry of both parts
    have hdrop : f ∈ (x ++ [f]).drop m := by
      rw [length_append, length_singleton] at hlt
      rw [drop_append_of_le_length (by omega)]
      exact mem_append_right _ (mem_singleton_self f)
    have htake : f ∈ (x ++ [f]).take m := by
      have hne : (x ++ [f]).take m ≠ [] := by
        intro h
        rcases take_eq_nil_iff.mp h with h | h
        · omega
        · simp at h
      have hlast := congrArg List.getLast? hn
      rw [getLast?_append_of_ne_nil _ hne, getLast?_concat] at hlast
      exact mem_of_getLast? hlast
    rw [← take_append_drop m (x ++ [f])] at hx
    exact absurd hdrop (disjoint_of_nodup_append hx htake)

theorem mem_takeWhile_insert
    (hx : x ∈ (u ++ n :: v).takeWhile p) : x ∈ (u ++ v).takeWhile p ∨ x = n := by
  induction u with
  | nil =>
    rw [nil_append, takeWhile_cons] at hx
    split at hx
    · exact (mem_cons.mp hx).symm
    · cases hx
  | cons a u ih =>
    rw [cons_append, takeWhile_cons] at hx ⊢
    split at hx
    · next h =>
      rw [if_pos h]
      rcases mem_cons.mp hx with rfl | hx
      · exact .inl (mem_cons_self ..)
      · exact (ih hx).imp_left (mem_cons_of_mem a)
    · cases hx

theorem mem_takeWhile_filter {q : α → Bool} (hpq : ∀ a, p a = false → q a = true)
    (hx : x ∈ (l.filter q).takeWhile p) : x ∈ l.takeWhile p := by
  induction l with
  | nil => cases hx
  | cons a l ih =>
    by_cases hp : p a = true
    · rw [takeWhile_cons_of_pos hp, mem_cons]
      by_cases hq : q a = true
      · rw [filter_cons_of_pos hq, takeWhile_cons_of_pos hp, mem_cons] at hx
        exact hx.imp_right ih
      · rw [filter_cons_of_neg hq] at hx
        exact .inr (ih hx)
    · have hq := hpq a (by simpa using hp)
      rw [filter_cons_of_pos hq, takeWhile_cons_of_neg hp] at hx
      cases hx

/-! ### Turns -/

variable [DecidableEq α]

/-- The order of the scan behind `cur`. -/
def turns (l : List α) : Option α → List α
  | none => l
  | some c => l.rotate (l.idxOf c + 1)

/-- The entries whose turn comes before that of `t`. -/
def before (l : List α) (cur : Option α) (t : α) : List α :=
  (turns l cur).takeWhile (· ≠ t)

theorem turns_isRotated (l : List α) (cur : Option α) : l ~r turns l cur := by
  cases cur with
  | none => exact .refl l
  | some c => exact ⟨_, rfl⟩

theorem turns_split {a b : List α} {c : α} (hc : c ∉ a) :
    turns (a ++ c :: b) (some c) = b ++ a ++ [c] := by
  have hidx : (a ++ c :: b).idxOf c = a.length := by
    rw [idxOf_append_of_notMem hc, idxOf_cons_self, Nat.add_zero]
  have hlen : a.length + 1 = (a ++ [c]).length := by simp
  have hcut : a ++ c :: b = (a ++ [c]) ++ b := by simp
  rw [turns, hidx, hlen, hcut, rotate_append_length_eq, append_assoc]

/-- The turns behind `f` do not depend on where the cycle is cut. -/
theorem turns_of_isRotated {x : List α} (hl : l.Nodup) (h : l ~r x ++ [f]) :
    turns l (some f) = x ++ [f] := by
  have hf : f ∈ l := h.mem_iff.mpr (by simp)
  obtain ⟨a, b, rfl⟩ := append_of_mem hf
  have hfa : f ∉ a := fun ha =>
    disjoint_of_nodup_append hl ha (mem_cons_self ..)
  have hturns := turns_split (b := b) hfa
  have hrot : b ++ a ++ [f] ~r x ++ [f] := by
    rw [← hturns]
    exact (turns_isRotated _ _).symm.trans h
  have hnodup : (b ++ a ++ [f]).Nodup := by
    rw [← hturns]
    exact (turns_isRotated _ _).nodup_iff.mp hl
  rw [hturns, eq_of_isRotated_concat hrot hnodup]

theorem turns_filter (hl : l.Nodup) (hcur : ∀ c ∈ cur, c ∈ l)
    (hp : ∀ c ∈ cur, p c = true) : turns (l.filter p) cur = (turns l cur).filter p := by
  cases cur with
  | none => rfl
  | some c =>
    obtain ⟨a, b, rfl⟩ := append_of_mem (hcur c rfl)
    have hca : c ∉ a := fun ha => disjoint_of_nodup_append hl ha (mem_cons_self ..)
    have hpc := hp c rfl
    rw [turns_split hca, filter_append, filter_cons_of_pos hpc,
      turns_split fun h => hca (mem_of_mem_filter h)]
    simp [hpc]

/-! ### What comes before an entry -/

theorem takeWhile_ne_split (ht : t ∉ u) : (u ++ t :: v).takeWhile (· ≠ t) = u := by
  induction u with
  | nil => simp
  | cons a u ih =>
    have hne : a ≠ t := fun h => ht (h ▸ mem_cons_self ..)
    have hu : t ∉ u := fun h => ht (mem_cons_of_mem a h)
    rw [cons_append, takeWhile_cons_of_pos (by simpa using hne), ih hu]

theorem before_split (h : turns l cur = u ++ t :: v) (ht : t ∉ u) : before l cur t = u := by
  rw [before, h, takeWhile_ne_split ht]

theorem mem_of_mem_before (hx : x ∈ before l cur t) : x ∈ l :=
  (turns_isRotated l cur).mem_iff.mpr ((takeWhile_sublist _).mem hx)

theorem exists_split (cur : Option α) (ht : t ∈ l) : ∃ u v, turns l cur = u ++ t :: v ∧ t ∉ u := by
  exact eq_append_cons_of_mem ((turns_isRotated l cur).mem_iff.mp ht)

/-- When an entry is picked, it and what came before it are behind. -/
theorem before_pick (hl : l.Nodup) (ht : t ∈ l) (hf : f ∈ before l cur t) :
    f ∉ before l (some f) t ∧ ∀ x ∈ before l (some f) t, x ∈ before l cur t := by
  obtain ⟨u, v, huv, htu⟩ := exists_split cur ht
  rw [before_split huv htu] at hf ⊢
  obtain ⟨x, y, rfl⟩ := append_of_mem hf
  have hnodup := (turns_isRotated l cur).nodup_iff.mp hl
  rw [huv] at hnodup
  have hrot : l ~r (y ++ t :: v ++ x) ++ [f] := by
    refine (turns_isRotated l cur).trans ⟨(x ++ [f]).length, ?_⟩
    have hcut : turns l cur = (x ++ [f]) ++ (y ++ t :: v) := by
      rw [huv]
      simp
    rw [hcut, rotate_append_length_eq]
    simp
  have hy : before l (some f) t = y := by
    refine before_split (v := v ++ x ++ [f]) ?_ fun h => htu (by simp [h])
    rw [turns_of_isRotated hl hrot]
    simp
  rw [hy]
  refine ⟨fun h => ?_, fun z hz => by simp [hz]⟩
  have hdisj : List.Disjoint (x ++ [f]) (y ++ t :: v) := by
    refine disjoint_of_nodup_append ?_
    simpa using hnodup
  exact hdisj (mem_append_right _ (mem_singleton_self f)) (mem_append_left _ h)

/-- The first entry of the turns that qualifies comes before `t`, if `t` qualifies and is not it. -/
theorem mem_before (h : turns l cur = u ++ f :: v)
    (ht : t ∉ u) (hne : f ≠ t) : f ∈ before l cur t := by
  have hu : ∀ a ∈ u, decide (a ≠ t) = true := fun a ha => by
    simpa using fun h : a = t => ht (h ▸ ha)
  rw [before, h, takeWhile_append_of_pos hu, takeWhile_cons_of_pos (by simpa using hne)]
  simp

/-- A new entry at the end may come before `t`, nothing else that did not. -/
theorem mem_before_add (hl : l.Nodup) (hcur : ∀ c ∈ cur, c ∈ l)
    (hx : x ∈ before (l ++ [n]) cur t) : x ∈ before l cur t ∨ x = n := by
  cases cur with
  | none =>
    have h := mem_takeWhile_insert (v := []) hx
    rwa [append_nil] at h
  | some c =>
    obtain ⟨a, b, rfl⟩ := append_of_mem (hcur c rfl)
    have hca : c ∉ a := fun ha => disjoint_of_nodup_append hl ha (mem_cons_self ..)
    have hold : turns (a ++ c :: b) (some c) = b ++ (a ++ [c]) := by
      rw [turns_split hca, append_assoc]
    have hnew : turns (a ++ c :: b ++ [n]) (some c) = b ++ n :: (a ++ [c]) := by
      rw [append_assoc, cons_append, turns_split hca]
      simp
    rw [before, hnew] at hx
    rw [before, hold]
    exact mem_takeWhile_insert hx

theorem mem_before_filter (hl : l.Nodup) (hcur : ∀ c ∈ cur, c ∈ l)
    (hp : ∀ c ∈ cur, p c = true) (ht : p t = true)
    (hx : x ∈ before (l.filter p) cur t) : x ∈ before l cur t := by
  rw [before, turns_filter hl hcur hp] at hx
  refine mem_takeWhile_filter (fun a ha => ?_) hx
  obtain rfl : a = t := by simpa using ha
  exact ht

end Sbunix.Lib
