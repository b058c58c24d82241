import Sbunix.Vm.Regions

/-!
# Lists of VMAs in order

A list is in order if the VMAs do not run backwards and each ends before the next
starts. `vma_insert` keeps that whenever it inserts, and inserts whenever there is
room; the cut of `vma_split` keeps it if it does not run backwards.
-/

namespace Sbunix.Vm

open Lib List Option Function

def Vma.Has (v : Vma) (va : ℕ) : Prop := v.start ≤ va ∧ va < v.fin

instance (v : Vma) (va : ℕ) : Decidable (v.Has va) := inferInstanceAs (Decidable (_ ∧ _))

structure Ordered (slot : ℕ → Vma) (l : List ℕ) : Prop where
  nodup : l.Nodup
  le : ∀ i ∈ l, (slot i).start ≤ (slot i).fin
  apart : l.Pairwise fun i j => (slot i).fin ≤ (slot j).start

variable {slot slot' : ℕ → Vma} {l l' : List ℕ} {i j v va : ℕ} {prev : Option ℕ}

theorem Ordered.shrink (h : Ordered slot l) (hs : ∀ i ∈ l, (slot i).start ≤ (slot' i).start ∧
      (slot' i).fin ≤ (slot i).fin ∧ (slot' i).start ≤ (slot' i).fin) : Ordered slot' l where
  nodup := h.nodup
  le := fun i hi => (hs i hi).2.2
  apart := h.apart.imp_of_mem fun {i j} hi hj hij => ((hs i hi).2.1.trans hij).trans (hs j hj).1

theorem Ordered.resize {l₁ l₂ : List ℕ} {w : Vma} (h : Ordered slot (l₁ ++ v :: l₂))
    (hw : w.start ≤ w.fin)
    (hbelow : ∀ i ∈ l₁, (slot i).fin ≤ w.start) (habove : ∀ j ∈ l₂, w.fin ≤ (slot j).start) :
    Ordered (update slot v w) (l₁ ++ v :: l₂) := by
  obtain ⟨hnd₁, hnd₂, hdisj⟩ := nodup_append.mp h.nodup
  have hne₁ (i : ℕ) (hi : i ∈ l₁) : i ≠ v := hdisj i hi v mem_cons_self
  have hne₂ (i : ℕ) (hi : i ∈ l₂) : i ≠ v := fun he => (nodup_cons.mp hnd₂).1 (he ▸ hi)
  obtain ⟨hp₁, hp₂, hcross⟩ := pairwise_append.mp h.apart
  obtain ⟨-, hp₂⟩ := pairwise_cons.mp hp₂
  refine ⟨h.nodup, fun i hi => ?_,
    pairwise_append.mpr ⟨?_, pairwise_cons.mpr ⟨fun j hj => ?_, ?_⟩, ?_⟩⟩
  · by_cases hiv : i = v
    · rw [hiv, update_self]
      exact hw
    · rw [update_of_ne hiv]
      exact h.le i hi
  · refine hp₁.imp_of_mem fun {i j} hi hj hij => ?_
    rwa [update_of_ne (hne₁ i hi), update_of_ne (hne₁ j hj)]
  · rw [update_self, update_of_ne (hne₂ j hj)]
    exact habove j hj
  · refine hp₂.imp_of_mem fun {i j} hi hj hij => ?_
    rwa [update_of_ne (hne₂ i hi), update_of_ne (hne₂ j hj)]
  · intro i hi j hj
    rw [update_of_ne (hne₁ i hi)]
    rcases mem_cons.mp hj with rfl | hj
    · rw [update_self]
      exact hbelow i hi
    · rw [update_of_ne (hne₂ j hj)]
      exact hcross i hi j (mem_cons_of_mem _ hj)

theorem Ordered.tail (h : Ordered slot (i :: l)) : Ordered slot l :=
  ⟨(nodup_cons.mp h.nodup).2, fun j hj => h.le j (mem_cons_of_mem _ hj),
    (pairwise_cons.mp h.apart).2⟩

theorem Ordered.head (h : Ordered slot (i :: l)) : ∀ j ∈ l, (slot i).fin ≤ (slot j).start :=
  (pairwise_cons.mp h.apart).1

section

variable (h : Ordered slot l)
include h

theorem Ordered.cons (hi : i ∉ l) (hle : (slot i).start ≤ (slot i).fin)
    (hhead : ∀ j ∈ l, (slot i).fin ≤ (slot j).start) : Ordered slot (i :: l) :=
  ⟨nodup_cons.mpr ⟨hi, h.nodup⟩, fun j hj => (mem_cons.mp hj).elim (fun he => he ▸ hle) (h.le j),
    pairwise_cons.mpr ⟨hhead, h.apart⟩⟩

theorem Ordered.sublist (hl : l'.Sublist l) : Ordered slot l' :=
  ⟨h.nodup.sublist hl, fun i hi => h.le i (hl.subset hi), h.apart.sublist hl⟩

theorem Ordered.below_or_above (hi : i ∈ l) (hj : j ∈ l) (hne : i ≠ j) :
    (slot i).fin ≤ (slot j).start ∨ (slot j).fin ≤ (slot i).start := by
  induction l with
  | nil => cases hi
  | cons a l ih =>
    rcases mem_cons.mp hi with rfl | hi' <;> rcases mem_cons.mp hj with rfl | hj'
    · exact absurd rfl hne
    · exact .inl (h.head j hj')
    · exact .inr (h.head i hi')
    · exact ih h.tail hi' hj'

theorem Ordered.has_unique (hi : i ∈ l) (hj : j ∈ l) (hvi : (slot i).Has va)
    (hvj : (slot j).Has va) : i = j := by
  by_contra hne
  obtain ⟨h1, h2⟩ := hvi
  obtain ⟨h3, h4⟩ := hvj
  rcases h.below_or_above hi hj hne with hb | hb <;> omega

end

theorem insertFrom_perm (he : Space.insertFrom slot v prev l = some l') : l'.Perm (v :: l) := by
  induction l generalizing prev l' with
  | nil =>
    rw [Space.insertFrom] at he
    split at he
    · cases he
    · cases he
      exact .refl _
  | cons j l ih =>
    rw [Space.insertFrom] at he
    split at he
    · obtain ⟨l1, hl1, rfl⟩ := map_eq_some_iff.mp he
      exact ((ih hl1).cons j).trans (.swap v j l)
    split at he
    · cases he
    split at he
    · cases he
    · cases he
      exact .refl _

theorem Ordered.insertFrom (h : Ordered slot l) (hv : v ∉ l) (hle : (slot v).start ≤ (slot v).fin)
    (hprev : ∀ p ∈ prev, ∀ k ∈ l, (slot p).fin ≤ (slot k).start)
    (he : Space.insertFrom slot v prev l = some l') :
    Ordered slot l' ∧ ∀ p ∈ prev, (slot p).fin ≤ (slot v).start := by
  induction l generalizing prev l' with
  | nil =>
    rw [Space.insertFrom] at he
    split at he
    · cases he
    next hno =>
    cases he
    refine ⟨⟨nodup_singleton v, fun i hi => mem_singleton.mp hi ▸ hle, pairwise_singleton ..⟩,
      fun p hp => ?_⟩
    rw [mem_def.mp hp] at hno
    simpa using hno
  | cons j l ih =>
    rw [Space.insertFrom] at he
    have hvj : v ≠ j := fun he => hv (he ▸ mem_cons_self)
    have hvl : v ∉ l := fun hm => hv (mem_cons_of_mem _ hm)
    split at he
    next hlt =>
      obtain ⟨l1, hl1, rfl⟩ := map_eq_some_iff.mp he
      have hperm := insertFrom_perm hl1
      obtain ⟨hord, hj⟩ := ih h.tail hvl (fun p hp k hk => mem_some.mp hp ▸ h.head k hk) hl1
      have hjv := hj j rfl
      refine ⟨hord.cons ?_ (h.le j mem_cons_self) fun k hk => ?_, fun p hp => ?_⟩
      · rw [hperm.mem_iff, mem_cons, not_or]
        exact ⟨Ne.symm hvj, (nodup_cons.mp h.nodup).1⟩
      · rcases mem_cons.mp (hperm.mem_iff.mp hk) with rfl | hk
        · exact hjv
        · exact h.head k hk
      · have := hprev p hp j mem_cons_self
        omega
    next hge =>
    split at he
    · cases he
    next hfin =>
    split at he
    · cases he
    next hno =>
    cases he
    refine ⟨h.cons hv hle fun k hk => ?_, fun p hp => ?_⟩
    · rcases mem_cons.mp hk with rfl | hk
      · omega
      · have := h.head k hk
        have := h.le j mem_cons_self
        omega
    · rw [mem_def.mp hp] at hno
      simpa using hno

theorem insertFrom_isSome (hroom : ∀ j ∈ l, (slot j).start < (slot v).start ∧
    (slot j).fin ≤ (slot v).start ∨
      (slot v).start ≤ (slot j).start ∧ (slot v).fin ≤ (slot j).start)
    (hprev : ∀ p ∈ prev, (slot p).fin ≤ (slot v).start) :
    (Space.insertFrom slot v prev l).isSome := by
  have hany : (prev.any fun p => (slot v).start < (slot p).fin) = false := by
    cases prev with
    | none => rfl
    | some p => simpa using hprev p rfl
  induction l generalizing prev with
  | nil =>
    rw [Space.insertFrom, hany]
    rfl
  | cons j l ih =>
    rw [Space.insertFrom]
    have hj := hroom j mem_cons_self
    split
    next hlt =>
      have hfin : (slot j).fin ≤ (slot v).start := by omega
      rw [isSome_map]
      exact ih (fun k hk => hroom k (mem_cons_of_mem _ hk)) (fun p hp => mem_some.mp hp ▸ hfin)
        (by simpa using hfin)
    next hge =>
      rw [if_neg (by omega), hany]
      rfl

/-! ## A space in order -/

namespace Space

variable {s s' : Space}

/-- The list is in order, below the end of the address space. -/
structure WellFormed (s : Space) : Prop where
  ordered : Ordered s.slot s.list
  bound : ∀ i ∈ s.list, (s.slot i).fin < 2 ^ 64

def Covers (s : Space) (va : ℕ) : Prop := ∃ i ∈ s.list, (s.slot i).Has va

theorem vmaFind_some (h : s.vmaFind va = some v) : v ∈ s.list ∧ (s.slot v).Has va := by
  refine ⟨mem_of_find?_eq_some h, ?_⟩
  simpa [Vma.Has] using find?_some h

theorem vmaFind_none : s.vmaFind va = none ↔ ¬ s.Covers va := by
  simp [vmaFind, Covers, Vma.Has]

end Space

end Sbunix.Vm
