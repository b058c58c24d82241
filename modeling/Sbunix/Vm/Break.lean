import Sbunix.Vm.Placement

/-!
# The program break

`heap_vma` caches a pointer into the list of VMAs. It stays one as long as no
`munmap` removes that VMA, and then `sbrk` moves the end of the heap by exactly its
argument, provided the sum does not wrap.
-/

namespace Sbunix.Vm

open Lib List Function

namespace Space

variable {s s' : Space} {alloc : Option ℕ} {h old new va : ℕ} {incr : ℤ}

/-! ## `sbrk` -/

theorem ceiling_aux (s : Space) (h old : ℕ) (l : List ℕ) (c : ℕ) :
    l.foldl (fun c i => if i = h then c else if old ≤ (s.slot i).start ∧
      (s.slot i).start < c then (s.slot i).start else c) c
      ≤ c ∧
    ∀ i ∈ l, i ≠ h → old ≤ (s.slot i).start →
      l.foldl (fun c i => if i = h then c else if old ≤ (s.slot i).start ∧
        (s.slot i).start < c then (s.slot i).start else c)
        c ≤ (s.slot i).start := by
  induction l generalizing c with
  | nil => exact ⟨Nat.le_refl c, fun i hi => nomatch hi⟩
  | cons j l ih =>
    rw [foldl_cons]
    obtain ⟨hle, hall⟩ := ih (if j = h then c else
      if old ≤ (s.slot j).start ∧ (s.slot j).start < c then (s.slot j).start else c)
    refine ⟨hle.trans ?_, fun i hi hne hold => ?_⟩
    · split_ifs <;> omega
    · rcases mem_cons.mp hi with rfl | hi
      · refine hle.trans ?_
        rw [if_neg hne]
        split_ifs <;> omega
      · exact hall i hi hne hold

theorem ceiling_le (s : Space) (h old : ℕ) : s.ceiling h old ≤ MMAP_START ∧
    ∀ i ∈ s.list, i ≠ h → old ≤ (s.slot i).start → s.ceiling h old ≤ (s.slot i).start :=
  ceiling_aux s h old s.list MMAP_START

/-- How a call of `sbrk` can end. -/
inductive SbrkResult (s : Space) (incr : ℤ) : ℤ × Space → Prop
  | failed (e : ℤ) (he : e < 0) : SbrkResult s incr (e, s)
  | same (h : ℕ) (hh : s.heap = some h) (hincr : incr = 0) :
    SbrkResult s incr (asInt64 (s.slot h).fin, s)
  | grown (h new : ℕ) (hh : s.heap = some h) (hincr : 0 < incr)
    (hnew : (new : ℤ) = ((s.slot h).fin + incr) % 2 ^ 64)
      (hold : (s.slot h).fin ≤ new) (hceil : new ≤ s.ceiling h (s.slot h).fin) :
      SbrkResult s incr (asInt64 (s.slot h).fin, s.setEnd h new)
  | shrunk (h new : ℕ) (hh : s.heap = some h) (hincr : incr < 0)
    (hnew : (new : ℤ) = ((s.slot h).fin + incr) % 2 ^ 64)
      (hstart : (s.slot h).start ≤ new) :
      SbrkResult s incr (asInt64 (s.slot h).fin,
        (s.uvmunmapRange (pageRoundUp new) (pageRoundUp (s.slot h).fin)).setEnd h new)

theorem uvmunmapRange_of_le {a b : ℕ} (hab : b ≤ a) : s.uvmunmapRange a b = s := by
  rw [uvmunmapRange, unmapPages, Nat.sub_eq_zero_of_le hab]
  rfl

theorem sbrk_result (s : Space) (incr : ℤ) : SbrkResult s incr (s.sbrk incr) := by
  unfold sbrk
  cases hh : s.heap with
  | none => exact .failed _ (by decide)
  | some h =>
    have hnew : ((((s.slot h).fin + incr) % 2 ^ 64).toNat : ℤ) = ((s.slot h).fin + incr) % 2 ^ 64 :=
      Int.toNat_of_nonneg (Int.emod_nonneg _ (by norm_num))
    dsimp only
    set new := (((s.slot h).fin + incr) % 2 ^ 64).toNat
    split_ifs with hpos hwrap hceil hneg hstart hpages
    · exact .failed _ (by decide)
    · exact .failed _ (by decide)
    · exact .grown h new hh hpos hnew (Nat.not_lt.mp hwrap) (Nat.not_lt.mp hceil)
    · exact .failed _ (by decide)
    · exact .shrunk h new hh hneg hnew (Nat.not_lt.mp hstart)
    · have hres := SbrkResult.shrunk h new hh hneg hnew (Nat.not_lt.mp hstart)
      rwa [uvmunmapRange_of_le (Nat.not_lt.mp hpages)] at hres
    · exact .same h hh (by omega)

theorem uvmunmapRange_break (hnew : new ≤ old) (hold : old ≤ 2 ^ 39) (hva : va < 2 ^ 39) :
    (s.uvmunmapRange (pageRoundUp new) (pageRoundUp old)).pte (vpn va) =
      if new ≤ pageDown va ∧ pageDown va < old then cleared Pte.leaf (s.pte (vpn va))
      else s.pte (vpn va) := by
  have hlt {x : ℕ} (hx : x ≤ 2 ^ 39) : pageRoundUp x = (x + 4095) / 4096 * 4096 :=
    pageRoundUp_eq (by simp only [PAGE_SIZE]; omega)
  have hn := hlt (hnew.trans hold)
  have ho := hlt hold
  split
  next hin =>
    refine clearPages_of_eq (k := va / PAGE_SIZE - pageRoundUp new / PAGE_SIZE) ?_ ?_
    · rw [hn, ho]
      simp only [pageDown, PAGE_SIZE] at *
      omega
    · rw [hn]
      simp only [vpn, pageDown, PAGE_SIZE] at *
      congr 1
      omega
  next hout =>
    refine clearPages_outside (Nat.mul_mod_left ..) (Nat.mul_mod_left ..) ?_ hva ?_
    · rw [ho]
      omega
    · rw [hn, ho]
      simp only [pageDown, PAGE_SIZE] at *
      omega

/-- What `sbrk` is to do with the heap `h`. No page above the new break is mapped: an entry that is
left there has none of R, W and X. -/
structure MovesBreak (s s' : Space) (h : ℕ) (incr : ℤ) : Prop where
  fin : ((s'.slot h).fin : ℤ) = (s.slot h).fin + incr
  vma : s'.slot h = { s.slot h with fin := (s'.slot h).fin }
  low : (s.slot h).start ≤ (s'.slot h).fin
  high : ∀ i ∈ s.list, i ≠ h → (s.slot h).fin ≤ (s.slot i).start →
    (s'.slot h).fin ≤ (s.slot i).start
  window : (s'.slot h).fin ≤ max (s.slot h).fin MMAP_START
  heap : s'.heap = s.heap
  list : s'.list = s.list
  others : ∀ i, i ≠ h → s'.slot i = s.slot i
  pages : ∀ va < 2 ^ 39, s'.pte (vpn va) =
    if (s'.slot h).fin ≤ pageDown va ∧ pageDown va < (s.slot h).fin then cleared Pte.leaf
      (s.pte (vpn va))
    else s.pte (vpn va)

/-- It fails and changes nothing, or returns the old break and moves it. -/
def SbrkExact (s : Space) (incr : ℤ) : Prop :=
  (s.sbrk incr).1 < 0 ∧ (s.sbrk incr).2 = s ∨
    ∃ h, s.heap = some h ∧ (s.sbrk incr).1 = (s.slot h).fin ∧ MovesBreak s (s.sbrk incr).2 h incr

/-- The pointer is to a heap VMA of the list; the heap VMAs do not run backwards and lie in
the range of the page table. -/
structure HasBreak (s : Space) : Prop where
  nodup : s.list.Nodup
  pointer : ∃ h, s.heap = some h ∧ h ∈ s.list ∧ (s.slot h).type = .heap
  range : ∀ i ∈ s.list, (s.slot i).type = .heap → (s.slot i).start ≤ (s.slot i).fin ∧
    (s.slot i).fin ≤ 2 ^ 39

def NoWrap (s : Space) (incr : ℤ) : Prop := ∀ h, s.heap = some h → 0 ≤ (s.slot h).fin + incr

/-- The heap does not reach the kernel's entries, before the call or after it. -/
def OwnHeap (s : Space) (incr : ℤ) : Prop := ∀ h, s.heap = some h →
  (s.slot h).fin ≤ IDENTITY_START ∧ (s.slot h).fin + incr ≤ IDENTITY_START ∨
    IDENTITY_END ≤ (s.slot h).start

theorem sbrk_exact (hs : s.HasBreak) (hincr : incr < 2 ^ 63) (hwrap : s.NoWrap incr) :
    s.SbrkExact incr := by
  have hret {h : ℕ} (hh : s.heap = some h) : asInt64 (s.slot h).fin = (s.slot h).fin ∧
      (s.slot h).start ≤ (s.slot h).fin ∧ (s.slot h).fin ≤ 2 ^ 39 := by
    obtain ⟨h', hh', hmem, htype⟩ := hs.pointer
    cases hh.symm.trans hh'
    obtain ⟨hle, hbound⟩ := hs.range h hmem htype
    exact ⟨if_pos (by omega), hle, hbound⟩
  have hres := sbrk_result s incr
  unfold SbrkExact
  generalize s.sbrk incr = res at hres
  cases hres with
  | failed e he => exact .inl ⟨he, rfl⟩
  | same h hh hzero =>
    obtain ⟨heq, hle, -⟩ := hret hh
    refine .inr ⟨h, hh, heq, by rw [hzero, add_zero], rfl, hle,
      fun _ _ _ h => h, Nat.le_max_left .., rfl, rfl, fun _ _ => rfl, fun va _ => ?_⟩
    exact (if_neg fun hc => absurd hc.2 (Nat.not_lt.mpr hc.1)).symm
  | grown h new hh hpos hnew hold hceil =>
    obtain ⟨heq, hle, hbound⟩ := hret hh
    have hfin : ((s.setEnd h new).slot h).fin = new := by simp [setEnd, setVma]
    refine .inr ⟨h, hh, heq, ?_, by simp [setEnd, setVma], ?_, fun i hi hne h => ?_, ?_, rfl, rfl,
      fun i hi => update_of_ne hi .., fun va _ => ?_⟩
    · rw [hfin]
      omega
    · rw [hfin]
      omega
    · rw [hfin]
      exact hceil.trans ((ceiling_le s _ _).2 i hi hne h)
    · rw [hfin]
      exact (hceil.trans (ceiling_le s _ _).1).trans (Nat.le_max_right ..)
    · rw [hfin, if_neg (by omega)]
      rfl
  | shrunk h new hh hneg hnew hstart =>
    obtain ⟨heq, hle, hbound⟩ := hret hh
    have hsum := hwrap h hh
    have hfin : (((s.uvmunmapRange (pageRoundUp new) (pageRoundUp (s.slot h).fin)).setEnd h
        new).slot h).fin = new := by
      simp [setEnd, setVma]
    refine .inr ⟨h, hh, heq, ?_, by simp [setEnd, setVma, uvmunmapRange, unmapPages], ?_,
      fun i hi hne h => ?_, ?_, rfl, rfl,
      fun i hi => update_of_ne hi .., fun va hva => ?_⟩
    · rw [hfin]
      omega
    · rw [hfin]
      exact hstart
    · rw [hfin]
      omega
    · rw [hfin]
      omega
    · rw [hfin]
      exact uvmunmapRange_break (by omega) hbound hva

/-! ## What the calls do to the pointer -/

def SparesHeap (s : Space) (addr len : ℕ) : Prop :=
  ∀ h, s.heap = some h → ¬ ((s.slot h).start = addr ∧ (s.slot h).fin = addr + wholePages len)

theorem HasBreak.munmap (hs : s.HasBreak) {addr len : ℕ} (hlen : len < 2 ^ 64)
    (hfresh : ∀ r, alloc = some r → r ∉ s.list) (hspare : s.SparesHeap addr len) :
    (s.munmap alloc addr len).2.HasBreak := by
  have hres := munmap_result s alloc addr len
  generalize s.munmap alloc addr len = res at hres
  cases hres with
  | failed => exact hs
  | unmapped v s' halign hne hfind hfin hcase hpte hheap =>
    obtain ⟨hv, hhas⟩ := vmaFind_some hfind
    refine ⟨hcase.nodup hs.nodup hfresh, ?_, fun i hi htype => ?_⟩
    · obtain ⟨h, hh, hmem, htype⟩ := hs.pointer
      obtain ⟨hmem', htype'⟩ := hcase.stays hs.nodup hfresh hmem (by
        rintro ⟨rfl, hstart, hend⟩
        refine hspare h hh ⟨hstart, ?_⟩
        have hlt : addr + wholePages len < 2 ^ 64 := by
          by_contra hno
          have := add64_pageRoundUp_le hlen (Nat.not_lt.mp hno)
          have := hhas.2
          omega
        rw [hend, pageRoundUp_eq (by simp only [wholePages, PAGE_SIZE] at *; omega), add64_eq hlt])
      exact ⟨h, hheap.trans hh, hmem', htype'.trans htype⟩
    · rcases hcase.old_or_piece hs.nodup hv hfresh hi with ⟨hi, heq⟩ | hp
      · rw [heq] at htype ⊢
        exact hs.range i hi htype
      have hrange := hs.range v hv
      have hlo := hhas.1
      have hhi := hhas.2
      generalize s'.slot i = w at hp htype
      cases hp with
      | left hstart =>
        have := hrange htype
        exact ⟨hstart.le, by change addr ≤ 2 ^ 39; omega⟩
      | right hstart hlt | rest hstart hlt => exact ⟨hlt.le, (hrange htype).2⟩

theorem HasBreak.mmap (hs : s.HasBreak) {ofile : ℕ → Option OpenFile} {a : MmapArgs}
    (hfresh : ∀ r, alloc = some r → r ∉ s.list) : (s.mmap ofile alloc a).2.HasBreak := by
  have hres := mmap_result s ofile alloc a
  generalize s.mmap ofile alloc a = res at hres
  cases hres with
  | invalid | noPlace | noStruct => exact hs
  | rejected n search r file s' hn hplace hr hno hslot hlist hrest =>
    have hsame (i : ℕ) (hi : i ∈ s.list) :
      s'.slot i = s.slot i := hslot i fun he => hfresh r hr (he ▸ hi)
    obtain ⟨h, hh, hmem, htype⟩ := hs.pointer
    refine ⟨hlist ▸ hs.nodup, ⟨h, hrest.2.1.trans hh, hlist ▸ hmem, by rw [hsame h hmem, htype]⟩,
      fun i hi htype => ?_⟩
    rw [hlist] at hi
    rw [hsame i hi] at htype ⊢
    exact hs.range i hi htype
  | mapped n search r file s' hn hplace hr hslot hlist hrest =>
    have hperm := insertFrom_perm hlist
    have hsame (i : ℕ) (hi : i ∈ s.list) : s'.slot i = s.slot i := by
      have hne : i ≠ r := fun he => hfresh r hr (he ▸ hi)
      rw [hslot, update_of_ne hne]
    obtain ⟨h, hh, hmem, htype⟩ := hs.pointer
    refine ⟨hperm.nodup_iff.mpr (nodup_cons.mpr ⟨hfresh r hr, hs.nodup⟩),
      ⟨h, hrest.2.1.trans hh, hperm.mem_iff.mpr (mem_cons_of_mem _ hmem), by
        rw [hsame h hmem, htype]⟩,
      fun i hi htype => ?_⟩
    rcases mem_cons.mp (hperm.mem_iff.mp hi) with rfl | hi
    · rw [hslot, update_self] at htype
      cases file <;> cases htype
    · rw [hsame i hi] at htype ⊢
      exact hs.range i hi htype

theorem HasBreak.sbrk (hs : s.HasBreak) (hincr : incr < 2 ^ 63) (hwrap : s.NoWrap incr) :
    (s.sbrk incr).2.HasBreak := by
  rcases sbrk_exact hs hincr hwrap with ⟨-, heq⟩ | ⟨h, hh, -, hmove⟩
  · rwa [heq]
  obtain ⟨h', hh', hmem, htype⟩ := hs.pointer
  cases hh.symm.trans hh'
  refine ⟨hmove.list ▸ hs.nodup, ⟨h, hmove.heap.trans hh, hmove.list ▸ hmem, by
    rw [hmove.vma, htype]⟩, fun i hi hi' => ?_⟩
  rw [hmove.list] at hi
  by_cases hih : i = h
  · subst hih
    rw [hmove.vma]
    have hbound := (hs.range i hi htype).2
    have hwin := hmove.window
    refine ⟨hmove.low, hwin.trans (max_le hbound ?_)⟩
    decide
  · rw [hmove.others i hih] at hi' ⊢
    exact hs.range i hi hi'

theorem vmaListDup_spec {t : Space} {l places copies : List ℕ}
    (h : s.vmaListDup l places = some (t, copies))
    (hnd : places.Nodup) (hfresh : ∀ c ∈ places, c ∉ l) :
    copies.Sublist places ∧ copies.map t.slot = l.map s.slot ∧ ∀ i, i ∉ places →
      t.slot i = s.slot i := by
  induction l generalizing s places copies with
  | nil =>
    cases h
    exact ⟨nil_sublist _, rfl, fun _ _ => rfl⟩
  | cons i l ih =>
    cases places with
    | nil => cases h
    | cons c places =>
      rw [vmaListDup] at h
      obtain ⟨⟨t', copies'⟩, hrec, hret⟩ := Option.bind_eq_some_iff.mp h
      cases hret
      obtain ⟨hc, hnd'⟩ := nodup_cons.mp hnd
      obtain ⟨hsub, hall, hkeep⟩ := ih hrec hnd' fun c hc hi =>
        hfresh c (mem_cons_of_mem _ hc) (mem_cons_of_mem _ hi)
      -- the copy just made is not touched again, nor is an original
      have hslot : (((s.vmaAlloc c).setVma c (s.slot i)).inodeGetOpt
          (if (s.slot i).type = .file then (s.slot i).file else none)).slot =
            update s.slot c (s.slot i) := by
        rw [inodeGetOpt_slot]
        exact update_idem ..
      rw [hslot] at hall hkeep
      refine ⟨hsub.cons_cons c, ?_, fun j hj => ?_⟩
      · rw [map_cons, map_cons, hall, hkeep c hc, update_self]
        refine congrArg _ (map_congr_left fun j hj => update_of_ne ?_ ..)
        exact fun he => hfresh c mem_cons_self (mem_cons_of_mem _ (he ▸ hj))
      · rw [mem_cons, not_or] at hj
        rw [hkeep j hj.2, update_of_ne hj.1]

theorem HasBreak.forkChild (hs : s.HasBreak) {places : List ℕ} (hnd : places.Nodup)
    (hfresh : ∀ c ∈ places, c ∉ s.list)
    (h : s.forkChild places = some s') : s'.HasBreak := by
  obtain ⟨⟨t, copies⟩, hdup, hret⟩ := Option.bind_eq_some_iff.mp h
  cases hret
  obtain ⟨hsub, hmap, -⟩ := vmaListDup_spec hdup hnd hfresh
  -- a copy stands for a VMA of the parent
  have horig {c : ℕ} (hc : c ∈ copies) : ∃ i ∈ s.list, s.slot i = t.slot c :=
    mem_map.mp (hmap ▸ mem_map_of_mem hc)
  refine ⟨hnd.sublist hsub, ?_, fun c hc htype => ?_⟩
  · obtain ⟨h, -, hmem, htype⟩ := hs.pointer
    obtain ⟨c, hc, hslot⟩ : ∃ c ∈ copies, t.slot c = s.slot h :=
      mem_map.mp (hmap.symm ▸ mem_map_of_mem hmem)
    have hsome : (copies.find? fun c => (t.slot c).type = .heap).isSome :=
      find?_isSome.mpr ⟨c, hc, by simpa [hslot] using htype⟩
    obtain ⟨c', hc'⟩ := Option.isSome_iff_exists.mp hsome
    have hmem' := mem_of_find?_eq_some hc'
    refine ⟨c', hc', hmem', ?_⟩
    change (if c' ∈ copies then markCow (t.slot c') else t.slot c').type = .heap
    rw [if_pos hmem']
    simpa [markCow] using find?_some hc'
  · change (if c ∈ copies then markCow (t.slot c) else t.slot c).type = .heap at htype
    change (if c ∈ copies then markCow (t.slot c) else t.slot c).start ≤
      (if c ∈ copies then markCow (t.slot c) else t.slot c).fin ∧
      (if c ∈ copies then markCow (t.slot c) else t.slot c).fin ≤ 2 ^ 39
    rw [if_pos hc] at htype ⊢
    obtain ⟨i, hi, heq⟩ := horig hc
    rw [← heq] at htype ⊢
    exact hs.range i hi htype

theorem HasBreak.forkParent (hs : s.HasBreak) : s.forkParent.HasBreak := by
  have hslot (i : ℕ) (hi : i ∈ s.list) : s.forkParent.slot i = markCow (s.slot i) := if_pos hi
  obtain ⟨h, hh, hmem, htype⟩ := hs.pointer
  refine ⟨hs.nodup, ⟨h, hh, hmem, by rw [hslot h hmem]; exact htype⟩, fun i hi hi' => ?_⟩
  rw [hslot i hi] at hi' ⊢
  exact hs.range i hi hi'

/-! ## Runs -/

/-- The calls, with the structs the slab has for them. After `fork` a run goes on in the
parent or in the child. -/
inductive BreakCall
  | sbrk (incr : ℤ)
  | mmap (ofile : ℕ → Option OpenFile) (alloc : Option ℕ) (a : MmapArgs)
  | munmap (alloc : Option ℕ) (addr len : ℕ)
  | forkParent
  | forkChild (places : List ℕ)

def breakStep (s : Space) : BreakCall → Space → Prop
  | .sbrk incr, s' => (s.sbrk incr).2 = s'
  | .mmap ofile alloc a, s' => (s.mmap ofile alloc a).2 = s'
  | .munmap alloc addr len, s' => (s.munmap alloc addr len).2 = s'
  | .forkParent, s' => s.forkParent = s'
  | .forkChild places, s' => s.forkChild places = some s'

/-- The slab gives structs that are not in use; arguments are of 64 bits; `sbrk` does not
wrap, `munmap` does not take the whole heap VMA, and both keep out of the kernel's entries. -/
def BreakCareful (s : Space) : BreakCall → Prop
  | .sbrk incr => incr < 2 ^ 63 ∧ s.NoWrap incr ∧ s.OwnHeap incr
  | .mmap _ alloc _ => ∀ r, alloc = some r → r ∉ s.list
  | .munmap alloc addr len =>
    len < 2 ^ 64 ∧ (∀ r, alloc = some r → r ∉ s.list) ∧ s.SparesHeap addr len ∧
    (addr + wholePages len ≤ IDENTITY_START ∨ IDENTITY_END ≤ addr)
  | .forkParent => True
  | .forkChild places => places.Nodup ∧ ∀ c ∈ places, c ∉ s.list

/-- The pointer stays in the list, and `sbrk` is exact. -/
theorem break_exact_of_careful (s₀ s : Space) (hs : s₀.HasBreak)
    (hrun : Reaches breakStep BreakCareful s₀ s) :
    (∃ h, s.heap = some h ∧ h ∈ s.list ∧ (s.slot h).type = .heap) ∧
      ∀ incr : ℤ, -2 ^ 63 ≤ incr → incr < 2 ^ 63 → s.NoWrap incr → s.OwnHeap incr →
        s.SbrkExact incr := by
  have hinv : s.HasBreak := by
    refine hrun.invariant (I := HasBreak) hs fun t c u ht hok hstep => ?_
    cases c with
    | sbrk incr => exact hstep ▸ ht.sbrk hok.1 hok.2.1
    | mmap ofile alloc a => exact hstep ▸ ht.mmap hok
    | munmap alloc addr len => exact hstep ▸ ht.munmap hok.1 hok.2.1 hok.2.2.1
    | forkParent => exact hstep ▸ ht.forkParent
    | forkChild places => exact ht.forkChild hok.1 hok.2 hstep
  exact ⟨hinv.pointer, fun incr _ hincr hwrap _ => sbrk_exact hinv hincr hwrap⟩

/-- A process as `exec` leaves it: a page of text, the empty heap and a page of stack. -/
def fresh : Space where
  slot := fun i =>
    match i with
    | 0 =>
      ⟨USER_TEXT_BASE, USER_TEXT_BASE + PAGE_SIZE, ⟨true, false, true⟩, .anon, false,
        false, none, 0⟩
    | 1 =>
      ⟨USER_TEXT_BASE + PAGE_SIZE, USER_TEXT_BASE + PAGE_SIZE, ⟨true, true, false⟩, .heap, false,
        false, none, 0⟩
    | _ =>
      ⟨USER_STACK_TOP - PAGE_SIZE, USER_STACK_TOP, ⟨true, true, false⟩, .stack, false,
        false, none, 0⟩
  list := [0, 1, 2]
  heap := some 1
  stackMax := 0x800000
  pte := fun _ => none
  refcnt := fun _ => 0

theorem fresh_hasBreak : fresh.HasBreak := ⟨by decide, ⟨1, by decide⟩, by decide⟩

/-- The heap grows by two pages, the page of text is unmapped, and in the child of a `fork` the heap
shrinks by one page and 50 bytes. -/
theorem break_exact_after_growth : ∃ s, Reaches breakStep BreakCareful fresh s ∧
    s.heap = some 3 ∧ s.SbrkExact (-4146) := by
  have hsbrk : BreakCareful fresh (.sbrk 8192) := by
    refine ⟨by decide, fun h hh => ?_, fun h hh => ?_⟩ <;> cases hh <;> decide
  have hunmap : BreakCareful (fresh.sbrk 8192).2 (.munmap none USER_TEXT_BASE 100) :=
    ⟨by decide, nofun, fun h hh => by cases hh; decide, by decide⟩
  obtain ⟨s, hfork, hheap⟩ :
    ∃ s, ((fresh.sbrk 8192).2.munmap none USER_TEXT_BASE 100).2.forkChild [3, 4] =
      some s ∧ s.heap = some 3 := ⟨_, rfl, rfl⟩
  have hrun : Reaches breakStep BreakCareful fresh s :=
    ((Reaches.single hsbrk rfl).tail hunmap rfl).tail (a := .forkChild [3, 4]) ⟨by decide, by
    decide⟩ hfork
  refine ⟨s, hrun, hheap, (break_exact_of_careful fresh s fresh_hasBreak hrun).2 (-4146) (by decide)
    (by decide) (fun h hh => ?_) fun h hh => ?_⟩
  all_goals
    cases hh.symm.trans hheap
    cases hfork
    decide

/-- After the whole heap is unmapped the pointer is to a VMA that is not in the list, and an
increment of -2^63 moves the break up. -/
theorem break_lost_and_wrapped :
    (∃ s, s = ((fresh.sbrk PAGE_SIZE).2.munmap none (USER_TEXT_BASE + PAGE_SIZE) PAGE_SIZE).2 ∧
    s.heap = some 1 ∧ 1 ∉ s.list) ∧
      (fresh.sbrk (-2 ^ 63)).1 = (USER_TEXT_BASE + PAGE_SIZE : ℕ) ∧
      ((fresh.sbrk (-2 ^ 63)).2.slot 1).fin = 2 ^ 63 + (USER_TEXT_BASE + PAGE_SIZE) ∧
        ¬ fresh.SbrkExact (-2 ^ 63) := by
  have hret : (fresh.sbrk (-2 ^ 63)).1 = (USER_TEXT_BASE + PAGE_SIZE : ℕ) := by decide +kernel
  have hfin : ((fresh.sbrk (-2 ^ 63)).2.slot 1).fin = 2 ^ 63 + (USER_TEXT_BASE + PAGE_SIZE) := by
    decide +kernel
  refine ⟨⟨_, rfl, by decide +kernel, by decide +kernel⟩, hret, hfin, ?_⟩
  rintro (⟨hneg, -⟩ | ⟨h, hh, -, hmove⟩)
  · rw [hret] at hneg
    omega
  · cases hh
    have := hmove.fin
    rw [hfin] at this
    revert this
    decide

end Space

end Sbunix.Vm
