import Sbunix.Exec.Confined

/-!
# The image that is loaded

What the page table and the VMAs hold after a load without an allocation failure: the bytes
of each segment, zeros around them, and one VMA for each.
-/

namespace Sbunix.Exec

open List

/-- A segment in the user part, no longer in the file than in memory. -/
def Phdr.Proper (ph : Phdr) : Prop :=
  USER_TEXT_BASE ≤ ph.vaddr ∧ ph.vaddr + ph.memsz ≤ USER_STACK_TOP ∧ ph.filesz ≤ ph.memsz

instance (ph : Phdr) : Decidable ph.Proper := by
  unfold Phdr.Proper
  infer_instance

/-- What memory should hold at an address of a segment's pages. -/
def Phdr.byteAt (ph : Phdr) (f : File) (va : ℕ) : UInt8 :=
  if ph.vaddr ≤ va ∧ va < ph.vaddr + ph.filesz then
    f.content.getD ((ph.offset + (va - ph.vaddr)) % U64) 0
  else 0

/-- `e` is right for page `k` of the segment. -/
structure Phdr.Page (ph : Phdr) (f : File) (k : ℕ) (e : Leaf) : Prop where
  low : ph.vaStart ≤ k * PAGE_SIZE
  high : k * PAGE_SIZE < ph.vaEnd
  perm : e.perm = ph.perm
  byte : ∀ j < PAGE_SIZE, e.byte j = ph.byteAt f (k * PAGE_SIZE + j)

/-- The image of a list of segments. -/
structure Image.Correct (f : File) (segs : List Phdr) (img : Image) : Prop where
  /-- A mapped page lies in one VMA, that of a segment with its flags, and holds its bytes. -/
  mapped : ∀ k e, (k, e) ∈ img.space.leaf →
    (∃! v, v ∈ img.vmas ∧ v.start ≤ k * PAGE_SIZE ∧ k * PAGE_SIZE < v.fin) ∧
      ∃ ph ∈ segs, ph.vma ∈ img.vmas ∧ ph.Page f k e
  /-- Every page of a segment is mapped, once. -/
  loaded : ∀ ph ∈ segs, ∀ k, ph.vaStart ≤ k * PAGE_SIZE → k * PAGE_SIZE < ph.vaEnd →
    ∃ e, (k, e) ∈ img.space.leaf ∧ ph.Page f k e
  once : (img.space.leaf.map Prod.fst).Nodup
  sorted : img.vmas.Pairwise fun v w => v.fin ≤ w.start
  vmas : img.vmas.Perm (segs.map Phdr.vma)
  brk : img.brk = (segs.map Phdr.vaEnd).foldl max 0

/-! ## Pages -/

variable {n : ℕ} {f : File} {ph : Phdr} {l vlist : List Vma} {s : Space} {segs : List Phdr}
  {img : Image}

theorem getD_of_prefix {l l' : List UInt8} {off i : ℕ} (h : l <+: (l'.drop off).take n)
    (hi : i < l.length) : l.getD i 0 = l'.getD (off + i) 0 ∧ off + i < l'.length := by
  obtain ⟨t, ht⟩ := h.trans (List.take_prefix _ _)
  have hlen : off + i < l'.length := by
    have := congrArg List.length ht
    simp only [length_append, length_drop] at this
    omega
  refine ⟨?_, hlen⟩
  rw [getD_eq_getElem?_getD, getD_eq_getElem?_getD, ← getElem?_drop, ← ht, getElem?_append_left hi]

theorem wrap_add {off vaddr a b : ℕ} (ha : vaddr ≤ a) (hb : a ≤ b)
    (h : (off + (a - vaddr)) % U64 + (b - a) ≤ 2 ^ 63) :
    (off + (a - vaddr)) % U64 + (b - a) = (off + (b - vaddr)) % U64 := by
  simp only [U64] at *
  omega

theorem fillPage_byteAt {va : ℕ} {byte : ℕ → UInt8} (hp : ph.Proper)
    (hhigh : va < ph.vaEnd) (hal : va % PAGE_SIZE = 0)
    (h : fillPage f ph va = .ok byte) : ∀ j < PAGE_SIZE, byte j = ph.byteAt f (va + j) := by
  obtain ⟨_, htop, hsize⟩ := hp
  rw [(ph.bounds htop).2] at hhigh
  have hpageEnd : (va + PAGE_SIZE) % U64 = va + PAGE_SIZE := by
    simp only [PAGE_SIZE, U64, USER_STACK_TOP] at *
    omega
  have hfileEnd : (ph.vaddr + ph.filesz) % U64 = ph.vaddr + ph.filesz := by
    simp only [U64, USER_STACK_TOP] at *
    omega
  intro j hj
  simp only [fillPage, hpageEnd, hfileEnd] at h
  set copyStart := if va < ph.vaddr then ph.vaddr else va with hcs
  set copyEnd := if ph.vaddr + ph.filesz < va + PAGE_SIZE then ph.vaddr + ph.filesz
    else va + PAGE_SIZE with hce
  have hinfile : copyStart ≤ va + j ∧ va + j < copyEnd ↔
      ph.vaddr ≤ va + j ∧ va + j < ph.vaddr + ph.filesz := by
    grind
  split at h
  · next hcopy =>
    have hzero : (if ph.vaddr + ph.filesz < va + PAGE_SIZE then
        if va < ph.vaddr + ph.filesz then ph.vaddr + ph.filesz else va
        else va + PAGE_SIZE) = copyEnd := by
      grind
    rw [hzero] at h
    split at h
    · cases h
    next bs hread =>
    split at h
    · next hlen =>
      cases h
      simp only [Phdr.byteAt, ← hinfile]
      split
      · next hin =>
        have hpart : copyEnd - copyStart ≤ PAGE_SIZE := by grind
        obtain ⟨hbyte, hbound⟩ := getD_of_prefix (File.read_content hpart hread)
          (show va + j - copyStart < bs.length by omega)
        have hcs' : ph.vaddr ≤ copyStart := by grind
        have hindex := wrap_add hcs' hin.1 (hbound.le.trans f.small)
        rw [hbyte, hindex]
      · rfl
    · cases h
  · next hcopy =>
    cases h
    have hout : ¬ (copyStart ≤ va + j ∧ va + j < copyEnd) := by omega
    rw [Phdr.byteAt, if_neg (by rwa [← hinfile])]

/-! ## Mapping -/

variable {s' : Space} {va t : ℕ}

theorem pageAlloc_keeps (h : s.pageAlloc = some (t, s')) :
    s'.leaf = s.leaf ∧ s'.short = s.short := by
  unfold Space.pageAlloc at h
  split at h
  · cases h
  · cases h
    exact ⟨rfl, rfl⟩

theorem table1_keeps (h : s.table1 va = some (t, s')) : s'.leaf = s.leaf ∧ s'.short = s.short := by
  unfold Space.table1 at h
  split at h
  · cases h
    exact ⟨rfl, rfl⟩
  · split at h
    · cases h
    · next ha =>
      cases h
      have := pageAlloc_keeps ha
      exact this

theorem table0_keeps {t1 : ℕ} (h : s.table0 t1 va = some (t, s')) :
    s'.leaf = s.leaf ∧ s'.short = s.short := by
  unfold Space.table0 at h
  split at h
  · cases h
    exact ⟨rfl, rfl⟩
  · split at h
    · cases h
    · next ha =>
      cases h
      have := pageAlloc_keeps ha
      exact this

theorem vmaAlloc_keeps (h : s.vmaAlloc = some s') : s'.leaf = s.leaf ∧ s'.short = s.short := by
  unfold Space.vmaAlloc at h
  split at h
  · cases h
    exact ⟨rfl, rfl⟩
  · split at h
    · cases h
    · next ha =>
      cases h
      have := pageAlloc_keeps ha
      exact this

theorem vmemMap_leaf {p : Leaf} (h : (s.vmemMap va p).short = false) : s.short = false ∧
    (s.vmemMap va p).leaf = (vpn va, p) :: s.leaf.filter (·.1 ≠ vpn va) := by
  unfold Space.vmemMap at h ⊢
  split at h
  · cases h
  next t1 s₁ ht1 =>
  split at h
  · cases h
  next t0 s₂ ht0 =>
  obtain ⟨hleaf₁, hshort₁⟩ := table1_keeps ht1
  obtain ⟨hleaf₂, hshort₂⟩ := table0_keeps ht0
  exact ⟨hshort₁ ▸ hshort₂ ▸ h, by rw [hleaf₂, hleaf₁]⟩

/-- Page `k` is one of the `n` pages from `va` on. -/
def Among (va n k : ℕ) : Prop := va ≤ k * PAGE_SIZE ∧ k * PAGE_SIZE < va + n * PAGE_SIZE

/-- The page table after the `n` pages from `va` on were mapped, each filled by `fill`. -/
structure Filled (fill : ℕ → Except ℤ (ℕ → UInt8)) (perm : Perm) (n va : ℕ) (s s' : Space) :
    Prop where
  short : s.short = false
  new : ∀ k e, (k, e) ∈ s'.leaf →
    Among va n k ∧ fill (k * PAGE_SIZE) = .ok e.byte ∧ e.perm = perm ∨ (k, e) ∈ s.leaf ∧
      ¬ Among va n k
  old : ∀ k e, (k, e) ∈ s.leaf → ¬ Among va n k → (k, e) ∈ s'.leaf
  all : ∀ k, Among va n k → ∃ e, (k, e) ∈ s'.leaf
  once : (s.leaf.map Prod.fst).Nodup → (s'.leaf.map Prod.fst).Nodup

theorem among_succ {k : ℕ} (hal : va % PAGE_SIZE = 0) :
    Among va (n + 1) k ↔ k = va / PAGE_SIZE ∨ Among (va + PAGE_SIZE) n k := by
  simp only [Among, PAGE_SIZE] at *
  omega

theorem not_among_head (hal : va % PAGE_SIZE = 0) :
    ¬ Among (va + PAGE_SIZE) n (va / PAGE_SIZE) := by
  simp only [Among, PAGE_SIZE] at *
  omega

theorem loadPages_filled {fill : ℕ → Except ℤ (ℕ → UInt8)} {perm : Perm}
    (hal : va % PAGE_SIZE = 0) (htop : va + n * PAGE_SIZE ≤ 2 ^ 39) (hs' : s'.short = false)
    (h : loadPages fill perm n va s = .ok s') : Filled fill perm n va s s' := by
  induction n generalizing va s with
  | zero =>
    cases h
    have hnone : ∀ k, ¬ Among va 0 k := fun k hk => by
      simp only [Among] at hk
      omega
    exact ⟨hs', fun k e he => .inr ⟨he, hnone k⟩, fun k e he _ => he,
      fun k hk => absurd hk (hnone k), id⟩
  | succ n ih =>
    rw [loadPages] at h
    split at h
    · cases h
    next p s₁ ha =>
    split at h
    · cases h
    next byte hfill =>
    obtain ⟨hleaf₁, hshort₁⟩ := pageAlloc_keeps ha
    have hrest := ih (by simp only [PAGE_SIZE] at *; omega) (by simp only [PAGE_SIZE] at *; omega) h
    obtain ⟨hshort, hleaf⟩ := vmemMap_leaf hrest.short
    have hpage : vpn va = va / PAGE_SIZE ∧ va / PAGE_SIZE * PAGE_SIZE = va := by
      simp only [vpn, PAGE_SIZE] at *
      omega
    rw [hpage.1, hleaf₁] at hleaf
    refine ⟨hshort₁ ▸ hshort, fun k e he => ?_, fun k e he hk => ?_, fun k hk => ?_, fun hs => ?_⟩
    · rw [among_succ hal]
      rcases hrest.new k e he with ⟨hk, hgood⟩ | ⟨hmem, hk⟩
      · exact .inl ⟨.inr hk, hgood⟩
      rw [hleaf] at hmem
      rcases mem_cons.mp hmem with heq | hmem
      · cases heq
        exact .inl ⟨.inl rfl, by rw [hpage.2, hfill], rfl⟩
      · obtain ⟨hmem, hne⟩ := mem_filter.mp hmem
        exact .inr ⟨hmem, by simpa [hk] using hne⟩
    · rw [among_succ hal, not_or] at hk
      refine hrest.old k e ?_ hk.2
      rw [hleaf]
      exact mem_cons_of_mem _ (mem_filter.mpr ⟨he, by simpa using hk.1⟩)
    · rcases (among_succ hal).mp hk with rfl | hk
      · refine ⟨_, hrest.old _ ⟨p, byte, perm⟩ ?_ (not_among_head hal)⟩
        rw [hleaf]
        exact mem_cons_self
      · exact hrest.all k hk
    · refine hrest.once ?_
      rw [hleaf, map_cons, nodup_cons]
      refine ⟨fun hmem => ?_, (hs.sublist (filter_sublist.map _))⟩
      obtain ⟨e, he, hk⟩ := mem_map.mp hmem
      simpa [hk] using (mem_filter.mp he).2

/-! ## VMAs -/

def Vma.Apart (v w : Vma) : Prop := v.fin ≤ w.start ∨ w.fin ≤ v.start

instance : Std.Symm Vma.Apart := ⟨fun _ _ h => h.symm⟩

theorem vmaInsert_sorted {v : Vma} {prev : Option Vma} {l' : List Vma}
    (hl : (prev.toList ++ l).Pairwise fun v w => v.fin ≤ w.start) (hne : ∀ w ∈ l, w.start ≤ w.fin)
    (h : vmaInsert v prev l = some l') :
    l'.Perm (v :: l) ∧ (prev.toList ++ l').Pairwise fun v w => v.fin ≤ w.start := by
  induction l generalizing prev l' with
  | nil =>
    rw [vmaInsert] at h
    split at h
    · cases h
    · next hprev =>
      cases h
      refine ⟨.refl _, ?_⟩
      cases prev with
      | none => simp
      | some w => simpa using hprev
  | cons x l ih =>
    rw [vmaInsert] at h
    have hxl : (x :: l).Pairwise fun v w => v.fin ≤ w.start := (pairwise_append.mp hl).2.1
    split at h
    · next hlt =>
      obtain ⟨l₁, hl₁, rfl⟩ := Option.map_eq_some_iff.mp h
      obtain ⟨hperm, hsorted⟩ := ih (show ((some x).toList ++ l).Pairwise _ from hxl)
        (fun w hw => hne w (mem_cons_of_mem x hw)) hl₁
      refine ⟨(hperm.cons x).trans (.swap v x l), pairwise_append.mpr
        ⟨(pairwise_append.mp hl).1, hsorted, fun w hw y hy => ?_⟩⟩
      have hwl := fun y hy => (pairwise_append.mp hl).2.2 w hw y hy
      have hwx := hwl x mem_cons_self
      have hxx := hne x mem_cons_self
      rcases mem_cons.mp hy with rfl | hy
      · exact hwx
      · rcases mem_cons.mp (hperm.mem_iff.mp hy) with rfl | hy
        · omega
        · exact hwl y (mem_cons_of_mem x hy)
    · split at h
      · cases h
      · next hge hok =>
        cases h
        rw [not_or] at hok
        refine ⟨.refl _, pairwise_append.mpr ⟨(pairwise_append.mp hl).1,
          pairwise_cons.mpr ⟨fun y hy => ?_, hxl⟩, fun w hw y hy => ?_⟩⟩
        · have hxx := hne x mem_cons_self
          rcases mem_cons.mp hy with rfl | hy
          · omega
          · have := (pairwise_cons.mp hxl).1 y hy
            omega
        · rcases mem_cons.mp hy with rfl | hy
          · obtain rfl : prev = some w := by simpa using hw
            simpa using hok.2
          · exact (pairwise_append.mp hl).2.2 w hw y hy

theorem eq_of_sorted (hl : l.Pairwise fun v w => v.fin ≤ w.start) {v w : Vma}
    (hv : v ∈ l) (hw : w ∈ l) {a : ℕ} (hva : v.start ≤ a ∧ a < v.fin) (hwa : w.start ≤ a ∧
    a < w.fin) :
    v = w := by
  by_contra hne
  have hapart : l.Pairwise Vma.Apart := hl.imp .inl
  rcases hapart.forall hv hw hne with h | h <;> omega

/-! ## The whole load -/

/-- What holds after some of the segments were loaded. -/
structure Loaded (f : File) (segs : List Phdr) (img : Image) : Prop where
  owner : ∀ k e, (k, e) ∈ img.space.leaf → ∃ ph ∈ segs, ph.Page f k e
  loaded : ∀ ph ∈ segs, ∀ k, ph.vaStart ≤ k * PAGE_SIZE → k * PAGE_SIZE < ph.vaEnd →
    ∃ e, (k, e) ∈ img.space.leaf ∧ ph.Page f k e
  once : (img.space.leaf.map Prod.fst).Nodup
  sorted : img.vmas.Pairwise fun v w => v.fin ≤ w.start
  vmas : img.vmas.Perm (segs.map Phdr.vma)
  highest : img.highest = (segs.map Phdr.vaEnd).foldl max 0
  top : img.highest % PAGE_SIZE = 0 ∧ img.highest ≤ USER_STACK_TOP

theorem Phdr.Proper.among (h : ph.Proper) (hload : ph.loadable = true) (k : ℕ) :
    Among ph.vaStart ((ph.vaEnd - ph.vaStart) / PAGE_SIZE) k ↔
      ph.vaStart ≤ k * PAGE_SIZE ∧ k * PAGE_SIZE < ph.vaEnd := by
  obtain ⟨hlt, _, _⟩ := ph.user h.1 h.2.1 hload
  obtain ⟨hstart, hend⟩ := ph.bounds h.2.1
  simp only [vma] at hlt
  simp only [Among, PAGE_SIZE] at *
  omega

theorem loadSegment_filled {s' : Space} {vlist' : List Vma}
    (hp : ph.Proper) (hload : ph.loadable = true) (hshort : s'.short = false)
    (h : loadSegment f ph s vlist = .ok (s', vlist')) :
    (∃ s₁, s'.leaf = s₁.leaf ∧
      Filled (fillPage f ph) ph.perm ((ph.vaEnd - ph.vaStart) / PAGE_SIZE) ph.vaStart s s₁) ∧
      vmaInsert ph.vma none vlist = some vlist' := by
  unfold loadSegment at h
  split at h
  · cases h
  next s₁ hpages =>
  split at h
  · cases h
  next s₂ hvma =>
  split at h
  · cases h
  next hinsert =>
  cases h
  obtain ⟨hleaf, hshort₂⟩ := vmaAlloc_keeps hvma
  obtain ⟨hlt, _, htop⟩ := ph.user hp.1 hp.2.1 hload
  refine ⟨⟨s₁, hleaf, loadPages_filled ?_ ?_ (hshort₂ ▸ hshort) hpages⟩, hinsert⟩
  · exact Nat.mul_mod_left _ _
  · simp only [Phdr.vma, USER_STACK_TOP, PAGE_SIZE] at *
    omega

theorem Loaded.step (hsegs : ∀ p ∈ segs, p.Proper ∧ p.loadable = true) (hp : ph.Proper)
    (hload : ph.loadable = true) (h : Loaded f segs img)
    (hseg : loadSegment f ph img.space img.vmas = .ok (s, vlist)) (hshort : s.short = false) :
    Loaded f (segs ++ [ph])
      ⟨s, vlist, if img.highest < ph.vaEnd then ph.vaEnd else img.highest⟩ := by
  obtain ⟨⟨s₁, hleaf, hfilled⟩, hinsert⟩ := loadSegment_filled hp hload hshort hseg
  obtain ⟨_, _, htop⟩ := ph.user hp.1 hp.2.1 hload
  obtain ⟨hstart, hend⟩ := ph.bounds hp.2.1
  have huser : ∀ w ∈ img.vmas, ∃ p ∈ segs, p.vma = w := fun w hw => by
    simpa using h.vmas.mem_iff.mp hw
  obtain ⟨hperm, hsorted⟩ :=
    vmaInsert_sorted (show (none.toList ++ img.vmas).Pairwise _ from h.sorted)
    (fun w hw => by
      obtain ⟨p, hps, rfl⟩ := huser w hw
      obtain ⟨hproper, hpload⟩ := hsegs p hps
      exact (p.user hproper.1 hproper.2.1 hpload).1.le) hinsert
  rw [Option.toList_none, nil_append] at hsorted
  -- no page of an earlier segment is mapped again
  have hold : ∀ p ∈ segs, ∀ k, p.vaStart ≤ k * PAGE_SIZE ∧ k * PAGE_SIZE < p.vaEnd →
      ¬ Among ph.vaStart ((ph.vaEnd - ph.vaStart) / PAGE_SIZE) k := by
    intro p hps k hk hnew
    rw [hp.among hload] at hnew
    have hapart : (ph.vma :: img.vmas).Pairwise Vma.Apart :=
      (hperm.pairwise_iff fun h => h.symm).mp (hsorted.imp .inl)
    have hmem : p.vma ∈ img.vmas := h.vmas.mem_iff.mpr (mem_map_of_mem hps)
    rcases (pairwise_cons.mp hapart).1 _ hmem with hap | hap <;>
      simp only [Phdr.vma] at hap <;> omega
  have hnew : ∀ k e, (k, e) ∈ s₁.leaf → ph.Page f k e ∨ (k, e) ∈ img.space.leaf ∧
      ¬ Among ph.vaStart ((ph.vaEnd - ph.vaStart) / PAGE_SIZE) k := fun k e he => by
    refine (hfilled.new k e he).imp_left fun h => ?_
    obtain ⟨hk, hfill, hperm'⟩ := h
    rw [hp.among hload] at hk
    exact ⟨hk.1, hk.2, hperm', fillPage_byteAt hp hk.2 (Nat.mul_mod_left _ _) hfill⟩
  refine ⟨fun k e he => ?_, fun p hps k hlow hhigh => ?_, ?_, hsorted, ?_, ?_, ?_⟩
  · rw [hleaf] at he
    rcases hnew k e he with hpage | ⟨hmem, _⟩
    · exact ⟨ph, by simp, hpage⟩
    · obtain ⟨p, hps, hpage⟩ := h.owner k e hmem
      exact ⟨p, mem_append_left _ hps, hpage⟩
  · rw [hleaf]
    rcases mem_append.mp hps with hps | hps
    · obtain ⟨e, he, hpage⟩ := h.loaded p hps k hlow hhigh
      exact ⟨e, hfilled.old k e he (hold p hps k ⟨hlow, hhigh⟩), hpage⟩
    · obtain rfl := mem_singleton.mp hps
      have hk := (hp.among hload k).mpr ⟨hlow, hhigh⟩
      obtain ⟨e, he⟩ := hfilled.all k hk
      exact ⟨e, he, (hnew k e he).resolve_right fun hno => hno.2 hk⟩
  · rw [hleaf]
    exact hfilled.once h.once
  · rw [map_append]
    exact hperm.trans ((h.vmas.cons _).trans (perm_append_singleton _ _).symm)
  · rw [map_append, foldl_append, ← h.highest]
    simp only [map_cons, map_nil, foldl_cons, foldl_nil]
    split <;> omega
  · have := h.top
    simp only [Phdr.vma] at htop
    simp only [PAGE_SIZE] at *
    split <;> omega

theorem Loaded.correct (h : Loaded f segs img) : img.Correct f segs := by
  have hvma : ∀ ph ∈ segs, ph.vma ∈ img.vmas := fun ph hph =>
    h.vmas.mem_iff.mpr (mem_map_of_mem hph)
  refine ⟨fun k e he => ?_, h.loaded, h.once, h.sorted, h.vmas, ?_⟩
  · obtain ⟨ph, hph, hpage⟩ := h.owner k e he
    have hin : ph.vma.start ≤ k * PAGE_SIZE ∧ k * PAGE_SIZE < ph.vma.fin := ⟨hpage.low, hpage.high⟩
    exact ⟨⟨ph.vma, ⟨hvma ph hph, hin⟩,
      fun w hw => eq_of_sorted h.sorted hw.1 (hvma ph hph) hw.2 hin⟩,
      ph, hph, hvma ph hph, hpage⟩
  · have := h.top
    rw [← h.highest]
    simp only [Image.brk, PAGE_SIZE, U64, USER_STACK_TOP] at *
    omega

/-- The image of every load without an allocation failure is right. -/
theorem image_correct (f : File) (s : Space) (hs : s.Fresh) (hsegs : ∀ ph ∈ f.segments, ph.Proper)
    (img : Image) (h : loadUserElf f s = .ok img) (hshort : img.space.short = false) :
    img.Correct f f.segments := by
  have hrun := loadLoop_induction
    (P := fun segs img => (∀ ph ∈ segs, ph.Proper) → img.space.short = false →
      (∀ ph ∈ segs, ph.loadable = true) ∧ Loaded f segs img) ?_ ?_ h
  · exact (hrun hsegs hshort).2.correct
  · intro segs img₀ ph s₁ vlist ih hload hseg hall hshort₁
    simp only [mem_append, mem_singleton] at hall
    have hp := hall ph (.inr rfl)
    obtain ⟨⟨_, _, hfilled⟩, _⟩ := loadSegment_filled hp hload hshort₁ hseg
    obtain ⟨hloads, hloaded⟩ := ih (fun p hps => hall p (.inl hps)) hfilled.short
    refine ⟨fun p hps => ?_, hloaded.step (fun p hps => ⟨hall p (.inl hps), hloads p hps⟩) hp hload
      hseg hshort₁⟩
    rcases mem_append.mp hps with hps | hps
    · exact hloads p hps
    · rwa [mem_singleton.mp hps]
  · intro _ _
    refine ⟨by simp, ?_, ?_, ?_, .nil, .refl _, rfl, rfl, Nat.zero_le _⟩ <;> simp [hs.leaf]

theorem image_correct_two_segments : ∃ img, loadUserElf twoSegments newSpace = .ok img ∧
    img.space.leaf.map (fun e => (e.1, e.2.byte 0)) = [(3, 6), (2, 0), (1, 1)] ∧
    img.Correct twoSegments twoSegments.segments := by
  obtain ⟨img, hl, hP⟩ := exists_of_loads (f := twoSegments) (s := newSpace)
    (P := fun img => img.space.leaf.map (fun e => (e.1, e.2.byte 0)) = [(3, 6), (2, 0), (1, 1)] ∧
      img.space.short = false) (by decide +kernel)
  obtain ⟨hbytes, hshort⟩ := of_decide_eq_true hP
  exact ⟨img, hl, hbytes, image_correct twoSegments newSpace newSpace_fresh
    (by decide +kernel) img hl
    hshort⟩

end Sbunix.Exec
