import Sbunix.Exec.Load

/-!
# Where a load can reach

The loader takes the addresses of a segment as they stand in the file. A load that is not
rejected keeps to the user part exactly if the page range of each segment does; and it stores
to new frames only exactly if no page was mapped through a table of the kernel.
-/

namespace Sbunix.Exec

open List

/-- A page-aligned address of the user part. -/
def UserPage (va : ℕ) : Prop :=
  USER_TEXT_BASE ≤ va ∧ va + PAGE_SIZE ≤ USER_STACK_TOP ∧ va % PAGE_SIZE = 0

def Vma.User (v : Vma) : Prop :=
  v.start < v.fin ∧ USER_TEXT_BASE ≤ v.start ∧ v.fin ≤ USER_STACK_TOP

instance (v : Vma) : Decidable v.User := by
  unfold Vma.User
  infer_instance

/-- Page `k` is translated by a table of the kernel. -/
def kernelPage (k : ℕ) : Bool := kernelRoot (k / 2 ^ 18)

/-- No page was mapped through a table of the kernel and every store went to a frame of `own`,
or one was mapped and a table of the kernel stored to. -/
inductive Space.Stores (own : ℕ → Prop) (s : Space) : Prop
  | clean (hleaf : ∀ e ∈ s.leaf, kernelPage e.1 = false) (hwritten : ∀ f ∈ s.written, own f)
      (hl0 : ∀ i t, (i, t) ∈ s.l0 → kernelRoot (i / 512) = true → ¬ own t)
  | kernel (hleaf : ∃ e ∈ s.leaf, kernelPage e.1 = true) (hwritten : ∃ f ∈ s.written, ¬ own f)

/-- A space whose frames are all the load's `own`, the kernel's tables apart. -/
structure Space.Owns (own : ℕ → Prop) (s : Space) : Prop where
  free : ∀ f ∈ s.free, own f
  root : own s.root
  identity : 2 ∈ s.l1.map Prod.fst
  l1 : ∀ i t, (i, t) ∈ s.l1 → (own t ↔ kernelRoot i = false)
  l0 : ∀ i t, (i, t) ∈ s.l0 → kernelRoot (i / 512) = false → own t
  leaf : ∀ e ∈ s.leaf, UserPage (e.1 * PAGE_SIZE)
  stores : s.Stores own

variable {l : List (ℕ × ℕ)}

theorem mem_of_lookup {k t : ℕ} (h : l.lookup k = some t) : (k, t) ∈ l := by
  obtain ⟨l₁, l₂, rfl, _⟩ := lookup_eq_some_iff.mp h
  simp

theorem lookup_of_key {k : ℕ} (h : k ∈ l.map Prod.fst) : ∃ t, l.lookup k = some t := by
  cases hl : l.lookup k with
  | some t => exact ⟨t, rfl⟩
  | none =>
    obtain ⟨e, he, rfl⟩ := mem_map.mp h
    exact absurd (lookup_eq_none_iff.mp hl e he) (by simp)

namespace Space.Owns

variable {own : ℕ → Prop} {s s' : Space} {va t : ℕ}

theorem cons_own {k : ℕ} {Q : ℕ → ℕ → Prop} (hk : Q k t) (h : ∀ i t, (i, t) ∈ l → Q i t) :
    ∀ i t', (i, t') ∈ (k, t) :: l → Q i t' := by
  rintro i t' (_ | ⟨_, hmem⟩)
  · exact hk
  · exact h i t' hmem

/-- A store to a frame of `own`. -/
theorem stores_own {f : ℕ} {w : List ℕ} (h : s.Stores own) (hf : own f) (hw : s'.written = f :: w)
    (hwritten : w = s.written) (hleaf : s'.leaf = s.leaf)
    (hl0 : ∀ i t, (i, t) ∈ s'.l0 → kernelRoot (i / 512) = true → (i, t) ∈ s.l0) :
    s'.Stores own := by
  subst hwritten
  cases h with
  | clean h1 h2 h3 =>
    refine .clean (by rwa [hleaf]) ?_ fun i t hit hk => h3 i t (hl0 i t hit hk) hk
    rw [hw]
    exact forall_mem_cons.mpr ⟨hf, h2⟩
  | kernel h1 h2 =>
    obtain ⟨g, hg, hown⟩ := h2
    refine .kernel (by rwa [hleaf]) ⟨g, ?_, hown⟩
    rw [hw]
    exact mem_cons_of_mem _ hg

theorem pageAlloc (h : s.Owns own) (ha : s.pageAlloc = some (t, s')) : s'.Owns own ∧ own t := by
  unfold Space.pageAlloc at ha
  cases hfree : s.free with
  | nil => simp [hfree] at ha
  | cons f free =>
    simp only [hfree, Option.some.injEq, Prod.mk.injEq] at ha
    obtain ⟨rfl, rfl⟩ := ha
    have hall : own f ∧ ∀ g ∈ free, own g := by simpa [hfree] using h.free
    exact ⟨⟨hall.2, h.root, h.identity, h.l1, h.l0, h.leaf,
      stores_own h.stores hall.1 rfl rfl rfl fun _ _ hit _ => hit⟩, hall.1⟩

theorem flags (h : s.Owns own) (short lost : Bool) (slab : ℕ) :
    { s with short := short, lost := lost, slab := slab }.Owns own :=
  ⟨h.free, h.root, h.identity, h.l1, h.l0, h.leaf, by
    cases h.stores with
    | clean h1 h2 h3 => exact .clean h1 h2 h3
    | kernel h1 h2 => exact .kernel h1 h2⟩

section

variable (h : s.Owns own)
include h

theorem table1 (hva : kernelRoot (rootIx va) = false)
    (ht : s.table1 va = some (t, s')) : s'.Owns own ∧ own t := by
  unfold Space.table1 at ht
  split at ht
  · next t' hlookup =>
    cases ht
    exact ⟨h, (h.l1 _ _ (mem_of_lookup hlookup)).mpr hva⟩
  · split at ht
    · cases ht
    · next t' s₁ ha =>
      cases ht
      obtain ⟨h₁, hown⟩ := h.pageAlloc ha
      exact ⟨⟨h₁.free, h₁.root, mem_cons_of_mem _ h₁.identity,
        cons_own (Q := fun i t => own t ↔ kernelRoot i = false) (iff_of_true hown hva) h₁.l1,
          h₁.l0, h₁.leaf,
        stores_own h₁.stores h₁.root rfl rfl rfl fun _ _ hit _ => hit⟩, hown⟩

theorem table0 {t1 : ℕ} (hva : kernelRoot (rootIx va) = false) (ht1 : own t1)
    (ht : s.table0 t1 va = some (t, s')) : s'.Owns own ∧ own t := by
  have hmid : midIx va / 512 = rootIx va := by
    simp only [midIx, rootIx]
    omega
  unfold Space.table0 at ht
  split at ht
  · next t' hlookup =>
    cases ht
    exact ⟨h, h.l0 _ _ (mem_of_lookup hlookup) (by rwa [hmid])⟩
  · split at ht
    · cases ht
    · next t' s₁ ha =>
      cases ht
      obtain ⟨h₁, hown⟩ := h.pageAlloc ha
      refine ⟨⟨h₁.free, h₁.root, h₁.identity, h₁.l1,
        cons_own (Q := fun i t => kernelRoot (i / 512) = false → own t) (fun _ => hown) h₁.l0,
          h₁.leaf,
        stores_own h₁.stores ht1 rfl rfl rfl fun i t hit hk => ?_⟩, hown⟩
      rcases mem_cons.mp hit with heq | hit
      · cases heq
        rw [hmid, hva] at hk
        cases hk
      · exact hit

/-- A page that a table of the kernel translates: it is not mapped, or a table of the kernel
is stored to. -/
theorem map_kernel (hva : UserPage va) (hk : kernelRoot (rootIx va) = true) (p : Leaf) :
    (s.vmemMap va p).Owns own := by
  have hroot : rootIx va = 2 := by
    obtain ⟨_, hle, _⟩ := hva
    simp only [kernelRoot, Bool.or_eq_true, beq_iff_eq, rootIx] at *
    simp only [PAGE_SIZE, USER_STACK_TOP] at hle
    omega
  have hmid : midIx va / 512 = rootIx va := by
    simp only [midIx, rootIx]
    omega
  have hpage : vpn va * PAGE_SIZE = va ∧ vpn va / 2 ^ 18 = rootIx va := by
    obtain ⟨_, hle, hal⟩ := hva
    simp only [vpn, rootIx, PAGE_SIZE, USER_STACK_TOP] at *
    omega
  obtain ⟨t1, ht1⟩ := lookup_of_key h.identity
  have hfar1 : ¬ own t1 := fun hown => by
    have := (h.l1 _ _ (mem_of_lookup ht1)).mp hown
    cases this
  have hleaf : ∀ l : List (ℕ × Leaf), (∀ e ∈ l, UserPage (e.1 * PAGE_SIZE)) →
      ∀ e ∈ (vpn va, p) :: l.filter (·.1 ≠ vpn va), UserPage (e.1 * PAGE_SIZE) := by
    intro l hl e he
    rcases mem_cons.mp he with rfl | he
    · rwa [hpage.1]
    · exact hl e (mem_filter.mp he).1
  have hkernel : kernelPage (vpn va) = true := by rw [kernelPage, hpage.2, hk]
  have htable : s.table1 va = some (t1, s) := by simp only [Space.table1, hroot, ht1]
  unfold Space.vmemMap
  simp only [htable]
  cases hl0 : s.l0.lookup (midIx va) with
  | some t0 =>
    simp only [Space.table0, hl0]
    refine ⟨h.free, h.root, h.identity, h.l1, h.l0, hleaf _ h.leaf,
      .kernel ⟨_, mem_cons_self, hkernel⟩ ?_⟩
    cases h.stores with
    | clean _ _ h3 =>
      exact ⟨t0, mem_cons_self, h3 _ _ (mem_of_lookup hl0) (by rw [hmid, hk])⟩
    | kernel _ h2 =>
      obtain ⟨f, hf, hown⟩ := h2
      exact ⟨f, mem_cons_of_mem _ hf, hown⟩
  | none =>
    cases ha : s.pageAlloc with
    | none =>
      simp only [Space.table0, hl0, ha]
      exact h.flags true true s.slab
    | some r =>
      obtain ⟨t0, s₁⟩ := r
      obtain ⟨h₁, hown⟩ := h.pageAlloc ha
      simp only [Space.table0, hl0, ha]
      exact ⟨h₁.free, h₁.root, h₁.identity, h₁.l1,
        cons_own (Q := fun i t => kernelRoot (i / 512) = false → own t) (fun _ => hown) h₁.l0,
        hleaf _ h₁.leaf, .kernel ⟨_, mem_cons_self, hkernel⟩
          ⟨t1, mem_cons_of_mem _ mem_cons_self, hfar1⟩⟩

theorem vmemMap (hva : UserPage va) (p : Leaf) : (s.vmemMap va p).Owns own := by
  cases hk : kernelRoot (rootIx va) with
  | true => exact h.map_kernel hva hk p
  | false =>
  unfold Space.vmemMap
  split
  · exact h.flags true true s.slab
  next t1 s₁ ht1 =>
  obtain ⟨h₁, hown₁⟩ := h.table1 hk ht1
  split
  · exact h₁.flags true true s₁.slab
  next t0 s₂ ht0 =>
  obtain ⟨h₂, hown₂⟩ := h₁.table0 hk hown₁ ht0
  have hpage : vpn va * PAGE_SIZE = va ∧ vpn va / 2 ^ 18 = rootIx va := by
    obtain ⟨_, hle, hal⟩ := hva
    simp only [vpn, rootIx, PAGE_SIZE, USER_STACK_TOP] at *
    omega
  refine ⟨h₂.free, h₂.root, h₂.identity, h₂.l1, h₂.l0, ?_, ?_⟩
  · intro e he
    rcases mem_cons.mp he with rfl | he
    · rwa [hpage.1]
    · exact h₂.leaf e (mem_filter.mp he).1
  cases h₂.stores with
  | clean h1 h2 h3 =>
    refine .clean (fun e he => ?_) (forall_mem_cons.mpr ⟨hown₂, h2⟩) h3
    rcases mem_cons.mp he with rfl | he
    · rw [kernelPage, hpage.2, hk]
    · exact h1 e (mem_filter.mp he).1
  | kernel h1 h2 =>
    obtain ⟨e, he, hek⟩ := h1
    obtain ⟨f, hf, hown⟩ := h2
    refine .kernel ⟨e, mem_cons_of_mem _ (mem_filter.mpr ⟨he, ?_⟩), hek⟩
      ⟨f, mem_cons_of_mem _ hf, hown⟩
    refine decide_eq_true fun heq => ?_
    rw [heq, kernelPage, hpage.2, hk] at hek
    cases hek

theorem loadPages {fill : ℕ → Except ℤ (ℕ → UInt8)} {perm : Perm} {n : ℕ}
    (hpages : ∀ i < n, UserPage (va + i * PAGE_SIZE)) (hl : loadPages fill perm n va s = .ok s') :
    s'.Owns own := by
  induction n generalizing va s with
  | zero =>
    cases hl
    exact h
  | succ n ih =>
    rw [Exec.loadPages] at hl
    split at hl
    · cases hl
    next p s₁ ha =>
    split at hl
    · cases hl
    next byte hfill =>
    have hhead : UserPage va := by simpa using hpages 0 (Nat.succ_pos n)
    have hrest : ∀ i < n, UserPage (va + PAGE_SIZE + i * PAGE_SIZE) := fun i hi => by
      have := hpages (i + 1) (Nat.succ_lt_succ hi)
      rwa [Nat.add_mul, Nat.one_mul, Nat.add_comm (i * PAGE_SIZE), ← Nat.add_assoc] at this
    exact ih ((h.pageAlloc ha).1.vmemMap hhead _) hrest hl

theorem vmaAlloc (ha : s.vmaAlloc = some s') : s'.Owns own := by
  unfold Space.vmaAlloc at ha
  split at ha
  · cases ha
    exact h.flags s.short s.lost _
  · split at ha
    · cases ha
    · next s₁ heq =>
      cases ha
      exact (h.pageAlloc heq).1.flags s₁.short true _

end

end Space.Owns

theorem mem_vmaInsert {v w : Vma} {prev : Option Vma} {l l' : List Vma}
    (h : vmaInsert v prev l = some l') : w ∈ l' ↔ w = v ∨ w ∈ l := by
  induction l generalizing prev l' with
  | nil =>
    rw [vmaInsert] at h
    split at h
    · cases h
    · cases h
      simp
  | cons x l ih =>
    rw [vmaInsert] at h
    split at h
    · obtain ⟨l₁, hl₁, rfl⟩ := Option.map_eq_some_iff.mp h
      rw [mem_cons, ih hl₁, mem_cons]
      tauto
    · split at h
      · cases h
      · cases h
        simp

variable {ph : Phdr}

theorem Phdr.bounds (htop : ph.vaddr + ph.memsz ≤ USER_STACK_TOP) :
    ph.vaStart = ph.vaddr / 4096 * 4096 ∧
      ph.vaEnd = (ph.vaddr + ph.memsz + 4095) / 4096 * 4096 := by
  refine ⟨rfl, ?_⟩
  simp only [vaEnd, PAGE_SIZE, U64, USER_STACK_TOP] at *
  omega

theorem Phdr.user (ph : Phdr) (hlow : USER_TEXT_BASE ≤ ph.vaddr)
    (htop : ph.vaddr + ph.memsz ≤ USER_STACK_TOP) (hload : ph.loadable = true) : ph.vma.User := by
  obtain ⟨hstart, hend⟩ := ph.bounds htop
  simp only [loadable, Bool.and_eq_true, bne_iff_ne] at hload
  simp only [Vma.User, vma, hstart, hend, USER_TEXT_BASE, USER_STACK_TOP] at *
  omega

theorem Phdr.userPages (h : ph.vma.User) :
    ∀ i < (ph.vaEnd - ph.vaStart) / PAGE_SIZE, UserPage (ph.vaStart + i * PAGE_SIZE) := by
  intro i hi
  obtain ⟨hlt, hlow, htop⟩ := h
  have hstart : ph.vaStart % PAGE_SIZE = 0 := Nat.mul_mod_left _ _
  have hend : ph.vaEnd % PAGE_SIZE = 0 := Nat.mul_mod_left _ _
  simp only [vma] at hlt hlow htop
  simp only [UserPage, PAGE_SIZE] at *
  omega

/-- What the segments loaded so far have done. -/
structure LoadedOf (own : ℕ → Prop) (segs : List Phdr) (img : Image) : Prop where
  vmas : ∀ v, v ∈ img.vmas ↔ ∃ ph ∈ segs, ph.vma = v
  owns : (∀ ph ∈ segs, ph.vma.User) → img.space.Owns own

theorem LoadedOf.step {own : ℕ → Prop} {segs : List Phdr} {img : Image} {f : File} {s : Space}
    {vlist : List Vma} (h : LoadedOf own segs img)
    (hseg : loadSegment f ph img.space img.vmas = .ok (s, vlist)) (n : ℕ) :
    LoadedOf own (segs ++ [ph]) ⟨s, vlist, n⟩ := by
  unfold loadSegment at hseg
  split at hseg
  · cases hseg
  next s₂ hpages =>
  split at hseg
  · cases hseg
  next s₃ hvma =>
  split at hseg
  · cases hseg
  next vlist' hinsert =>
  cases hseg
  refine ⟨fun v => ?_, fun hall => ?_⟩
  · rw [mem_vmaInsert hinsert, h.vmas]
    simp only [mem_append, mem_singleton, or_and_right, exists_or, exists_eq_left]
    rw [or_comm, eq_comm]
  · simp only [mem_append, mem_singleton] at hall
    have howns := h.owns fun p hp => hall p (.inl hp)
    exact (howns.loadPages (Phdr.userPages (hall ph (.inr rfl))) hpages).vmaAlloc hvma

def bytesOf (n v : ℕ) : List UInt8 := (List.range n).map fun i => UInt8.ofNat (v / 256 ^ i)

/-- An ELF file of these program headers, and `data` behind them. -/
def elfBytes (phs : List Phdr) (data : List UInt8) : List UInt8 :=
  bytesOf 4 ELF_MAGIC ++ [2] ++ bytesOf 13 0 ++ bytesOf 2 EM_RISCV ++ bytesOf 4 0 ++ bytesOf 8 0 ++
    bytesOf 8 64 ++ bytesOf 16 0 ++ bytesOf 2 phs.length ++ bytesOf 6 0 ++
    phs.flatMap (fun ph => bytesOf 4 ph.type ++ bytesOf 4 ph.flags ++ bytesOf 8 ph.offset ++
      bytesOf 8 ph.vaddr ++ bytesOf 8 ph.vaddr ++ bytesOf 8 ph.filesz ++ bytesOf 8 ph.memsz ++
      bytesOf 8 0) ++ data

/-- A file as large as it may be, every page of which is cached. -/
def elfFile (phs : List Phdr) (data : List UInt8) : File where
  content := (elfBytes phs data).take (2 ^ 63)
  pcacheGet i := .ok fun j => ((elfBytes phs data).take (2 ^ 63)).getD (i * PAGE_SIZE + j) 0
  page_content i p hp j _ _ := by
    cases hp
    rfl
  small := length_take_le _ _

/-- Text of three bytes, and data of four, behind which zeros follow, across a page boundary. -/
def twoSegments : File :=
  elfFile [⟨PT_LOAD, 5, 176, 0x1000, 3, 3⟩, ⟨PT_LOAD, 6, 179, 0x2ffe, 4, 16⟩] [1, 2, 3, 4, 5, 6, 7]

/-- A space with a few free frames and the kernel's tables at 0x80000000. -/
def newSpace : Space :=
  ⟨[1, 2, 3, 4, 5, 6, 7, 8, 9, 10, 11, 12, 13], 4, 0, [(2, 100)], [(1024, 101)], [], [],
    false, false⟩

theorem newSpace_fresh : newSpace.Fresh :=
  ⟨rfl, rfl, rfl, rfl, by decide, by decide, by decide⟩

/-- What a load answers, as far as it can be compared. -/
def loads (f : File) (s : Space) (P : Image → Bool) : Bool :=
  match loadUserElf f s with
  | .ok img => P img
  | .error _ => false

theorem exists_of_loads {f : File} {s : Space} {P : Image → Bool} (h : loads f s P = true) :
    ∃ img, loadUserElf f s = .ok img ∧ P img = true := by
  unfold loads at h
  split at h
  · next img hl => exact ⟨img, hl, h⟩
  · cases h

end Sbunix.Exec
