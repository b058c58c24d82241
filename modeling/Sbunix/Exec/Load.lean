import Sbunix.Exec.Arguments

/-!
# Loading an ELF image

`load_user_elf` reads the program headers one by one; each loadable segment is put into
fresh pages, which are mapped, and gets a VMA. The page table is kept by the indices of its
entries: a table of the second level by nine bits of the address, one of the last level by
eighteen, and a page by twenty-seven. The root starts out as a copy of the kernel's, whose
tables are shared.
-/

namespace Sbunix.Exec

def PAGE_SIZE : ℕ := 4096
def U64 : ℕ := 2 ^ 64
def USER_TEXT_BASE : ℕ := 0x1000
def ENOMEM : ℤ := 12
def ELF_MAGIC : ℕ := 0x464C457F
def ELF_CLASS64 : ℕ := 2
def EM_RISCV : ℕ := 243
def PT_LOAD : ℕ := 1

def VMA_PER_PAGE : ℕ := 73

/-! ## The file -/

/-- An executable as the page cache shows it: `pcache_get` answers with an error, or with a
page that holds the content as far as it goes. -/
structure File where
  content : List UInt8
  pcacheGet : ℕ → Except ℤ (ℕ → UInt8)
  page_content : ∀ i p, pcacheGet i = .ok p → ∀ j < PAGE_SIZE, i * PAGE_SIZE + j < content.length →
    p j = content.getD (i * PAGE_SIZE + j) 0
  small : content.length ≤ 2 ^ 63

namespace File

/-- The loop of `generic_file_read`, for at most the given number of turns; `out` was read so far.
-/
def readLoop (f : File) (off n : ℕ) : ℕ → List UInt8 → Except ℤ (List UInt8)
  | 0, out => .ok out
  | turns + 1, out =>
    if out.length < n then
      let pos := (off + out.length) % U64
      let pgoff := pos % PAGE_SIZE
      let chunk := min (PAGE_SIZE - pgoff) (n - out.length)
      match f.pcacheGet (pos / PAGE_SIZE) with
      | .error e => if 0 < out.length then .ok out else .error e
      | .ok p => readLoop f off n turns (out ++ (List.range chunk).map fun j => p (pgoff + j))
    else .ok out

/-- `generic_file_read`. A turn reads at least one byte, so `n` of them are enough. -/
def read (f : File) (off n : ℕ) : Except ℤ (List UInt8) :=
  if f.content.length ≤ off then .ok []
  else
    let n := if f.content.length < (off + n) % U64 then f.content.length - off else n
    f.readLoop off n n []

variable {f : File} {off n : ℕ} {bs out : List UInt8}

theorem readLoop_content (hn : off + n ≤ f.content.length) (turns : ℕ)
    (hout : out <+: (f.content.drop off).take n) (h : f.readLoop off n turns out = .ok bs) :
    bs <+: (f.content.drop off).take n := by
  induction turns generalizing out with
  | zero =>
    cases h
    exact hout
  | succ turns ih =>
    rw [readLoop] at h
    split at h
    swap
    · cases h
      exact hout
    next hlt =>
    have hpos : (off + out.length) % U64 = off + out.length :=
      Nat.mod_eq_of_lt (by have := f.small; simp only [U64]; omega)
    simp only [hpos] at h
    split at h
    · split at h
      · cases h
        exact hout
      · cases h
    next p hp =>
    refine ih ?_ h
    set pgoff := (off + out.length) % PAGE_SIZE with hpgoff
    set chunk := min (PAGE_SIZE - pgoff) (n - out.length) with hchunk
    have hbytes : (List.range chunk).map (fun j => p (pgoff + j)) =
        (f.content.drop (off + out.length)).take chunk := by
      refine List.ext_getElem (by simp; omega) fun j hj _ => ?_
      have hj : j < chunk := by simpa using hj
      have hpage : (off + out.length) / PAGE_SIZE * PAGE_SIZE + (pgoff + j) = off +
          out.length + j := by
        rw [hpgoff, ← Nat.add_assoc, Nat.div_add_mod']
      have hin := f.page_content _ p hp (pgoff + j) (by omega) (by omega)
      rw [hpage, List.getD_eq_getElem _ _ (by omega)] at hin
      simp [hin]
    rw [hbytes]
    obtain ⟨rest, hrest⟩ := hout
    have hlen : out.length ≤ n := hlt.le
    have hsplit : (f.content.drop off).take n =
        out ++ (f.content.drop (off + out.length)).take (n - out.length) := by
      have htake : (f.content.drop off).take out.length = out := by
        have := congrArg (List.take out.length) hrest
        rw [List.take_left, List.take_take, Nat.min_eq_left hlen] at this
        exact this.symm
      calc (f.content.drop off).take n
          = (f.content.drop off).take (out.length + (n - out.length)) := by
            rw [Nat.add_sub_cancel' hlen]
        _ = _ := by rw [List.take_add, htake, List.drop_drop]
    rw [hsplit, List.prefix_append_right_inj]
    exact List.take_prefix_take_left (by omega)

/-- What is read without an error is a part of the content. -/
theorem read_content (hn : n ≤ PAGE_SIZE) (h : f.read off n = .ok bs) :
    bs <+: (f.content.drop off).take n := by
  unfold read at h
  split at h
  · cases h
    exact List.nil_prefix
  next hoff =>
  have hwrap : (off + n) % U64 = off + n :=
    Nat.mod_eq_of_lt (by have := f.small; simp only [U64, PAGE_SIZE] at *; omega)
  dsimp only at h
  rw [hwrap] at h
  set n' := if f.content.length < off + n then f.content.length - off else n with hn'
  have hle : off + n' ≤ f.content.length ∧ n' ≤ n := by
    rw [hn']
    split <;> omega
  exact (readLoop_content hle.1 n' List.nil_prefix h).trans (List.take_prefix_take_left hle.2)

end File

def File.readAt (f : File) (off n : ℕ) : Except ℤ (List UInt8) :=
  match f.read off n with
  | .error e => .error e
  | .ok bs => if bs.length = n then .ok bs else .error (-ENOEXEC)

def field (bs : List UInt8) (off n : ℕ) : ℕ :=
  ((bs.drop off).take n).foldr (fun b rest => b.toNat + 256 * rest) 0

structure Phdr where
  type : ℕ
  flags : ℕ
  offset : ℕ
  vaddr : ℕ
  filesz : ℕ
  memsz : ℕ

def Phdr.decode (bs : List UInt8) : Phdr :=
  ⟨field bs 0 4, field bs 4 4, field bs 8 8, field bs 16 8, field bs 32 8, field bs 40 8⟩

/-- The program headers, each read when its turn comes. -/
def File.headers (f : File) : Except ℤ (List (Except ℤ Phdr)) :=
  match f.readAt 0 64 with
  | .error e => .error e
  | .ok eh =>
    if field eh 0 4 ≠ ELF_MAGIC ∨ field eh 4 1 ≠ ELF_CLASS64 ∨ field eh 18 2 ≠ EM_RISCV ∨
        32 < field eh 56 2 then .error (-ENOEXEC)
    else
      .ok ((List.range (field eh 56 2)).map fun i =>
        (f.readAt ((field eh 32 8 + i * 56) % U64) 56).map Phdr.decode)

/-! ## Address spaces under construction -/

structure Perm where
  r : Bool
  w : Bool
  x : Bool
  deriving DecidableEq

structure Leaf where
  frame : ℕ
  byte : ℕ → UInt8
  perm : Perm

structure Vma where
  start : ℕ
  fin : ℕ
  prot : Perm
  deriving DecidableEq

/-- Free frames and VMA records, and the new page table. Kept beside them are the frames
that were stored to, whether an allocation has failed, and whether a frame was taken that
`free_user_pgtable` will not find. -/
structure Space where
  free : List ℕ
  slab : ℕ
  root : ℕ
  l1 : List (ℕ × ℕ)
  l0 : List (ℕ × ℕ)
  leaf : List (ℕ × Leaf)
  written : List ℕ
  short : Bool
  lost : Bool

def rootIx (va : ℕ) : ℕ := va / 2 ^ 30 % 512
def midIx (va : ℕ) : ℕ := va / 2 ^ 21 % 2 ^ 18
def vpn (va : ℕ) : ℕ := va / PAGE_SIZE % 2 ^ 27

/-- The entries of the kernel's root table: its identity mapping and its upper half. -/
def kernelRoot (i : ℕ) : Bool := i == 2 || i == 508 || i == 509 || i == 510

/-- The root entries that `free_user_pages_level` descends into. -/
def ownRoot (i : ℕ) : Bool := decide (i < 256) && !kernelRoot i

/-- Whether an entry is a leaf to the page-table walks. -/
def Perm.some (p : Perm) : Bool := p.r || p.w || p.x

namespace Space

/-- `page_alloc`, which zeroes the page. -/
def pageAlloc (s : Space) : Option (ℕ × Space) :=
  match s.free with
  | [] => none
  | f :: free => some (f, { s with free := free, written := f :: s.written })

def pageFree (s : Space) (f : ℕ) : Space := { s with free := f :: s.free }

/-- The two turns of the loop of `get_pte`: the table an entry leads to, or a new one. -/
def table1 (s : Space) (va : ℕ) : Option (ℕ × Space) :=
  match s.l1.lookup (rootIx va) with
  | some t => some (t, s)
  | none =>
    match s.pageAlloc with
    | none => none
    | some (t, s) =>
      some (t, { s with l1 := (rootIx va, t) :: s.l1, written := s.root :: s.written })

def table0 (s : Space) (t1 va : ℕ) : Option (ℕ × Space) :=
  match s.l0.lookup (midIx va) with
  | some t => some (t, s)
  | none =>
    match s.pageAlloc with
    | none => none
    | some (t, s) => some (t, { s with l0 := (midIx va, t) :: s.l0, written := t1 :: s.written })

/-- `vmem_map` of one page: without memory for a table it returns and says nothing. -/
def vmemMap (s : Space) (va : ℕ) (p : Leaf) : Space :=
  match s.table1 va with
  | none => { s with short := true, lost := true }
  | some (t1, s) =>
    match s.table0 t1 va with
    | none => { s with short := true, lost := true }
    | some (t0, s) =>
      { s with
        leaf := (vpn va, p) :: s.leaf.filter (·.1 ≠ vpn va)
        written := t0 :: s.written
        lost := s.lost || s.leaf.any (·.1 = vpn va) || !ownRoot (rootIx va) || !p.perm.some }

def vmaAlloc (s : Space) : Option Space :=
  if 0 < s.slab then some { s with slab := s.slab - 1 }
  else
    match s.pageAlloc with
    | none => none
    | some (_, s) => some { s with slab := VMA_PER_PAGE - 1, lost := true }

def vmaListFree (s : Space) (l : List Vma) : Space := { s with slab := s.slab + l.length }

end Space

/-- `vma_insert`; `prev` is the node before the rest of the list. -/
def vmaInsert (v : Vma) (prev : Option Vma) : List Vma → Option (List Vma)
  | [] => if prev.any (v.start < ·.fin) then none else some [v]
  | w :: l =>
    if w.start < v.start then (vmaInsert v (some w) l).map (w :: ·)
    else if w.start < v.fin ∨ prev.any (v.start < ·.fin) then none
    else some (v :: w :: l)

/-! ## `load_user_elf` -/

namespace Phdr

def loadable (ph : Phdr) : Bool := ph.type == PT_LOAD && ph.memsz != 0

def perm (ph : Phdr) : Perm := ⟨ph.flags.testBit 2, ph.flags.testBit 1, ph.flags.testBit 0⟩

def vaStart (ph : Phdr) : ℕ := ph.vaddr / PAGE_SIZE * PAGE_SIZE

/-- `page_round_up` of a sum; both additions wrap. -/
def vaEnd (ph : Phdr) : ℕ :=
  ((ph.vaddr + ph.memsz) % U64 + (PAGE_SIZE - 1)) % U64 / PAGE_SIZE * PAGE_SIZE

def vma (ph : Phdr) : Vma := ⟨ph.vaStart, ph.vaEnd, ph.perm⟩

end Phdr

/-- The contents of a page of a segment: what is read, and zeros. -/
def fillPage (f : File) (ph : Phdr) (va : ℕ) : Except ℤ (ℕ → UInt8) :=
  let pageEnd := (va + PAGE_SIZE) % U64
  let fileEnd := (ph.vaddr + ph.filesz) % U64
  let copyStart := if va < ph.vaddr then ph.vaddr else va
  let copyEnd := if fileEnd < pageEnd then fileEnd else pageEnd
  -- the tail behind the file's part is zeroed once more
  let zeroStart := if fileEnd < pageEnd then (if va < fileEnd then fileEnd else va) else pageEnd
  if copyStart < copyEnd then
    match f.read ((ph.offset + (copyStart - ph.vaddr)) % U64) (copyEnd - copyStart) with
    | .error e => .error e
    | .ok bs =>
      if bs.length = copyEnd - copyStart then
        .ok fun j =>
          if copyStart ≤ va + j ∧ va + j < zeroStart then bs.getD (va + j - copyStart) 0 else 0
      else .error (-ENOEXEC)
  else .ok fun _ => 0

/-- The loop over the pages of a segment, `n` of them from `va` on, each filled by `fill`.
An error leaves the space as it is then. -/
def loadPages (fill : ℕ → Except ℤ (ℕ → UInt8)) (perm : Perm) :
    ℕ → ℕ → Space → Except (ℤ × Space) Space
  | 0, _, s => .ok s
  | n + 1, va, s =>
    match s.pageAlloc with
    | none => .error (-ENOMEM, { s with short := true })
    | some (p, s) =>
      match fill va with
      | .error e => .error (e, s.pageFree p)
      | .ok byte => loadPages fill perm n (va + PAGE_SIZE) (s.vmemMap va ⟨p, byte, perm⟩)

def loadSegment (f : File) (ph : Phdr) (s : Space) (vlist : List Vma) :
    Except (ℤ × Space) (Space × List Vma) :=
  match loadPages (fillPage f ph) ph.perm ((ph.vaEnd - ph.vaStart) / PAGE_SIZE) ph.vaStart s with
  | .error (e, s) => .error (e, s.vmaListFree vlist)
  | .ok s =>
    match s.vmaAlloc with
    | none => .error (-ENOMEM, { s.vmaListFree vlist with short := true })
    | some s =>
      match vmaInsert ph.vma none vlist with
      | none => .error (-ENOEXEC, s.vmaListFree (ph.vma :: vlist))
      | some vlist => .ok (s, vlist)

structure Image where
  space : Space
  vmas : List Vma
  highest : ℕ

/-- The loop over the program headers. -/
def loadLoop (f : File) : List (Except ℤ Phdr) → Image → Except (ℤ × Space) Image
  | [], img => .ok img
  | .error e :: _, img => .error (e, img.space.vmaListFree img.vmas)
  | .ok ph :: rest, img =>
    if ph.loadable then
      match loadSegment f ph img.space img.vmas with
      | .error e => .error e
      | .ok (s, vlist) =>
        loadLoop f rest ⟨s, vlist, if img.highest < ph.vaEnd then ph.vaEnd else img.highest⟩
    else loadLoop f rest img

def loadUserElf (f : File) (s : Space) : Except (ℤ × Space) Image :=
  match f.headers with
  | .error e => .error (e, s)
  | .ok hs => loadLoop f hs ⟨s, [], 0⟩

/-- `*brk_out` -/
def Image.brk (img : Image) : ℕ := (img.highest + (PAGE_SIZE - 1)) % U64 / PAGE_SIZE * PAGE_SIZE

def segmentsOf : List (Except ℤ Phdr) → List Phdr
  | [] => []
  | .error _ :: hs => segmentsOf hs
  | .ok ph :: hs => if ph.loadable then ph :: segmentsOf hs else segmentsOf hs

def File.segments (f : File) : List Phdr :=
  match f.headers with
  | .error _ => []
  | .ok hs => segmentsOf hs

/-- A new page table: a page from `page_alloc` with the kernel's entries, whose tables are
not free. -/
structure Space.Fresh (s : Space) : Prop where
  leaf : s.leaf = []
  written : s.written = []
  short : s.short = false
  lost : s.lost = false
  l1 : ∀ e ∈ s.l1, kernelRoot e.1 = true ∧ e.2 ≠ s.root ∧ e.2 ∉ s.free
  l0 : ∀ e ∈ s.l0, kernelRoot (e.1 / 512) = true ∧ e.2 ≠ s.root ∧ e.2 ∉ s.free
  identity : 2 ∈ s.l1.map Prod.fst

theorem loadLoop_induction {f : File} {P : List Phdr → Image → Prop}
    (hstep : ∀ segs img ph s vlist, P segs img → ph.loadable = true →
      loadSegment f ph img.space img.vmas = .ok (s, vlist) →
      P (segs ++ [ph]) ⟨s, vlist, if img.highest < ph.vaEnd then ph.vaEnd else img.highest⟩)
    {s : Space} {img : Image} (h0 : P [] ⟨s, [], 0⟩) (h : loadUserElf f s = .ok img) :
    P f.segments img := by
  suffices hloop : ∀ (hs : List (Except ℤ Phdr)) (segs : List Phdr) (img₀ : Image),
      P segs img₀ → loadLoop f hs img₀ = .ok img → P (segs ++ segmentsOf hs) img by
    unfold loadUserElf at h
    unfold File.segments
    split at h
    · cases h
    · next hs heq => simpa [heq] using hloop hs [] _ h0 h
  intro hs
  induction hs with
  | nil =>
    intro segs img₀ hP h
    cases h
    simpa [segmentsOf] using hP
  | cons h₀ hs ih =>
    intro segs img₀ hP h
    cases h₀ with
    | error e => cases h
    | ok ph =>
      rw [loadLoop] at h
      split at h
      · next hload =>
        split at h
        · cases h
        · next s₁ vlist hseg =>
          simpa [segmentsOf, hload] using ih _ _ (hstep segs img₀ ph s₁ vlist hP hload hseg) h
      · next hload => simpa [segmentsOf, hload] using ih _ _ hP h

end Sbunix.Exec
