import Sbunix.Vm.Memory

/-!
# The address space of a process

The list of VMAs of `kernel/vma.c` and what `mmap`, `munmap`, `sbrk`, `setrlimit`
and the growth of the stack do to it. The VMAs are structs that are linked into
the list, pointed to by `heap_vma`, freed and used again, so the list holds their
places. The page table is modelled by its entries of the last level, one for each page
of the 39 address bits that the walk looks at; those from 2 to 3 GiB are in tables of
the kernel, which the process shares and which are not part of the model.
-/

namespace Sbunix.Vm

open Lib

def EBADF : ℤ := 9
def ENOMEM : ℤ := 12
def EACCES : ℤ := 13
def ENODEV : ℤ := 19
def EINVAL : ℤ := 22
def EROFS : ℤ := 30

def NOFILE : ℕ := 64

/-- A sum of two `uint64_t`. -/
def add64 (a b : ℕ) : ℕ := (a + b) % 2 ^ 64

/-- `a - b` of two `uint64_t`. -/
def sub64 (a b : ℕ) : ℕ := (a + (2 ^ 64 - b)) % 2 ^ 64

/-- A `uint64_t` as `int64_t`. -/
def asInt64 (a : ℕ) : ℤ := if a < 2 ^ 63 then a else a - 2 ^ 64

/-- `x & ~(PAGE_SIZE - 1)` -/
def pageDown (x : ℕ) : ℕ := x / PAGE_SIZE * PAGE_SIZE

/-- `page_round_up`, which wraps for the last page. -/
def pageRoundUp (x : ℕ) : ℕ := pageDown (add64 x (PAGE_SIZE - 1))

def vpn (va : ℕ) : ℕ := va / PAGE_SIZE % 2 ^ 27

structure Space where
  slot : ℕ → Vma
  list : List ℕ
  heap : Option ℕ
  /-- `rlim[RLIMIT_STACK].rlim_cur` -/
  stackMax : ℕ
  pte : ℕ → Option Pte
  /-- references to inodes -/
  refcnt : ℕ → ℤ

namespace Space

def setVma (s : Space) (i : ℕ) (v : Vma) : Space := { s with slot := Function.update s.slot i v }

def inodeGet (s : Space) (ip : ℕ) : Space :=
    { s with refcnt := Function.update s.refcnt ip (s.refcnt ip + 1) }

def inodePut (s : Space) (ip : ℕ) : Space :=
    { s with refcnt := Function.update s.refcnt ip (s.refcnt ip - 1) }

/-- `inode_get` of a pointer that may be null. -/
def inodeGetOpt (s : Space) : Option ℕ → Space
  | none => s
  | some ip => s.inodeGet ip

/-- `inode_put` of a pointer that may be null. -/
def inodePutOpt (s : Space) : Option ℕ → Space
  | none => s
  | some ip => s.inodePut ip

/-! ## `vma.c` -/

def vmaFind (s : Space) (va : ℕ) : Option ℕ :=
  s.list.find? fun i => (s.slot i).start ≤ va ∧ va < (s.slot i).fin

/-- The walk of `vma_insert`: the VMA before, and the list from the place looked at. -/
def insertFrom (slot : ℕ → Vma) (v : ℕ) : Option ℕ → List ℕ → Option (List ℕ)
  | prev, [] => if prev.any fun p => (slot v).start < (slot p).fin then none else some [v]
  | prev, j :: rest =>
    if (slot j).start < (slot v).start then (insertFrom slot v (some j) rest).map (j :: ·)
    else if (slot j).start < (slot v).fin then none
    else if prev.any fun p => (slot v).start < (slot p).fin then none
    else some (v :: j :: rest)

/-- `vma_insert`; `none` is `-EINVAL`. -/
def vmaInsert (s : Space) (v : ℕ) : Option Space :=
  (insertFrom s.slot v none s.list).map fun l => { s with list := l }

def vmaRemove (s : Space) (v : ℕ) : Space := { s with list := s.list.erase v }

def vmaFree (s : Space) (v : ℕ) : Space := s.setVma v Vma.zero

/-- `vma_alloc`: `place` is the struct the slab gives, if it has one. -/
def vmaAlloc (s : Space) (place : ℕ) : Space := s.setVma place Vma.zero

def rightHalf (v : Vma) (fin : ℕ) : Vma :=
  { start := fin, fin := v.fin, prot := v.prot, type := v.type, cow := v.cow, shared := v.shared
    file := if v.type = .file then v.file else none
    fileOff := if v.type = .file ∧ v.file.isSome then add64 v.fileOff (sub64 fin v.start) else 0 }

/-- `vma_split` where it cuts in the middle. -/
def cutMiddle (s : Space) (alloc : Option ℕ) (v start fin : ℕ) : Bool × Space :=
  match alloc with
  | none => (false, s)
  | some r =>
    let old := s.slot v
    let right := rightHalf old fin
    let s := (s.vmaAlloc r).setVma r right
    let s := s.inodeGetOpt right.file
    let cut := s.setVma v { old with fin := start }
    match cut.vmaInsert r with
    | some s' => (true, s')
    | none => (false, ((cut.setVma v old).inodePutOpt right.file).vmaFree r)

/-- `vma_split`; `false` is the return value -1. -/
def vmaSplit (s : Space) (alloc : Option ℕ) (v start fin : ℕ) : Bool × Space :=
  let old := s.slot v
  if start ≤ old.start ∧ old.fin ≤ fin then (true, (s.vmaRemove v).vmaFree v)
  else if old.start < start ∧ fin < old.fin then s.cutMiddle alloc v start fin
  else if start ≤ old.start then
    (true, s.setVma v { old with
      start := fin
      fileOff := if old.type = .file then add64 old.fileOff (sub64 fin old.start) else
        old.fileOff })
  else (true, s.setVma v { old with fin := start })

/-! ## Pages -/

/-- The entry without its page, if the loop `drops` it. -/
def cleared (drops : Pte → Bool) (e : Option Pte) : Option Pte := e.filter (!drops ·)

/-- `n` pages from `va` on are dropped. -/
def clearPages (drops : Pte → Bool) (pte : ℕ → Option Pte) (va : ℕ) : ℕ → ℕ → Option Pte
  | 0 => pte
  | n + 1 =>
    clearPages drops (Function.update pte (vpn va) (cleared drops (pte (vpn va))))
      (va + PAGE_SIZE) n

/-- The loop `for (va = start; va < fin; va += PAGE_SIZE)` -/
def unmapPages (s : Space) (drops : Pte → Bool) (start fin : ℕ) : Space :=
  { s with pte := clearPages drops s.pte start ((fin - start + (PAGE_SIZE - 1)) / PAGE_SIZE) }

/-- `uvmunmap_range`, which goes on at an entry without R, W and X. -/
def uvmunmapRange (s : Space) (start fin : ℕ) : Space := s.unmapPages Pte.leaf start fin

/-- `drop_file_range`: the range is cut to the VMA. -/
def dropFileRange (s : Space) (v start fin : ℕ) : Space :=
  s.unmapPages Pte.v (max start (s.slot v).start) (min fin (s.slot v).fin)

def vmaDropFilePages (s : Space) (v : ℕ) : Space :=
  let s := s.dropFileRange v (s.slot v).start (s.slot v).fin
  (s.inodePutOpt (s.slot v).file).setVma v { s.slot v with file := none }

/-! ## `munmap` -/

/-- The pages of the range are dropped before `munmap` changes the list. -/
def dropRange (s : Space) (v addr fin : ℕ) : Space :=
  if (s.slot v).type = .file then
    if addr ≤ (s.slot v).start ∧ (s.slot v).fin ≤ fin then s.vmaDropFilePages v
    else s.dropFileRange v addr fin
  else s.uvmunmapRange addr fin

/-- `sys_munmap`. What `vma_split` returns is not looked at. -/
def munmap (s : Space) (alloc : Option ℕ) (addr len : ℕ) : ℤ × Space :=
  if addr % PAGE_SIZE ≠ 0 then (-EINVAL, s)
  else if len = 0 then (-EINVAL, s)
  else
    let len := pageRoundUp len
    match s.vmaFind addr with
    | none => (-EINVAL, s)
    | some v =>
      if (s.slot v).fin < add64 addr len then (-EINVAL, s)
      else (0, ((s.dropRange v addr (add64 addr len)).vmaSplit alloc v addr (add64 addr len)).2)

end Space

/-! ## `mmap` -/

structure MapFlags where
  priv : Bool
  shared : Bool
  fixed : Bool
  anon : Bool
  deriving DecidableEq

structure MmapArgs where
  addr : ℕ
  len : ℕ
  prot : Prot
  flags : MapFlags
  fd : ℤ
  off : ℕ

/-- What `mmap` looks at in an open file: the kind of descriptor, the inode, whether it is a
regular file, the operations it has, and the modes it was opened in. -/
structure OpenFile where
  isInode : Bool
  ip : Option ℕ
  regular : Bool
  readpage : Bool
  writepage : Bool
  readable : Bool
  writable : Bool

namespace MmapArgs

/-- The checks before the file is looked at. The result is the length in whole pages. -/
def checkLen (a : MmapArgs) : Except ℤ ℕ :=
  if a.len = 0 then .error EINVAL
  else if pageRoundUp a.len < a.len then .error EINVAL
  else if !a.flags.priv && !a.flags.shared then .error EINVAL
  else if a.flags.priv && a.flags.shared then .error EINVAL
  else if a.prot.w && !a.prot.r then .error EINVAL
  else .ok (pageRoundUp a.len)

def checkOpen (a : MmapArgs) (f : OpenFile) : Except ℤ (Option ℕ) :=
  if !f.isInode then .error EACCES
  else
    match f.ip with
    | none => .error EACCES
    | some ip =>
      if !f.regular then .error EACCES
      else if !f.readpage then .error ENODEV
      else if a.prot.w && a.flags.shared && !f.writepage then .error EROFS
      else if a.prot.w && a.flags.shared && !f.writable then .error EACCES
      else if a.prot.r && !f.readable then .error EACCES
      else .ok (some ip)

/-- The inode to map, or none for `MAP_ANON`. -/
def checkFile (ofile : ℕ → Option OpenFile) (a : MmapArgs) : Except ℤ (Option ℕ) :=
  if a.flags.anon then
    if a.fd ≠ -1 ∨ a.off ≠ 0 then .error EINVAL else .ok none
  else if a.fd < 0 then .error EINVAL
  else if a.off % PAGE_SIZE ≠ 0 then .error EINVAL
  else if NOFILE ≤ a.fd then .error EBADF
  else
    match ofile a.fd.toNat with
    | none => .error EBADF
    | some f => a.checkOpen f

/-- The fields `mmap` fills in. -/
def vma (a : MmapArgs) (file : Option ℕ) (search len : ℕ) : Vma where
  start := search
  fin := add64 search len
  prot := a.prot
  type := if file.isSome then .file else .anon
  cow := file.isSome && a.flags.priv && a.prot.w
  shared := file.isSome && a.flags.shared
  file := file
  fileOff := if file.isSome then a.off else 0

end MmapArgs

/-- The test both placements use: `search < v->end && search + len > v->start`. -/
def Vma.Overlaps (v : Vma) (search len : ℕ) : Prop := search < v.fin ∧ v.start < add64 search len

instance (v : Vma) (search len : ℕ) :
    Decidable (v.Overlaps search len) := inferInstanceAs (Decidable (_ ∧ _))

namespace Space

def stackLimit (s : Space) : ℕ :=
  if s.stackMax = RLIM_INFINITY ∨ USER_STACK_TOP - USER_TEXT_BASE < s.stackMax then
    USER_STACK_TOP - USER_TEXT_BASE
  else s.stackMax

def stackFloor (s : Space) : ℕ := USER_STACK_TOP - s.stackLimit

/-- The checks of `MAP_FIXED`. -/
def fixedPlace (s : Space) (addr len : ℕ) : Except ℤ ℕ :=
  if addr = 0 ∨ addr % PAGE_SIZE ≠ 0 then .error EINVAL
  else if addr < USER_TEXT_BASE then .error EINVAL
  else if add64 addr len < addr then .error EINVAL
  else if USER_STACK_TOP < add64 addr len then .error EINVAL
  else if s.stackFloor < add64 addr len then .error EINVAL
  else if s.list.any fun i => (s.slot i).Overlaps addr len then .error EINVAL
  else .ok addr

/-- The search from the top: `while (search >= MMAP_START)`, at most `fuel` rounds. -/
def searchFrom (s : Space) (len : ℕ) : ℕ → ℕ → Except ℤ ℕ
  | 0, _ => .error ENOMEM
  | fuel + 1, search =>
    if search < MMAP_START then .error ENOMEM
    else
      match s.list.find? fun i => (s.slot i).Overlaps search len with
      | none => .ok search
      | some v =>
        if (s.slot v).start < add64 MMAP_START len then .error ENOMEM
        else s.searchFrom len fuel (pageDown (sub64 (s.slot v).start len))

/-- The placement without `MAP_FIXED`. Each round passes a VMA for good, so there is one
more round than VMAs at most. -/
def searchPlace (s : Space) (len : ℕ) : Except ℤ ℕ :=
  if MMAP_END - MMAP_START < len then .error ENOMEM
  else s.searchFrom len (s.list.length + 1) (pageDown (sub64 MMAP_END len))

/-- `sys_mmap` after the checks: the file is referenced, and released if no place is found. -/
def mmapAt (s : Space) (alloc : Option ℕ) (a : MmapArgs) (len : ℕ) (file : Option ℕ) : ℤ × Space :=
  let s := s.inodeGetOpt file
  match if a.flags.fixed then s.fixedPlace a.addr len else s.searchPlace len with
  | .error e => (-e, s.inodePutOpt file)
  | .ok search =>
    match alloc with
    | none => (-ENOMEM, s.inodePutOpt file)
    | some r =>
      let s := (s.vmaAlloc r).setVma r (a.vma file search len)
      match s.vmaInsert r with
      | none => (-EINVAL, (s.inodePutOpt file).vmaFree r)
      | some s => (search, s)

/-- `sys_mmap` -/
def mmap (s : Space) (ofile : ℕ → Option OpenFile) (alloc : Option ℕ) (a : MmapArgs) : ℤ × Space :=
  match a.checkLen with
  | .error e => (-e, s)
  | .ok len =>
    match a.checkFile ofile with
    | .error e => (-e, s)
    | .ok file => s.mmapAt alloc a len file

/-! ## `sbrk` -/

/-- The lowest start of another VMA from `old` on, or the start of the mmap window. -/
def ceiling (s : Space) (h old : ℕ) : ℕ :=
  s.list.foldl (fun c i =>
    if i = h then c else if old ≤ (s.slot i).start ∧ (s.slot i).start < c then (s.slot i).start else
      c) MMAP_START

def setEnd (s : Space) (h fin : ℕ) : Space := s.setVma h { s.slot h with fin := fin }

/-- `sys_sbrk` -/
def sbrk (s : Space) (incr : ℤ) : ℤ × Space :=
  match s.heap with
  | none => (-EINVAL, s)
  | some h =>
    let old := (s.slot h).fin
    let new := (((old : ℤ) + incr) % 2 ^ 64).toNat
    if 0 < incr then
      if new < old then (-ENOMEM, s)
      else if s.ceiling h old < new then (-ENOMEM, s)
      else (asInt64 old, s.setEnd h new)
    else if incr < 0 then
      if new < (s.slot h).start then (-EINVAL, s)
      else if pageRoundUp new < pageRoundUp old then
        (asInt64 old, (s.uvmunmapRange (pageRoundUp new) (pageRoundUp old)).setEnd h new)
      else (asInt64 old, s.setEnd h new)
    else (asInt64 old, s)

/-! ## Limits and the growth of the stack -/

/-- `sys_setrlimit` for `RLIMIT_STACK` -/
def setrlimit (s : Space) (cur max : ℕ) : ℤ × Space :=
  if max < cur then (-EINVAL, s) else (0, { s with stackMax := cur })

def findStackVma (s : Space) : Option ℕ := s.list.find? fun i => (s.slot i).type = .stack

/-- The start of `user_page_fault`: the VMA of the address, or the stack, grown down to it. -/
def growStack (s : Space) (stval : ℕ) : Option (ℕ × Space) :=
  match s.vmaFind stval with
  | some v => some (v, s)
  | none =>
    match s.findStackVma with
    | none => none
    | some sv =>
      if stval < (s.slot sv).start ∧ s.stackFloor ≤ pageDown stval then
        some (sv, s.setVma sv { s.slot sv with start := pageDown stval })
      else none

/-! ## `fork` -/

/-- What `uvmcow_share` gives the child for an entry of the parent. -/
def shareEntry (p : Pte) : Pte := { p with v := true, w := false, a := true, d := true }

/-- The tables of parent and child after `uvmcow_share`, which looks at the entries of the lower
half that map a page. -/
def shareParent (pte : ℕ → Option Pte) (q : ℕ) : Option Pte :=
  if q < 2 ^ 26 then (pte q).map fun p => if p.leaf && p.w then shareEntry p else p else pte q

def shareChild (pte : ℕ → Option Pte) (q : ℕ) : Option Pte :=
  if q < 2 ^ 26 then ((pte q).filter Pte.leaf).map shareEntry else none

/-- `if (v->prot & VMA_PROT_W) v->flags |= VMA_FLAG_COW` -/
def markCow (v : Vma) : Vma := { v with cow := v.cow || v.prot.w }

/-- `vma_list_dup`: `places` are the structs the slab gives. -/
def vmaListDup (s : Space) : List ℕ → List ℕ → Option (Space × List ℕ)
  | [], _ => some (s, [])
  | _ :: _, [] => none
  | i :: rest, c :: places => do
    let v := s.slot i
    let s := ((s.vmaAlloc c).setVma c v).inodeGetOpt (if v.type = .file then v.file else none)
    let (s, copies) ← s.vmaListDup rest places
    return (s, c :: copies)

/-- The child of `proc_fork_current`. -/
def forkChild (s : Space) (places : List ℕ) : Option Space := do
  let (t, copies) ← s.vmaListDup s.list places
  return { t with
    list := copies
    heap := copies.find? fun c => (t.slot c).type = .heap
    slot := fun c => if c ∈ copies then markCow (t.slot c) else t.slot c
    pte := shareChild s.pte }

def forkParent (s : Space) : Space :=
  { s with
    slot := fun i => if i ∈ s.list then markCow (s.slot i) else s.slot i
    pte := shareParent s.pte }

end Space

end Sbunix.Vm
