import Sbunix.Lib.Bytes
import Sbunix.Lib.Kern
import Sbunix.Lib.Scan

/-!
# Page-table entries, VMAs and page-cache slots

The records of `kernel/vmem.c`, `vma.c` and the page cache that the memory of a process
is made of. A page is named by its physical page number.
-/

namespace Sbunix.Vm

open Lib

def PAGE_SIZE : ℕ := 4096
def KVMEM_OFFSET : ℕ := 0xFFFFFFFF00000000
def USER_TEXT_BASE : ℕ := 0x1000
def MMAP_START : ℕ := 0x1000000000
def MMAP_END : ℕ := 0x2000000000
def USER_STACK_TOP : ℕ := 0x4000000000
/-- The entry of the first level that `create_user_pgtable` copies for `KERN_BASE`. -/
def IDENTITY_START : ℕ := 0x80000000
def IDENTITY_END : ℕ := 0xC0000000
def RLIM_INFINITY : ℕ := 2 ^ 64 - 1
def PCACHE_NSLOTS : ℕ := 64

abbrev Page := Bytes 4096

/-- A page-table entry: its flag bits and the physical page number. -/
structure Pte where
  v : Bool
  r : Bool
  w : Bool
  x : Bool
  u : Bool
  a : Bool
  d : Bool
  ppn : ℕ
  deriving DecidableEq, Repr

/-- The entry is valid and has one of R, W, X: it maps a page. -/
def Pte.leaf (p : Pte) : Bool := p.v && (p.r || p.w || p.x)

/-- The permission bits a mapping asks for. -/
structure Perm where
  r : Bool
  w : Bool
  x : Bool
  u : Bool
  deriving DecidableEq, Repr

/-- What `vmem_map` stores: the accessed and dirty bits go with any of R, W, X. -/
def Perm.entry (p : Perm) (pfn : ℕ) : Pte :=
  let ad := p.r || p.w || p.x
  ⟨true, p.r, p.w, p.x, p.u, ad, ad, pfn⟩

structure Prot where
  r : Bool
  w : Bool
  x : Bool
  deriving DecidableEq, Repr

/-- `type` of a VMA; a freed one has been zeroed. -/
inductive VmaType
  | none | anon | file | stack | heap
  deriving DecidableEq, Repr

structure Vma where
  start : ℕ
  fin : ℕ
  prot : Prot
  type : VmaType
  cow : Bool
  shared : Bool
  file : Option ℕ
  fileOff : ℕ
  deriving DecidableEq, Repr

def Vma.zero : Vma := ⟨0, 0, ⟨false, false, false⟩, .none, false, false, none, 0⟩

/-- `struct pcache_page`: the key, the page and the flags. -/
structure PSlot where
  ip : Option ℕ
  pgidx : ℕ
  page : ℕ
  refcnt : ℤ
  dirty : Bool
  valid : Bool

end Sbunix.Vm
