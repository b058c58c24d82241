import Sbunix.Lib.Bytes
import Sbunix.Lib.Kern
import Sbunix.Lib.Scan

/-!
# sbfs: on-disk layout and in-memory state

The structures of `kernel/include/sbfs.h`, with the geometry `tools/mkfs.c`
writes. Blocks are the contents the buffer cache shows, so a block that has
been logged is seen at once. The inode table and the bitmap are kept decoded;
data and index blocks are bytes, because a block is an index block or a
directory only by the way it is reached.
-/

namespace Sbunix.Fs

open Lib

abbrev Block := Bytes 512

def SBFS_BSIZE : ℕ := 512
def SBFS_NDIR : ℕ := 7
def SBFS_NINDIR : ℕ := 2
def SBFS_NBLK_PER_INDIR : ℕ := 128
def SBFS_MAX_FILE_SIZE : ℕ := (7 + 2 * 128 + 1 * 128 * 128) * 512
def SBFS_DIRSIZ : ℕ := 14
def SBFS_ROOTINUM : ℕ := 1
def SBFS_ICACHE_MAX : ℕ := 64
def LOG_HDR_MAX : ℕ := 15
def PCACHE_NSLOTS : ℕ := 64
def PCACHE_PGSZ : ℕ := 4096

/-- `struct sb_superblock`, the fields the kernel uses after mounting. -/
structure Superblock where
  nblocks : ℕ
  ninodes : ℕ
  inodestart : ℕ
  bmapstart : ℕ

/-- The superblock of `tools/mkfs.c`. -/
def sb : Superblock where
  nblocks := 4000
  ninodes := 256
  inodestart := 18
  bmapstart := 50

def dataStart : ℕ := sb.bmapstart + 1

inductive Errno
  | enoent | eio | eexist | exdev | enotdir | eisdir | einval | emfile | efbig | enospc | erofs
  | enametoolong | enotempty | eloop | eperm | enomem | ebadf
  deriving DecidableEq, Repr

/-- `type` of an on-disk inode: 0, 1, 2, 3; also the generic type of an in-core one. -/
inductive IType
  | free | reg | dir | lnk
  deriving DecidableEq, Repr

/-- `struct sb_dinode` -/
structure Dinode where
  type : IType
  nlink : ℕ
  size : ℕ
  mtime : ℕ
  mode : ℕ
  uid : ℕ
  gid : ℕ
  addrs : ℕ → ℕ

def Dinode.zero : Dinode := ⟨.free, 0, 0, 0, 0, 0, 0, fun _ => 0⟩

/-- An inode pointer: a slot of the sbfs inode cache, or an inode of another filesystem. -/
inductive Node
  | sbfs (x : ℕ)
  | other (f : ℕ)
  deriving DecidableEq, Repr

/-- `struct sbfs_inode`: the generic inode, then the sbfs part. -/
structure Slot where
  type : IType
  mode : ℕ
  uid : ℕ
  gid : ℕ
  size : ℕ
  mtime : ℕ
  nlink : ℕ
  refcnt : ℤ
  /-- the inodes of other filesystems mounted here, and that this root is mounted on -/
  mountChild : Option ℕ
  mountParent : Option ℕ
  inum : ℕ
  valid : Bool
  dirty : Bool
  d : Dinode

def Slot.empty : Slot :=
  ⟨.free, 0, 0, 0, 0, 0, 0, 0, none, none, 0, false, false, Dinode.zero⟩

/-- `struct pcache_page`, without its list links. -/
structure PSlot where
  ip : Option Node
  pgidx : ℕ
  refcnt : ℤ
  dirty : Bool
  valid : Bool
  page : Bytes 4096

structure State where
  inodes : ℕ → Dinode
  /-- bit `i` is data block `dataStart + i` -/
  bitmap : ℕ → Bool
  data : ℕ → Block
  icache : ℕ → Slot
  pages : ℕ → PSlot
  lru : List ℕ
  outstanding : Bool
  /-- block numbers logged in the running transaction -/
  txn : List ℕ
  /-- the clock, in seconds -/
  now : ℕ

abbrev Name := List UInt8

namespace State

def setInode (s : State) (i : ℕ) (d : Dinode) : State :=
    { s with inodes := Function.update s.inodes i d }

def setData (s : State) (b : ℕ) (v : Block) : State := { s with data := Function.update s.data b v }

def setSlot (s : State) (x : ℕ) (v : Slot) : State :=
    { s with icache := Function.update s.icache x v }

def setPage (s : State) (k : ℕ) (p : PSlot) : State :=
    { s with pages := Function.update s.pages k p }

end State

/-! ## Directory entries -/

def dot : Name := [46]

def dotdot : Name := [46, 46]

def cstr (name : Name) (i : ℕ) : UInt8 := name.getD i 0

def deInum (de : ℕ → UInt8) : ℕ := (de 0).toNat + 256 * (de 1).toNat

/-- The entry `sbfs_dirlink` writes: `inum`, then the name with a NUL in its last byte. -/
def mkDirent (inum : ℕ) (name : Name) (i : ℕ) : UInt8 :=
  if i = 0 then UInt8.ofNat inum
  else if i = 1 then UInt8.ofNat (inum / 256)
  else if i = 15 then 0
  else cstr name (i - 2)

/-! ## The image `tools/mkfs.c` writes -/

def mkfsRoot : Dinode where
  type := .dir
  nlink := 2
  size := 32
  mtime := 0
  mode := 0o40755
  uid := 0
  gid := 0
  addrs := fun k => if k = 0 then dataStart else 0

/-- `.` and `..` of the root directory. -/
def mkfsRootBlock : Block :=
  (Bytes.zero.copy 0 16 (mkDirent SBFS_ROOTINUM dot)).copy 16 16 (mkDirent SBFS_ROOTINUM dotdot)

/-- The kernel after `sbfs_init` on a fresh image, nothing cached yet. -/
def mkfs (now : ℕ) : State where
  inodes := fun i => if i = SBFS_ROOTINUM then mkfsRoot else Dinode.zero
  bitmap := fun i => i == 0
  data := fun b => if b = dataStart then mkfsRootBlock else Bytes.zero
  icache := fun _ => Slot.empty
  pages := fun _ => ⟨none, 0, 0, false, false, Bytes.zero⟩
  lru := List.range PCACHE_NSLOTS
  outstanding := false
  txn := []
  now := now

end Sbunix.Fs
