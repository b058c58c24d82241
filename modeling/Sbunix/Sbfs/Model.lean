import Sbunix.Fs.Layout

/-!
# sbfs: inodes and names

Inodes whose contents are already decoded. A directory is its list of 16-byte
entries, a free one among them `none`; an inode pointer is the inode number, with
the references the inode cache counts for it. The operations run inside one
transaction and are not interrupted.
-/

namespace Sbunix.Sbfs

open Lib Fs

abbrev Entry := ℕ × Name

structure Inode where
  type : IType
  nlink : ℕ
  slots : List (Option Entry)
  /-- what a file holds, or the target of a symbolic link -/
  data : List UInt8

/-- `refs i` is the reference count of inode `i` in the inode cache, 0 if it is not cached. -/
structure Volume where
  inodes : ℕ → Inode
  refs : ℕ → ℕ

/-! ## Tables of entries -/

/-- `strncmp(a, b, SBFS_DIRSIZ) == 0` of two strings. -/
def sameName (a b : Name) : Bool := a.take SBFS_DIRSIZ = b.take SBFS_DIRSIZ

def isEntry (name : Name) : Option Entry → Bool
  | some (_, m) => sameName m name
  | none => false

def lookup (slots : List (Option Entry)) (name : Name) : Option ℕ :=
  (slots.find? (isEntry name)).bind (·.map Prod.fst)

/-- The first free entry is filled, or one is added at the end. -/
def fill (e : Entry) : List (Option Entry) → List (Option Entry)
  | [] => [some e]
  | none :: slots => some e :: slots
  | some a :: slots => some a :: fill e slots

namespace Volume

def modify (v : Volume) (i : ℕ) (g : Inode → Inode) : Volume :=
  { v with inodes := Function.update v.inodes i (g (v.inodes i)) }

/-! ## References -/

def cached (v : Volume) : ℕ := (List.range sb.ninodes).countP fun i => 0 < v.refs i

def hold (v : Volume) (i : ℕ) : Volume := { v with refs := Function.update v.refs i (v.refs i + 1) }

/-- `sbfs_iget`; `none` if every slot of the cache is in use. -/
def iget (v : Volume) (i : ℕ) : Option Volume :=
  if 0 < v.refs i ∨ v.cached < SBFS_ICACHE_MAX then some (v.hold i) else none

/-- `sbfs_itrunc` and the end of the inode. -/
def ifree (v : Volume) (i : ℕ) : Volume :=
  v.modify i fun ip => { ip with type := .free, slots := [], data := [] }

/-- `inode_put`, with `sbfs_op_release` for the last reference. -/
def inodePut (v : Volume) (i : ℕ) : Volume :=
  let v := { v with refs := Function.update v.refs i (v.refs i - 1) }
  if v.refs i = 0 ∧ (v.inodes i).nlink = 0 ∧ (v.inodes i).type ≠ .free then v.ifree i else v

def nlinkInc (v : Volume) (i : ℕ) : Volume :=
  v.modify i fun ip => { ip with nlink := (ip.nlink + 1) % 2 ^ 16 }

/-! ## Directories -/

/-- The scan of `sbfs_dirlookup`. -/
def find (v : Volume) (d : ℕ) (name : Name) : Option ℕ :=
  if (v.inodes d).type ≠ .dir then none else lookup (v.inodes d).slots name

end Volume

end Sbunix.Sbfs
