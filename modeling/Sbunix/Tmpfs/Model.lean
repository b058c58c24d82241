import Sbunix.Lib.Bytes
import Sbunix.Lib.Machine
import Sbunix.Lib.Scan

/-!
# tmpfs

The in-memory filesystem of `kernel/fs/tmpfs.c`: a pool of inodes, files as
arrays of pages that are allocated when they are first written to, directories
as lists of entries with the newest first. The entries come from a pool as well;
an entry is in use exactly as long as it is on some directory's list, so the
pool is modelled by the number of entries.

The operations run with interrupts off, so each is one step.
-/

namespace Sbunix.Tmpfs

open Lib

def TMPFS_NINODES : ℕ := 64
def TMPFS_DIRSIZ : ℕ := 28
def TMPFS_MAX_FILESIZE : ℕ := 256 * 1024
def TMPFS_PAGE_SIZE : ℕ := 4096
def TMPFS_PAGES_PER_FILE : ℕ := TMPFS_MAX_FILESIZE / TMPFS_PAGE_SIZE

def ENOENT : ℤ := 2
def EEXIST : ℤ := 17
def ENOTDIR : ℤ := 20
def EISDIR : ℤ := 21
def EINVAL : ℤ := 22
def EFBIG : ℤ := 27
def ENOSPC : ℤ := 28
def ENAMETOOLONG : ℤ := 36
def ENOTEMPTY : ℤ := 39

abbrev Page := Bytes TMPFS_PAGE_SIZE

abbrev Name := List UInt8

inductive IType
  | none | reg | dir | lnk
  deriving DecidableEq, Repr

structure Dirent where
  target : ℕ
  name : Name
  deriving DecidableEq, Repr

structure Inode where
  inUse : Bool
  type : IType
  refcnt : ℤ
  nlink : ℕ
  size : ℕ
  filePages : ℕ → Option Page
  dirents : List Dirent
  parent : Option ℕ

/-! ## Files -/

/-- `tmpfs_get_page`; `mem` says for which pages `page_alloc` succeeds. -/
def Inode.getPage (mem : ℕ → Bool) (ti : Inode) (off : ℕ) : Option (Page × Inode) :=
  let idx := off / TMPFS_PAGE_SIZE
  if TMPFS_PAGES_PER_FILE ≤ idx then none
  else
    match ti.filePages idx with
    | some pg => some (pg, ti)
    | none =>
      if mem idx then
        some (Bytes.zero,
          { ti with filePages := Function.update ti.filePages idx (some Bytes.zero) })
      else none

/-- `tmpfs_find_page` -/
def Inode.findPage (ti : Inode) (off : ℕ) : Option Page :=
  let idx := off / TMPFS_PAGE_SIZE
  if TMPFS_PAGES_PER_FILE ≤ idx then none else ti.filePages idx

def chunk (off n total : ℕ) : ℕ :=
  min (TMPFS_PAGE_SIZE - (off + total) % TMPFS_PAGE_SIZE) (n - total)

/-- What one round of the loop of `tmpfs_op_read` copies: part of a page, or zeros. -/
def Inode.piece (ti : Inode) (pos len : ℕ) : List UInt8 :=
  match ti.findPage pos with
  | some pg => (List.range len).map fun i => pg.get (pos % TMPFS_PAGE_SIZE + i)
  | none => List.replicate len 0

/-- The loop of `tmpfs_op_read`; every round covers a byte or more, so `n` rounds are enough. -/
def Inode.readLoop (ti : Inode) (off n : ℕ) : ℕ → ℕ → List UInt8 → List UInt8
  | 0, _, buf => buf
  | rounds + 1, total, buf =>
    if total < n then
      let len := chunk off n total
      ti.readLoop off n rounds (total + len) (buf ++ ti.piece (off + total) len)
    else buf

/-- `tmpfs_op_read`: the return value and the bytes stored to the buffer. -/
def Inode.read (ti : Inode) (off n : ℕ) : ℤ × List UInt8 :=
  if ti.type ≠ .reg then (-EISDIR, [])
  else if ti.size ≤ off then (0, [])
  else
    let n := min n (ti.size - off)
    let buf := ti.readLoop off n n 0 []
    (buf.length, buf)

/-- The loop of `tmpfs_op_write`: the bytes written, whether it ran out of
pages, and the inode. -/
def Inode.writeLoop (mem : ℕ → Bool) (off n : ℕ) (src : ℕ → UInt8) :
    ℕ → ℕ → Inode → ℕ × Bool × Inode
  | 0, total, ti => (total, false, ti)
  | rounds + 1, total, ti =>
    if total < n then
      match ti.getPage mem (off + total) with
      | none => (total, true, ti)
      | some (pg, ti) =>
        let poff := (off + total) % TMPFS_PAGE_SIZE
        let len := chunk off n total
        let pg := pg.copy poff len fun i => src (total + i)
        let ti := { ti with
          filePages := Function.update ti.filePages ((off + total) / TMPFS_PAGE_SIZE) (some pg) }
        writeLoop mem off n src rounds (total + len) ti
    else (total, false, ti)

/-- `tmpfs_op_write` -/
def Inode.write (mem : ℕ → Bool) (off : ℕ) (src : ℕ → UInt8) (n : ℕ) (ti : Inode) : ℤ × Inode :=
  if ti.type ≠ .reg then (-EISDIR, ti)
  else if n = 0 then (0, ti)
  else if TMPFS_MAX_FILESIZE ≤ off then (-EFBIG, ti)
  else
    let n := min n (TMPFS_MAX_FILESIZE - off)
    let (total, out, ti) := ti.writeLoop mem off n src n 0
    let ti := if ti.size < off + total then { ti with size := off + total } else ti
    (if total ≠ 0 then total else if out then -ENOSPC else 0, ti)

/-- `tmpfs_op_truncate` -/
def Inode.truncate (ti : Inode) : ℤ × Inode :=
  if ti.type ≠ .reg then (-EINVAL, ti)
  else (0, { ti with filePages := fun _ => none, size := 0 })

/-! ## Directories -/

def dot : Name := [46]
def dotdot : Name := [46, 46]

/-- `tmpfs_name_ok` -/
def nameOk (name : Name) : Bool := name.length < TMPFS_DIRSIZ

structure Fs where
  inodes : ℕ → Inode

namespace Fs

def modify (fs : Fs) (i : ℕ) (g : Inode → Inode) : Fs :=
  ⟨Function.update fs.inodes i (g (fs.inodes i))⟩

def direntsUsed (fs : Fs) : ℕ :=
    ((List.range TMPFS_NINODES).map fun i => (fs.inodes i).dirents.length).sum

/-- `tmpfs_ialloc` -/
def ialloc (fs : Fs) (type : IType) : Option (ℕ × Fs) :=
  match firstFrom (fun i => !(fs.inodes i).inUse) 1 (TMPFS_NINODES - 1) with
  | none => none
  | some i => some (i, fs.modify i fun _ => ⟨true, type, 1, 1, 0, fun _ => none, [], none⟩)

/-- `tmpfs_ifree` -/
def ifree (fs : Fs) (i : ℕ) : Fs :=
  fs.modify i fun ti =>
    let ti := if ti.type = .reg ∨ ti.type = .lnk then { ti with filePages := fun _ => none }
      else if ti.type = .dir then { ti with dirents := [] } else ti
    { ti with inUse := false, type := .none }

def inodeGet (fs : Fs) (i : ℕ) : Fs := fs.modify i fun ti => { ti with refcnt := ti.refcnt + 1 }

/-- `tmpfs_op_release` -/
def opRelease (fs : Fs) (i : ℕ) : Fs :=
  if (fs.inodes i).inUse ∧ (fs.inodes i).nlink = 0 then fs.ifree i else fs

def inodePut (fs : Fs) (i : ℕ) : Fs :=
  let fs := fs.modify i fun ti => { ti with refcnt := ti.refcnt - 1 }
  if (fs.inodes i).refcnt = 0 then fs.opRelease i else fs

/-- `nlink++` and `nlink--` of a 32-bit count. -/
def nlinkInc (fs : Fs) (i : ℕ) : Fs :=
    fs.modify i fun ti => { ti with nlink := (ti.nlink + 1) % 2 ^ 32 }

def nlinkDec (fs : Fs) (i : ℕ) : Fs :=
  fs.modify i fun ti => { ti with nlink := (ti.nlink + (2 ^ 32 - 1)) % 2 ^ 32 }

/-- `tmpfs_dirfind` -/
def dirfind (fs : Fs) (dir : ℕ) (name : Name) : Option Dirent :=
  (fs.inodes dir).dirents.find? (·.name = name)

/-- `tmpfs_dirlink`; `none` if the pool is empty. -/
def dirlink (fs : Fs) (dir : ℕ) (name : Name) (target : ℕ) : Option Fs :=
  if TMPFS_NINODES ≤ fs.direntsUsed then none
  else some (fs.modify dir fun ti => { ti with dirents := ⟨target, name⟩ :: ti.dirents })

/-- `tmpfs_dirunlink` -/
def dirunlink (fs : Fs) (dir : ℕ) (name : Name) : Fs :=
  fs.modify dir fun ti => { ti with dirents := ti.dirents.eraseP (·.name = name) }

/-- `tmpfs_dir_is_empty` -/
def dirIsEmpty (fs : Fs) (dir : ℕ) : Bool :=
  (fs.inodes dir).dirents.all fun d => d.name = dot ∨ d.name = dotdot

/-- `tmpfs_op_lookup` -/
def opLookup (fs : Fs) (dir : ℕ) (name : Name) : Except ℤ ℕ :=
  if (fs.inodes dir).type ≠ .dir then .error (-ENOTDIR)
  else if name = dot then .ok dir
  else if name = dotdot then .ok ((fs.inodes dir).parent.getD dir)
  else if nameOk name = false then .error (-ENAMETOOLONG)
  else
    match fs.dirfind dir name with
    | none => .error (-ENOENT)
    | some de => .ok de.target

/-- The common end of `tmpfs_op_create`, `tmpfs_op_mkdir` and `tmpfs_op_symlink`:
enter the new inode `ni`, or give it back. -/
def enter (fs : Fs) (td : ℕ) (name : Name) (ni : ℕ) : Except Fs Fs :=
  match fs.dirlink td name ni with
  | none => .error (fs.ifree ni)
  | some fs => .ok fs

/-- `tmpfs_op_create`: the new inode, referenced once, or an error. -/
def opCreate (fs : Fs) (td : ℕ) (name : Name) : Except ℤ ℕ × Fs :=
  if (fs.inodes td).type ≠ .dir then (.error (-ENOTDIR), fs)
  else if nameOk name = false then (.error (-ENAMETOOLONG), fs)
  else if (fs.dirfind td name).isSome then (.error (-EEXIST), fs)
  else
    match fs.ialloc .reg with
    | none => (.error (-ENOSPC), fs)
    | some (ni, fs) =>
      match fs.enter td name ni with
      | .error fs => (.error (-ENOSPC), fs)
      | .ok fs => (.ok ni, fs)

/-- `tmpfs_op_mkdir` -/
def opMkdir (fs : Fs) (td : ℕ) (name : Name) : ℤ × Fs :=
  if (fs.inodes td).type ≠ .dir then (-ENOTDIR, fs)
  else if nameOk name = false then (-ENAMETOOLONG, fs)
  else if (fs.dirfind td name).isSome then (-EEXIST, fs)
  else
    match fs.ialloc .dir with
    | none => (-ENOSPC, fs)
    | some (ni, fs) =>
      match (fs.modify ni fun ti => { ti with nlink := 2, parent := some td }).enter td name ni with
      | .error fs => (-ENOSPC, fs)
      | .ok fs => (0, (fs.nlinkInc td).inodePut ni)

/-- The link counts of a directory entry for `target` that has been taken out of `td`. -/
def dropLink (fs : Fs) (td target : ℕ) : Fs :=
  (if (fs.inodes target).type = .dir then (fs.nlinkDec td).nlinkDec target else fs).nlinkDec target

def reap (fs : Fs) (i : ℕ) : Fs :=
  if (fs.inodes i).nlink = 0 ∧ (fs.inodes i).refcnt = 0 then fs.ifree i else fs

/-- `tmpfs_op_unlink` -/
def opUnlink (fs : Fs) (td : ℕ) (name : Name) : ℤ × Fs :=
  if (fs.inodes td).type ≠ .dir then (-ENOTDIR, fs)
  else if name = dot ∨ name = dotdot then (-EINVAL, fs)
  else if nameOk name = false then (-ENAMETOOLONG, fs)
  else
    match fs.dirfind td name with
    | none => (-ENOENT, fs)
    | some de =>
      if (fs.inodes de.target).type = .dir ∧ fs.dirIsEmpty de.target = false then (-ENOTEMPTY, fs)
      else (0, ((fs.dirunlink td name).dropLink td de.target).reap de.target)

/-- `tmpfs_op_link` -/
def opLink (fs : Fs) (td tgt : ℕ) (name : Name) : ℤ × Fs :=
  if nameOk name = false then (-ENAMETOOLONG, fs)
  else
    match fs.dirlink td name tgt with
    | none => (-ENOSPC, fs)
    | some fs => (0, fs.nlinkInc tgt)

/-- The loop check of `tmpfs_op_rename`: whether `src` is `a` or above it; `none`
if the walk does not end within the given number of steps. -/
def isAbove (fs : Fs) (src : ℕ) : ℕ → Option ℕ → Option Bool
  | _, none => some false
  | 0, some _ => none
  | n + 1, some a => if a = src then some true else fs.isAbove src n (fs.inodes a).parent

/-- `tmpfs_op_rename` where it replaces `dst`. -/
def replace (fs : Fs) (nd : ℕ) (newName : Name) (dst : ℕ) : Fs :=
  ((fs.dirunlink nd newName).dropLink nd dst).reap dst

/-- `tmpfs_op_rename` from the entry of the new name on. -/
def moveEntry (fs : Fs) (od : ℕ) (oldName : Name) (nd : ℕ) (newName : Name) (src : ℕ) : ℤ × Fs :=
  match fs.dirlink nd newName src with
  | none => (-ENOSPC, fs)
  | some fs =>
    let fs := fs.dirunlink od oldName
    (0, if (fs.inodes src).type = .dir ∧ od ≠ nd then
        ((fs.nlinkDec od).nlinkInc nd).modify src fun ti => { ti with parent := some nd }
      else fs)

/-- `tmpfs_op_rename` behind the loop check. -/
def renameOver (fs : Fs) (od : ℕ) (oldName : Name) (nd : ℕ) (newName : Name) (src : ℕ) : ℤ × Fs :=
  match fs.dirfind nd newName with
  | none => fs.moveEntry od oldName nd newName src
  | some de =>
    if (fs.inodes src).type = .dir ∧ (fs.inodes de.target).type ≠ .dir then (-ENOTDIR, fs)
    else if (fs.inodes src).type ≠ .dir ∧ (fs.inodes de.target).type = .dir then (-EISDIR, fs)
    else if (fs.inodes de.target).type = .dir ∧ fs.dirIsEmpty de.target = false then
      (-ENOTEMPTY, fs)
    else (fs.replace nd newName de.target).moveEntry od oldName nd newName src

/-- `tmpfs_op_rename`; `none` if the loop check does not end. -/
def opRename (fs : Fs) (od : ℕ) (oldName : Name) (nd : ℕ) (newName : Name) : Option (ℤ × Fs) :=
  if nameOk oldName = false ∨ nameOk newName = false then some (-ENAMETOOLONG, fs)
  else if od = nd ∧ oldName = newName then some (0, fs)
  else
    match fs.dirfind od oldName with
    | none => some (-ENOENT, fs)
    | some de =>
      if (fs.inodes de.target).type = .dir then
        match fs.isAbove de.target TMPFS_NINODES (some nd) with
        | none => none
        | some true => some (-EINVAL, fs)
        | some false => some (fs.renameOver od oldName nd newName de.target)
      else some (fs.renameOver od oldName nd newName de.target)

/-- `tmpfs_op_symlink`; `mem` says whether `page_alloc` succeeds. -/
def opSymlink (fs : Fs) (td : ℕ) (name : Name) (target : List UInt8) (mem : Bool) : ℤ × Fs :=
  if (fs.inodes td).type ≠ .dir then (-ENOTDIR, fs)
  else if nameOk name = false then (-ENAMETOOLONG, fs)
  else if target = [] then (-EINVAL, fs)
  else if TMPFS_PAGE_SIZE ≤ target.length then (-ENAMETOOLONG, fs)
  else if (fs.dirfind td name).isSome then (-EEXIST, fs)
  else
    match fs.ialloc .lnk with
    | none => (-ENOSPC, fs)
    | some (ni, fs) =>
      if mem = false then (-ENOSPC, fs.ifree ni)
      else
        let page : Page := fun i => target.getD i.val 0
        match (fs.modify ni fun ti => { ti with
            filePages := Function.update ti.filePages 0 (some page), size := target.length }).enter
              td name ni with
        | .error fs => (-ENOSPC, fs)
        | .ok fs => (0, fs.inodePut ni)

/-- `tmpfs_init` -/
def init : Fs where
  inodes i := if i = 0 then ⟨true, .dir, 0, 2, 0, fun _ => none, [], none⟩
    else ⟨false, .none, 0, 0, 0, fun _ => none, [], none⟩

end Fs

/-! ## Listing -/

/-- `struct dirent64`; `d_reclen` is `reclen` of the name. -/
structure Record where
  ino : ℕ
  off : ℕ
  type : ℕ
  name : Name
  deriving DecidableEq

/-- `DT_DIR`, `DT_LNK` and `DT_REG`. -/
def dtype : IType → ℕ
  | .dir => 4
  | .lnk => 10
  | .reg => 8
  | .none => 8

/-- `d_reclen` for a name: the fixed part, the name with its end mark, rounded up to 8. -/
def reclen (name : Name) : ℕ := (19 + (name.length + 1) + 7) / 8 * 8

/-- Store records as long as they fit into `n` bytes: the records and the new cursor. -/
def emit (n : ℕ) : List (ℕ × ℕ × Name) → ℕ → ℕ → List Record × ℕ
  | [], _, cursor => ([], cursor)
  | (ino, type, name) :: es, written, cursor =>
    if n < written + reclen name then ([], cursor)
    else
      let (rs, next) := emit n es (written + reclen name) (cursor + 1)
      (⟨ino, cursor + 1, type, name⟩ :: rs, next)

/-- `.`, `..` and the entries, in the order of the list. -/
def Fs.listing (fs : Fs) (td : ℕ) : List (ℕ × ℕ × Name) :=
  (td, dtype .dir, dot) :: ((fs.inodes td).parent.getD td, dtype .dir, dotdot) ::
    (fs.inodes td).dirents.map fun d => (d.target, dtype (fs.inodes d.target).type, d.name)

/-- `tmpfs_op_getdents`: the records stored and the next cursor. -/
def Fs.opGetdents (fs : Fs) (td off n : ℕ) : Except ℤ (List Record × ℕ) :=
  if (fs.inodes td).type ≠ .dir then .error (-ENOTDIR)
  else .ok (emit n ((fs.listing td).drop off) 0 off)

end Sbunix.Tmpfs
