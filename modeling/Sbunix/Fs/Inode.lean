import Sbunix.Fs.PageCache

/-!
# sbfs: the inode cache

In-core inodes are the 64 slots of `icache`; an inode pointer is a slot number.
A slot with no references is free for reuse.
-/

namespace Sbunix.Fs

open Lib

def igetHit (s : State) (inum : ℕ) : Option ℕ :=
  firstFrom (fun x => decide (0 < (s.icache x).refcnt) && (s.icache x).inum == inum)
    0 SBFS_ICACHE_MAX

def igetFree (s : State) : Option ℕ :=
  firstFrom (fun x => (s.icache x).refcnt == 0) 0 SBFS_ICACHE_MAX

/-- The slot of inode `inum` with one more reference; `none` if every slot is in use. -/
def iget (inum : ℕ) : Kern State (Option ℕ) := do
  let s ← Kern.get
  match igetHit s inum with
  | some x => do
    setInCore x fun v => { v with refcnt := v.refcnt + 1 }
    pure (some x)
  | none =>
    match igetFree s with
    | some x => do
      setInCore x fun v =>
        { v with
          inum := inum, valid := false, dirty := false, refcnt := 1
          mountChild := none, mountParent := none }
      ilock x
      pure (some x)
    | none => pure none

def Slot.setType (v : Slot) (t : IType) : Slot := { v with d := { v.d with type := t } }

def ifree (x : ℕ) : Kern State Unit := do
  itrunc x
  setInCore x fun v => v.setType .free
  iupdate x

/-- `sbfs_op_release`: the last reference is gone; an unlinked file is freed now. -/
def opRelease (x : ℕ) : Kern State Unit := do
  let s ← Kern.get
  let v := s.icache x
  let needsFree := v.valid && v.d.nlink == 0 && v.d.type != .free
  if needsFree || v.dirty then do
    beginOp
    if needsFree then ifree x else iupdate x
    endOp
  else
    pure ()
  setInCore x fun v => { v with dirty := false, valid := false }
  pcacheFlushInode (.sbfs x)
  setInCore x fun v => { v with inum := 0 }

def inodePut (x : ℕ) : Kern State Unit := do
  setInCore x fun v => { v with refcnt := v.refcnt - 1 }
  let s ← Kern.get
  if (s.icache x).refcnt = 0 then opRelease x else pure ()

/-- The slot `sbfs_attach` puts the root directory in: it is the first inode ever cached. -/
def rootSlot : ℕ := 0

/-- `sbfs_attach` on the mount point `mp` of another filesystem; `none` for the root mount. The
reference to the root directory is never dropped. -/
def attach (mp : Option ℕ) : Kern State (Except Errno Unit) := do
  let root ← iget SBFS_ROOTINUM
  match root with
  | none => pure (.error .enomem)
  | some x => do
    setInCore x fun v => { v with mountParent := mp }
    pure (.ok ())

end Sbunix.Fs
