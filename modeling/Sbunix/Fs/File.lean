import Sbunix.Fs.Layout

/-!
# sbfs: blocks and file contents

Block allocation, the index tree of an inode, and reading, writing and
truncating through it (`kernel/fs/sbfs.c`).
-/

namespace Sbunix.Fs

open Lib

/-! ## Transactions -/

def beginOp : Kern State Unit := do
  let s ← Kern.get
  if s.outstanding then
    Kern.panic
  else
    Kern.modify fun s => { s with outstanding := true, txn := [] }

def endOp : Kern State Unit := do
  let s ← Kern.get
  if s.outstanding = false then
    Kern.panic
  else
    Kern.modify fun s => { s with outstanding := false }

/-- `log_write` of a buffer that holds block `b`. -/
def logWrite (b : ℕ) : Kern State Unit := do
  let s ← Kern.get
  if s.outstanding = false then
    Kern.panic
  else if LOG_HDR_MAX ≤ s.txn.length then
    Kern.panic
  else if b ∈ s.txn then
    pure ()
  else
    Kern.modify fun s => { s with txn := s.txn ++ [b] }

/-! ## Block allocation -/

/-- A free data block, zeroed; 0 if there is none. -/
def balloc : Kern State ℕ := do
  let s ← Kern.get
  match firstFrom (fun i => !s.bitmap i) 0 sb.nblocks with
  | none => pure 0
  | some i => do
    Kern.modify fun s => { s with bitmap := Function.update s.bitmap i true }
    logWrite sb.bmapstart
    let dblock := dataStart + i
    Kern.modify fun s => s.setData dblock Bytes.zero
    logWrite dblock
    pure dblock

def bfree (bno : ℕ) : Kern State Unit :=
  if bno < dataStart ∨ dataStart + sb.nblocks ≤ bno then
    pure ()
  else do
    Kern.modify fun s => { s with bitmap := Function.update s.bitmap (bno - dataStart) false }
    logWrite sb.bmapstart

/-! ## In-core inodes -/

def Slot.load (v : Slot) (d : Dinode) : Slot :=
  { v with
    d := d, valid := true, type := d.type, size := d.size, nlink := d.nlink, mtime := d.mtime
    mode := d.mode, uid := d.uid, gid := d.gid }

def ilock (x : ℕ) : Kern State Unit :=
  Kern.modify fun s =>
    if (s.icache x).valid then s else s.setSlot x ((s.icache x).load (s.inodes (s.icache x).inum))

/-- The on-disk inode `sbfs_iupdate` writes: the generic fields override the cached ones. -/
def Slot.sync (v : Slot) : Dinode :=
  { v.d with
    size := v.size % 2 ^ 32, nlink := v.nlink % 2 ^ 16, mtime := v.mtime, mode := v.mode
    uid := v.uid % 2 ^ 16, gid := v.gid % 2 ^ 16 }

def iupdate (x : ℕ) : Kern State Unit := do
  Kern.modify fun s =>
    let v := s.icache x
    (s.setInode v.inum v.sync).setSlot x { v with d := v.sync, dirty := false }
  let s ← Kern.get
  logWrite (sb.inodestart + (s.icache x).inum / 8)

def Slot.setSize (v : Slot) (n : ℕ) : Slot :=
  { v with d := { v.d with size := n }, size := n, dirty := true }

/-- `mtime` becomes `t`, in both copies. -/
def Slot.touch (v : Slot) (t : ℕ) : Slot :=
  { v with d := { v.d with mtime := t }, mtime := t, dirty := true }

def Slot.setAddr (v : Slot) (k b : ℕ) : Slot :=
  { v with d := { v.d with addrs := Function.update v.d.addrs k b } }

def setInCore (x : ℕ) (f : Slot → Slot) : Kern State Unit :=
  Kern.modify fun s => s.setSlot x (f (s.icache x))

def setAddr (x k b : ℕ) : Kern State Unit :=
  setInCore x fun v => { v.setAddr k b with dirty := true }

/-! ## Reading -/

/-- The data block of file block `bn`; 0 where a level of the index is missing. -/
def bmap (data : ℕ → Block) (addrs : ℕ → ℕ) (bn : ℕ) : ℕ :=
  if bn < SBFS_NDIR then
    addrs bn
  else if bn < SBFS_NDIR + SBFS_NINDIR * SBFS_NBLK_PER_INDIR then
    let rel := bn - SBFS_NDIR
    let indir := addrs (SBFS_NDIR + rel / SBFS_NBLK_PER_INDIR)
    if indir = 0 then 0 else (data indir).word (rel % SBFS_NBLK_PER_INDIR)
  else
    let drel := bn - (SBFS_NDIR + SBFS_NINDIR * SBFS_NBLK_PER_INDIR)
    let oi := drel / SBFS_NBLK_PER_INDIR
    if SBFS_NBLK_PER_INDIR ≤ oi then 0
    else
      let outer := addrs (SBFS_NDIR + SBFS_NINDIR)
      if outer = 0 then 0
      else
        let inner := (data outer).word oi
        if inner = 0 then 0 else (data inner).word (drel % SBFS_NBLK_PER_INDIR)

/-- `memcpy(out + total, src, chunk)` on a buffer. -/
def blit (out : ℕ → UInt8) (total chunk : ℕ) (src : ℕ → UInt8) (j : ℕ) : UInt8 :=
  if total ≤ j ∧ j < total + chunk then src (j - total) else out j

/-- The copy loop of `sbfs_readi`: it stops at the first block that is not there. -/
def readLoop (data : ℕ → Block) (addrs : ℕ → ℕ) (off n : ℕ) : ℕ → ℕ → (ℕ → UInt8) → ℕ × (ℕ → UInt8)
  | 0, total, out => (total, out)
  | fuel + 1, total, out =>
    if total < n then
      let bn := (off + total) / SBFS_BSIZE
      let boff := (off + total) % SBFS_BSIZE
      let b := bmap data addrs bn
      if b = 0 then (total, out)
      else
        let chunk := min (SBFS_BSIZE - boff) (n - total)
        readLoop data addrs off n fuel (total + chunk)
          (blit out total chunk fun j => (data b).get (boff + j))
    else
      (total, out)

/-- `sbfs_readi` into the buffer `dst`: the count and the buffer afterwards. -/
def readi (x off : ℕ) (dst : ℕ → UInt8) (n : ℕ) : Kern State (ℕ × (ℕ → UInt8)) := do
  ilock x
  let s ← Kern.get
  let d := (s.icache x).d
  if d.size < off then
    pure (0, dst)
  else
    let n := if d.size < off + n then d.size - off else n
    pure (readLoop s.data d.addrs off n n 0 dst)

/-! ## Writing -/

/-- Fill a zero slot of the inode's address table. -/
def ensureAddr (x k : ℕ) : Kern State ℕ := do
  let s ← Kern.get
  if (s.icache x).d.addrs k = 0 then do
    let nb ← balloc
    if nb = 0 then
      pure 0
    else do
      setAddr x k nb
      pure nb
  else
    pure ((s.icache x).d.addrs k)

/-- Fill a zero entry of an index block. -/
def ensureWord (b k : ℕ) : Kern State ℕ := do
  let s ← Kern.get
  if (s.data b).word k = 0 then do
    let nb ← balloc
    if nb = 0 then
      pure 0
    else do
      Kern.modify fun s => s.setData b ((s.data b).setWord k nb)
      logWrite b
      pure nb
  else
    pure ((s.data b).word k)

/-- The data block of file block `bn`, allocating every missing level; 0 for no space. -/
def bmapAlloc (x bn : ℕ) : Kern State ℕ :=
  if bn < SBFS_NDIR then
    ensureAddr x bn
  else if bn < SBFS_NDIR + SBFS_NINDIR * SBFS_NBLK_PER_INDIR then do
    let rel := bn - SBFS_NDIR
    let ib ← ensureAddr x (SBFS_NDIR + rel / SBFS_NBLK_PER_INDIR)
    if ib = 0 then pure 0 else ensureWord ib (rel % SBFS_NBLK_PER_INDIR)
  else do
    let drel := bn - (SBFS_NDIR + SBFS_NINDIR * SBFS_NBLK_PER_INDIR)
    let ob ← ensureAddr x (SBFS_NDIR + SBFS_NINDIR)
    if ob = 0 then pure 0
    else do
      let inner ← ensureWord ob (drel / SBFS_NBLK_PER_INDIR)
      if inner = 0 then pure 0 else ensureWord inner (drel % SBFS_NBLK_PER_INDIR)

/-- The copy loop of `sbfs_writei`: the bytes written and whether space ran out. -/
def writeLoop (x off n : ℕ) (src : ℕ → UInt8) : ℕ → ℕ → Kern State (ℕ × Bool)
  | 0, total => pure (total, false)
  | fuel + 1, total =>
    if total < n then do
      let bn := (off + total) / SBFS_BSIZE
      let boff := (off + total) % SBFS_BSIZE
      -- past the last double-indirect entry the source leaves the loop without an error
      if SBFS_NDIR + SBFS_NINDIR * SBFS_NBLK_PER_INDIR +
          SBFS_NBLK_PER_INDIR * SBFS_NBLK_PER_INDIR ≤ bn then
        pure (total, false)
      else do
        let b ← bmapAlloc x bn
        if b = 0 then
          pure (total, true)
        else do
          let chunk := min (SBFS_BSIZE - boff) (n - total)
          Kern.modify fun s =>
            s.setData b ((s.data b).copy boff chunk fun j => src (total + j))
          logWrite b
          writeLoop x off n src fuel (total + chunk)
    else
      pure (total, false)

def writei (x off : ℕ) (src : ℕ → UInt8) (n : ℕ) : Kern State (Except Errno ℕ) := do
  ilock x
  if SBFS_MAX_FILE_SIZE < off then
    pure (.error .efbig)
  else if n = 0 then
    pure (.ok 0)
  else do
    let n := if SBFS_MAX_FILE_SIZE < off + n then SBFS_MAX_FILE_SIZE - off else n
    let (total, enospc) ← writeLoop x off n src n 0
    setInCore x fun v =>
      if v.d.size < off + total then v.setSize ((off + total) % 2 ^ 32) else v
    let s ← Kern.get
    setInCore x fun v => if 0 < total then v.touch s.now else v
    let s ← Kern.get
    if (s.icache x).dirty then iupdate x else pure ()
    if total = 0 ∧ enospc = true then pure (.error .enospc) else pure (.ok total)

/-! ## Truncation -/

def freeWords (b : ℕ) (i n : ℕ) : Kern State Unit :=
  Kern.loop (fun i => do
    let s ← Kern.get
    if (s.data b).word i = 0 then pure () else bfree ((s.data b).word i)) i n

def freeDirect (x bn : ℕ) : Kern State Unit := do
  let s ← Kern.get
  let a := (s.icache x).d.addrs bn
  if a = 0 then pure ()
  else do
    bfree a
    setInCore x fun v => v.setAddr bn 0

def freeIndirect (x ii : ℕ) : Kern State Unit := do
  let s ← Kern.get
  let a := (s.icache x).d.addrs (SBFS_NDIR + ii)
  if a = 0 then pure ()
  else do
    freeWords a 0 SBFS_NBLK_PER_INDIR
    bfree a
    setInCore x fun v => v.setAddr (SBFS_NDIR + ii) 0

/-- Free an inner index block of the double-indirect tree. -/
def freeInner (outer oi : ℕ) : Kern State Unit := do
  let s ← Kern.get
  let a := (s.data outer).word oi
  if a = 0 then pure ()
  else do
    freeWords a 0 SBFS_NBLK_PER_INDIR
    bfree a

def freeDouble (x : ℕ) : Kern State Unit := do
  let s ← Kern.get
  let a := (s.icache x).d.addrs (SBFS_NDIR + SBFS_NINDIR)
  if a = 0 then pure ()
  else do
    Kern.loop (freeInner a) 0 SBFS_NBLK_PER_INDIR
    bfree a
    setInCore x fun v => v.setAddr (SBFS_NDIR + SBFS_NINDIR) 0

def itrunc (x : ℕ) : Kern State Unit := do
  Kern.loop (freeDirect x) 0 SBFS_NDIR
  Kern.loop (freeIndirect x) 0 SBFS_NINDIR
  freeDouble x
  let s ← Kern.get
  setInCore x fun v => (v.setSize 0).touch s.now
  iupdate x

end Sbunix.Fs
