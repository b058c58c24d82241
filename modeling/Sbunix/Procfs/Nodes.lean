import Sbunix.Proc.Machine
import Sbunix.Procfs.Text

/-!
# The nodes of /proc/<pid>

A lookup of a pid, or of a name in the directory of one, makes an inode in a pool
of 64. The inode keeps the pid and the generation of the process and lives as
long as somebody holds a reference, whatever becomes of the process. Nodes are
looked up, read and put back between the steps of the processes.
-/

namespace Sbunix.Procfs

open Option

open Proc (Kernel Pcb)
open Lib

def ENOENT : ℤ := 2
def ESRCH : ℤ := 3
def ENOMEM : ℤ := 12
def ENOTDIR : ℤ := 20
def EISDIR : ℤ := 21

/-- `enum proc_kind`, as far as nodes have it. -/
inductive ProcKind
  | piddir | status | cmdline | stat | statm | cwd | exe | root
  deriving DecidableEq, Repr

/-- `struct proc_node`; the reference count is that of its inode. -/
structure ProcNode where
  kind : ProcKind
  pid : ℤ
  generation : ℕ
  inUse : Bool
  refcnt : ℕ

abbrev Name := List UInt8

def PROC_INODE_POOL : ℕ := 64

structure World where
  k : Kernel
  /-- what only /proc reads of a process, by pid -/
  info : ℤ → ProcInfo
  pool : ℕ → ProcNode
  /-- the process instance each node was looked up for, which the code does not store -/
  owner : ℕ → ℕ

/-! ### Reading through a node -/

def procFindByPid (k : Kernel) (pid : ℤ) : Option Pcb :=
  k.procs.find? fun p => p.pid = pid ∧ p.state ≠ .unused

/-- The process of a node: the one with its pid, if it has the generation as well. -/
def nodePcb (w : World) (pn : ProcNode) : Option Pcb :=
  match procFindByPid w.k pn.pid with
  | none => none
  | some pcb => if pcb.generation ≠ pn.generation then none else some pcb

/-- The producer for a kind of node, with its buffer of 512 bytes. -/
def fileText (kind : ProcKind) (s : ProcSnap) : Option (List UInt8) :=
  match kind with
  | .status => some (prodStatus 512 s)
  | .cmdline => some (prodCmdline 512 s)
  | .stat => some (prodStat 512 s)
  | .statm => some (prodStatm 512 s)
  | _ => none

/-- A `uint64_t` as `int`. -/
def asInt32 (n : ℕ) : ℤ := if n % 2 ^ 32 < 2 ^ 31 then n % 2 ^ 32 else n % 2 ^ 32 - 2 ^ 32

/-- What a read of `n` bytes at `off` returns of a text, and the bytes it stores. -/
def window (t : List UInt8) (off n : ℕ) : ℤ × List UInt8 :=
  if t.length ≤ off then (0, [])
  else
    let copy : ℤ := t.length - off
    let copy := if asInt32 n < copy then asInt32 n else copy
    (copy, (t.drop off).take copy.toNat)

def piddirFileRead (w : World) (pn : ProcNode) (off n : ℕ) : ℤ × List UInt8 :=
  match nodePcb w pn with
  | none => (-ESRCH, [])
  | some pcb =>
    match fileText pn.kind (takeSnap pcb (w.info pcb.pid)) with
    | none => (-ENOENT, [])
    | some t => window t off n

/-- `pcb_link_target`: the length of the target and the string stored. -/
def pcbLinkTarget (w : World) (pn : ProcNode) (cap : ℕ) : ℤ × List UInt8 :=
  if cap = 0 then (0, [])
  else if pn.kind = .root then (1, if 2 ≤ cap then text "/" else [])
  else
    match nodePcb w pn with
    | none => (-ESRCH, [])
    | some pcb =>
      let src := if pn.kind = .cwd then (w.info pcb.pid).cwdPath else (w.info pcb.pid).exePath
      let s := cstr (src.take 256)
      (s.length, s.take (cap - 1))

def piddirLinkReadlink (w : World) (pn : ProcNode) (n : ℕ) : ℤ × List UInt8 :=
  let (slen, target) := pcbLinkTarget w pn 256
  if slen < 0 then (slen, [])
  else
    let copy := if 255 < slen.toNat then 255 else slen.toNat
    let copy := if n < copy then n else copy
    (copy, target.take copy)

/-- The part of `struct stat` that is not the same for every node. -/
structure Stat where
  ino : ℕ
  mode : ℕ
  size : ℕ
  blocks : ℕ
  deriving DecidableEq

def S_IFDIR : ℕ := 0x4000
def S_IFREG : ℕ := 0x8000
def S_IFLNK : ℕ := 0xA000

/-- The mode that `piddir_make`, `piddir_file_make` and `piddir_link_make` give an inode. -/
def ProcKind.mode : ProcKind → ℕ
  | .piddir => S_IFDIR + 0o555
  | .status | .cmdline | .stat | .statm => S_IFREG + 0o444
  | .cwd | .exe | .root => S_IFLNK + 0o777

def fileStatGeneric (i : ℕ) (pn : ProcNode) : ℤ × Option Stat := (0, some ⟨i, pn.kind.mode, 0, 0⟩)

def piddirLinkStat (w : World) (i : ℕ) (pn : ProcNode) : ℤ × Option Stat :=
  let slen := (pcbLinkTarget w pn 256).1
  if slen < 0 then (slen, none)
  else (0, some ⟨i, pn.kind.mode, slen.toNat, (slen.toNat + 511) / 512⟩)

/-- The names in the directory of a process, with the kinds of the nodes. -/
def ents : List (Name × ProcKind) :=
  [(text "status", .status), (text "cmdline", .cmdline), (text "stat", .stat),
    (text "statm", .statm),
    (text "cwd", .cwd), (text "exe", .exe), (text "root", .root)]

def DT_REG : ℕ := 8
def DT_LNK : ℕ := 10

/-- `struct dirent64` -/
structure Dirent where
  ino : ℕ
  off : ℕ
  reclen : ℕ
  type : ℕ
  name : Name
  deriving DecidableEq

/-- `emit_dirent`: the return value, the record and the next offset. -/
def emitDirent (n off ino dt : ℕ) (name : Name) : ℤ × Option Dirent × ℕ :=
  let reclen := (19 + (name.length + 1) + 7) / 8 * 8
  if n < reclen then (0, none, off)
  else (reclen, some ⟨ino, off + 1, reclen, dt, name⟩, off + 1)

/-- `piddir_getdents` of the node in place `i`. -/
def piddirGetdents (i off n : ℕ) : ℤ × Option Dirent × ℕ :=
  match ents[off]? with
  | none => (0, none, off)
  | some (name, kind) =>
    emitDirent n off i (if kind = .cwd ∨ kind = .exe ∨ kind = .root then DT_LNK else DT_REG) name

/-- What is asked of a node. -/
inductive Op
  | read (off n : ℕ)
  | getdents (off n : ℕ)
  | readlink (n : ℕ)
  | stat

/-- What it answers: the return value and what is stored for the caller. -/
inductive Answer
  -- the operations of the inode have no such entry
  | unsupported
  | bytes (r : ℤ × List UInt8)
  | entry (r : ℤ × Option Dirent × ℕ)
  | stat (r : ℤ × Option Stat)
  deriving DecidableEq

/-- The call fails. -/
def Answer.failed : Answer → Prop
  | .unsupported => True
  | .bytes r => r.1 < 0
  | .entry r => r.1 < 0
  | .stat r => r.1 < 0

/-- An operation on the node in place `i`, by `piddir_ops`, `piddir_file_ops` and `piddir_link_ops`.
-/
def perform (w : World) (i : ℕ) (op : Op) : Answer :=
  let pn := w.pool i
  match pn.kind, op with
  | .piddir, .read _ _ => .bytes (-EISDIR, [])
  | .piddir, .getdents off n => .entry (piddirGetdents i off n)
  | .piddir, .readlink _ => .unsupported
  | .piddir, .stat => .stat (fileStatGeneric i pn)
  | .cwd, .readlink n | .exe, .readlink n | .root, .readlink n => .bytes (piddirLinkReadlink w pn n)
  | .cwd, .stat | .exe, .stat | .root, .stat => .stat (piddirLinkStat w i pn)
  | .cwd, _ | .exe, _ | .root, _ => .unsupported
  | _, .read off n => .bytes (piddirFileRead w pn off n)
  | _, .getdents off _ => .entry (-ENOTDIR, none, off)
  | _, .readlink _ => .unsupported
  | _, .stat => .stat (fileStatGeneric i pn)

/-! ### Making and releasing nodes -/

def setNode (w : World) (i : ℕ) (pn : ProcNode) : World :=
  { w with pool := Function.update w.pool i pn }

/-- `pool_alloc`, and the fields that the three makers store. -/
def makeNode (w : World) (kind : ProcKind) (pid : ℤ) (generation owner : ℕ) : Except ℤ ℕ × World :=
  match firstFrom (fun i => !(w.pool i).inUse) 0 PROC_INODE_POOL with
  | none => (.error (-ENOMEM), w)
  | some i => (.ok i, { setNode w i ⟨kind, pid, generation, true, 1⟩ with
      owner := Function.update w.owner i owner })

def parsePid (name : Name) : Option ℤ :=
  if name = [] then none
  else
    name.foldl (fun v c => v.bind fun v =>
      if c < 48 ∨ 57 < c then none
      else
        let digit : ℤ := c.toNat - 48
        if v > (2147483647 - digit) / 10 then none else some (v * 10 + digit)) (some 0)

def rootNames : List Name :=
  [text ".", text "..", text "self", text "uptime", text "meminfo", text "version", text "cpuinfo"]

/-- `proc_root_lookup`; `none` for one of the inodes that are always there. -/
def procRootLookup (w : World) (name : Name) : Except ℤ (Option ℕ) × World :=
  if name ∈ rootNames then (.ok none, w)
  else
    match parsePid name with
    | none => (.error (-ENOENT), w)
    | some pid =>
      match procFindByPid w.k pid with
      | none => (.error (-ENOENT), w)
      | some pcb =>
        let (r, w') := makeNode w .piddir pid pcb.generation pcb.generation
        (r.map some, w')

def inodeGet (w : World) (i : ℕ) : World :=
  setNode w i { w.pool i with refcnt := (w.pool i).refcnt + 1 }

/-- `inode_put`: the last reference gives the node back to the pool. -/
def inodePut (w : World) (i : ℕ) : World :=
  let pn := w.pool i
  setNode w i { pn with refcnt := pn.refcnt - 1, inUse := pn.inUse && decide (pn.refcnt - 1 ≠ 0) }

def piddirLookup (w : World) (i : ℕ) (name : Name) : Except ℤ (Option ℕ) × World :=
  if name = text "." then (.ok (some i), inodeGet w i)
  else if name = text ".." then (.ok none, w)
  else
    match ents.lookup name with
    | none => (.error (-ENOENT), w)
    | some kind =>
      let pn := w.pool i
      let (r, w') := makeNode w kind pn.pid pn.generation (w.owner i)
      (r.map some, w')

/-! ### Runs -/

inductive Label
  | kernel (l : Proc.Label)
  | root (name : Name)
  | lookup (i : ℕ) (name : Name)
  | get (i : ℕ)
  | put (i : ℕ)

def Held (w : World) (i : ℕ) : Prop := 0 < (w.pool i).refcnt

inductive Step : World → Label → World → Prop
  -- a step of the processes, which may store to what /proc reads as it likes
  | kernel {w : World} {l : Proc.Label} {k' : Kernel} (info' : ℤ → ProcInfo) : Proc.Step w.k l k' →
    Step w (.kernel l) { w with k := k', info := info' }
  | root (w : World) (name : Name) : Step w (.root name) (procRootLookup w name).2
  | lookup {w : World} {i : ℕ} (name : Name) : Held w i → (w.pool i).kind = .piddir →
    Step w (.lookup i name) (piddirLookup w i name).2
  | get {w : World} {i : ℕ} : Held w i → Step w (.get i) (inodeGet w i)
  | put {w : World} {i : ℕ} : Held w i → Step w (.put i) (inodePut w i)

/-- The machine at boot; no node is in use. -/
def bootWorld (pid : ℤ) (entry sp : BitVec 64) (info : ℤ → ProcInfo) : World where
  k := Proc.bootKernel pid entry sp
  info := info
  pool := fun _ => ⟨.piddir, 0, 0, false, 0⟩
  owner := fun _ => 0

instance (w : World) (i : ℕ) : Decidable (Held w i) := inferInstanceAs (Decidable (0 < _))

/-- Take a step, with what /proc reads left alone. -/
def next (w : World) : Label → Option World
  | .kernel l => (Proc.runLabels [l] w.k).map fun k' => { w with k := k' }
  | .root name => some (procRootLookup w name).2
  | .lookup i name =>
    if Held w i ∧ (w.pool i).kind = .piddir then some (piddirLookup w i name).2 else none
  | .get i => if Held w i then some (inodeGet w i) else none
  | .put i => if Held w i then some (inodePut w i) else none

theorem next_step {w w' : World} {l : Label} (h : next w l = some w') : Step w l w' := by
  cases l with
  | kernel l =>
    obtain ⟨k', hk, rfl⟩ := map_eq_some_iff.mp h
    exact .kernel w.info (Proc.runLabels_single hk)
  | root name =>
    cases h
    exact .root w name
  | lookup i name =>
    obtain ⟨⟨hheld, hkind⟩, h⟩ := ite_none_right_eq_some.mp h
    cases h
    exact .lookup name hheld hkind
  | get i =>
    obtain ⟨hheld, h⟩ := ite_none_right_eq_some.mp h
    cases h
    exact .get hheld
  | put i =>
    obtain ⟨hheld, h⟩ := ite_none_right_eq_some.mp h
    cases h
    exact .put hheld

def runWorld : List Label → World → Option World
  | [], w => some w
  | l :: ls, w => (next w l).bind (runWorld ls)

theorem runWorld_reaches {ls : List Label} {w w' : World} (h : runWorld ls w = some w') :
    Lib.Reaches Step (fun _ _ => True) w w' :=
  Lib.reaches_of_run (fun _ => rfl) (fun _ _ _ => (if_pos trivial).symm) next_step h

end Sbunix.Procfs
