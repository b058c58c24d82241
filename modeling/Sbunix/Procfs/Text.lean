import Sbunix.Proc.Pcb
import Sbunix.Vm.Regions

/-!
# The text of the files under /proc/<pid>

The producers of `kernel/fs/procfs.c`. Each appends to a buffer of `cap` bytes
and stops when it is full; the buffer is the list of the bytes written so far.
-/

namespace Sbunix.Procfs

open Proc (ProcState Pcb)
open Vm (Vma add64 sub64 pageRoundUp)
open Lib

def cstr (b : List UInt8) : List UInt8 := b.takeWhile (· ≠ 0)

/-- An `int` as `uint64_t`. -/
def asU64 (x : ℤ) : ℕ := (x % 2 ^ 64).toNat

def appendStr (cap : ℕ) (out s : List UInt8) : List UInt8 := out ++ (cstr s).take (cap - out.length)

/-- `if (n < cap) out[n++] = c` -/
def appendChar (cap : ℕ) (out : List UInt8) (c : UInt8) : List UInt8 :=
  if out.length < cap then out ++ [c] else out

/-- `u64_to_dec`: the digits are produced from the last one on, and cut before they are reversed. -/
def u64ToDec (cap v : ℕ) : List UInt8 :=
  let tmp := if v = 0 then [48] else (Nat.digits 10 v).map fun d => UInt8.ofNat (48 + d)
  (tmp.take cap).reverse

def appendU64 (cap : ℕ) (out : List UInt8) (v : ℕ) : List UInt8 :=
  if cap ≤ out.length then out else out ++ u64ToDec (cap - out.length) v

def appendHex16 (cap : ℕ) (out : List UInt8) (v : ℕ) : List UInt8 :=
  let digits := text "0123456789abcdef"
  out ++ ((List.range 16).map fun i => digits.getD (v / 16 ^ (15 - i) % 16) 0).take
    (cap - out.length)

def stateLetter : ProcState → UInt8
  | .ready | .running => 82
  | .sleeping => 83
  | .zombie => 90
  | .stopped => 84
  | .unused => 88

def stateDescriptor : ProcState → List UInt8
  | .ready | .running => text "running"
  | .sleeping => text "sleeping"
  | .zombie => text "zombie"
  | .stopped => text "stopped"
  | .unused => text "dead"

/-- The fields of `struct pcb` that only /proc reads. -/
structure ProcInfo where
  comm : List UInt8
  cwdPath : List UInt8
  exePath : List UInt8
  uid : ℕ
  gid : ℕ
  vmaList : List Vma

structure ProcSnap where
  state : ProcState
  pid : ℤ
  parentPid : ℤ
  pgid : ℤ
  sid : ℤ
  comm : List UInt8
  vmSizeKb : ℕ
  vmStkKb : ℕ
  vmDataKb : ℕ
  vmExeKb : ℕ
  vmSizePages : ℕ
  vmTextPages : ℕ
  vmDataPages : ℕ
  sigPending : ℕ
  sigBlocked : ℕ
  uid : ℕ
  gid : ℕ

/-- The bytes of the VMAs with a property, each with its last page counted whole. -/
def vmaBytes (q : Vma → Bool) (l : List Vma) : ℕ :=
  l.foldl (fun sum v => if q v then add64 sum (sub64 (pageRoundUp v.fin) v.start) else sum) 0

/-- The snapshot that `piddir_file_read` takes with interrupts off. -/
def takeSnap (p : Pcb) (x : ProcInfo) : ProcSnap :=
  let vmBytes := vmaBytes (fun _ => true) x.vmaList
  let stkBytes := vmaBytes (·.type = .stack) x.vmaList
  let textBytes := vmaBytes (·.prot.x) x.vmaList
  let dataBytes := vmaBytes (!·.prot.x) x.vmaList
  { state := p.state, pid := p.pid, parentPid := p.parentPid, pgid := p.pgid, sid := p.sid
    comm := x.comm
    vmSizeKb := vmBytes / 1024
    vmStkKb := stkBytes / 1024
    vmDataKb := sub64 (sub64 vmBytes textBytes) stkBytes / 1024
    vmExeKb := textBytes / 1024
    vmSizePages := vmBytes / 4096
    vmTextPages := textBytes / 4096
    vmDataPages := dataBytes / 4096
    sigPending := p.sigPending.toNat
    sigBlocked := p.sigBlocked.toNat
    uid := x.uid
    gid := x.gid }

/-- The command name, with the default for a process that never called `exec`. -/
def commOr (s : ProcSnap) : List UInt8 := if s.comm.headD 0 ≠ 0 then s.comm else text "proc"

def prodStatus (cap : ℕ) (s : ProcSnap) : List UInt8 :=
  let n := appendStr cap [] (text "Name:\t")
  let n := appendStr cap n (commOr s)
  let n := appendStr cap n (text "\nState:\t")
  let n := appendChar cap n (stateLetter s.state)
  let n := appendStr cap n (text " (")
  let n := appendStr cap n (stateDescriptor s.state)
  let n := appendStr cap n (text ")\nTgid:\t")
  let n := appendU64 cap n (asU64 s.pid)
  let n := appendStr cap n (text "\nPid:\t")
  let n := appendU64 cap n (asU64 s.pid)
  let n := appendStr cap n (text "\nPPid:\t")
  let n := appendU64 cap n (asU64 s.parentPid)
  let n := appendStr cap n (text "\nPgrp:\t")
  let n := appendU64 cap n (asU64 s.pgid)
  let n := appendStr cap n (text "\nPgid:\t")
  let n := appendU64 cap n (asU64 s.pgid)
  let n := appendStr cap n (text "\nSid:\t")
  let n := appendU64 cap n (asU64 s.sid)
  let n := appendStr cap n (text "\nUid:\t")
  let n := appendU64 cap n s.uid
  let n := appendStr cap n (text "\nGid:\t")
  let n := appendU64 cap n s.gid
  let n := appendStr cap n (text "\nVmSize:\t")
  let n := appendU64 cap n s.vmSizeKb
  let n := appendStr cap n (text " kB\nVmStk:\t")
  let n := appendU64 cap n s.vmStkKb
  let n := appendStr cap n (text " kB\nVmData:\t")
  let n := appendU64 cap n s.vmDataKb
  let n := appendStr cap n (text " kB\nVmExe:\t")
  let n := appendU64 cap n s.vmExeKb
  let n := appendStr cap n (text " kB\nKernelStack:\t4 kB\nThreads:\t1\nSigPnd:\t")
  let n := appendHex16 cap n s.sigPending
  let n := appendStr cap n (text "\nSigBlk:\t")
  let n := appendHex16 cap n s.sigBlocked
  appendStr cap n (text "\n")

def prodCmdline (cap : ℕ) (s : ProcSnap) : List UInt8 :=
  appendChar cap (appendStr cap [] (commOr s)) 0

def prodStat (cap : ℕ) (s : ProcSnap) : List UInt8 :=
  let n := appendU64 cap [] (asU64 s.pid)
  let n := appendStr cap n (text " (")
  let n := appendStr cap n (commOr s)
  let n := appendStr cap n (text ") ")
  let n := appendChar cap n (stateLetter s.state)
  let n := appendChar cap n 32
  let n := appendU64 cap n (asU64 s.parentPid)
  appendStr cap n (text " 0 0 0 0 0\n")

def prodStatm (cap : ℕ) (s : ProcSnap) : List UInt8 :=
  let n := appendU64 cap [] s.vmSizePages
  let n := appendStr cap n (text " ")
  let n := appendU64 cap n s.vmSizePages
  let n := appendStr cap n (text " 0 ")
  let n := appendU64 cap n s.vmTextPages
  let n := appendStr cap n (text " 0 ")
  let n := appendU64 cap n s.vmDataPages
  appendStr cap n (text " 0\n")

end Sbunix.Procfs
