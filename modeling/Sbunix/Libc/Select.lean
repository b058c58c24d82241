import Sbunix.Pipe.Model

/-!
# Waiting for pipes

`select` of `libc/select.c` on the kernel's pipes. It asks `fcntl` and `fstat`: a read
end is ready if bytes are buffered, a write end always. So it misses the end of file,
and it promises room in a full pipe. A set that is not passed is the empty one.
-/

namespace Sbunix.Libc.Select

open Lib Pipe Proc

inductive Fmt
  | reg | dir | chr | fifo | other
  deriving DecidableEq

structure Stat where
  fmt : Fmt
  size : ℕ

/-- An open file that is not a pipe: its flags, and what its inode answers to `stat`. -/
structure Plain where
  readable : Bool
  writable : Bool
  stat : Option Stat

/-- The kernel at one poll, and the files that are not pipes. -/
structure View where
  world : World
  plain : ℕ → Plain

abbrev FdSet := ℕ → Bool

inductive Errno
  | EINVAL
  | EBADF

structure Ready where
  count : ℕ
  rfds : FdSet
  wfds : FdSet

section

variable (pid : ℤ)

def openFile (v : View) (fd : ℕ) : Option ℕ :=
  if fd < NOFILE then (v.world.k.find pid).bind (·.ofile fd) else none

/-- `fcntl(fd, F_GETFL)`, without `O_APPEND`. -/
def getfl (v : View) (fd : ℕ) : Option ℕ :=
  (openFile pid v fd).map fun f =>
    let file := v.world.k.ftable f
    let (readable, writable) := if file.type = .pipe then (!file.writable, file.writable)
      else ((v.plain f).readable, (v.plain f).writable)
    if readable && writable then 2 else if writable then 1 else 0

def fstat (v : View) (fd : ℕ) : Option Stat :=
  (openFile pid v fd).bind fun f =>
    let file := v.world.k.ftable f
    if file.type = .pipe then some ⟨.fifo, (v.world.ring file.pipe).count⟩ else (v.plain f).stat

def fdReadReady (v : View) (fd : ℕ) : ℤ :=
  match getfl pid v fd, fstat pid v fd with
  | some _, some st =>
    if st.fmt = .reg ∨ st.fmt = .dir ∨ st.fmt = .chr then 1 else if 0 < st.size then 1 else 0
  | _, _ => -1

def fdWriteReady (v : View) (fd : ℕ) : ℤ :=
  match getfl pid v fd with
  | none => -1
  | some fl => if fl % 4 = 0 then 0 else 1

/-- One round of `for (;;)`. -/
def poll (nfds : ℕ) (inR inW : FdSet) (v : View) : Ready :=
  let outR := fun fd => decide (fd < nfds) && inR fd && decide (0 < fdReadReady pid v fd)
  let outW := fun fd => decide (fd < nfds) && inW fd && decide (0 < fdWriteReady pid v fd)
  ⟨(List.range nfds).countP outR + (List.range nfds).countP outW, outR, outW⟩

variable {pid} {nfds : ℕ} {inR inW : FdSet} {deadline : ℤ} {views : ℕ → View} {v : View}
    {r : Ready} {fd i : ℕ}

/-- The poll in round `n` is the last one. -/
def Ends (pid : ℤ) (nfds : ℕ) (inR inW : FdSet) (deadline : ℤ) (views : ℕ → View) (n : ℕ) : Prop :=
  0 < (poll pid nfds inR inW (views n)).count ∨ 0 ≤ deadline ∧ deadline ≤ n

end

end Sbunix.Libc.Select
