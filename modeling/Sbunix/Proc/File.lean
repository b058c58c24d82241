import Sbunix.Proc.Pcb

/-!
# Open files and descriptors

`file.c`, the part of `pipe.c` that allocates and closes, and the system calls
of `syscall.c` that work on a descriptor table. What a call learns from the
parts of the kernel that are not modelled here (the path lookup of `open`, the
copies to user memory) is an argument.
-/

namespace Sbunix.Proc

open Lib

def EBADF : ℤ := 9
def ENOMEM : ℤ := 12
def EFAULT : ℤ := 14
def EINVAL : ℤ := 22
def EMFILE : ℤ := 24

def setAt {α : Type} (f : ℕ → α) (i : ℕ) (a : α) : ℕ → α := fun j => if j = i then a else f j

@[simp] theorem setAt_same {α : Type} (f : ℕ → α) (i : ℕ) (a : α) : setAt f i a i = a := if_pos rfl

theorem setAt_ne {α : Type} (f : ℕ → α) {i j : ℕ} (a : α) (h : j ≠ i) : setAt f i a j = f j :=
  if_neg h

/-- The least index below `n` that satisfies `p`: the scan of a table. -/
def firstBelow (p : ℕ → Bool) (n : ℕ) : Option ℕ := (List.range n).find? p

def Kernel.setFile (k : Kernel) (f : ℕ) (x : File) : Kernel :=
  { k with ftable := setAt k.ftable f x }

def Kernel.setPipe (k : Kernel) (i : ℕ) (x : Pipe) : Kernel :=
  { k with pipes := setAt k.pipes i x }

def filealloc : Kern Kernel (Option ℕ) := fun k =>
  match firstBelow (fun i => (k.ftable i).type = .none) NFILE with
  | none => (some none, k)
  | some i => (some (some i), k.setFile i { k.ftable i with type := .inode, refcnt := 1 })

def filedup (f : ℕ) : Kern Kernel Unit := fun k =>
  if (k.ftable f).refcnt < 1 then (none, k)
  else (some (), k.setFile f { k.ftable f with refcnt := (k.ftable f).refcnt + 1 })

def pipeClose (k : Kernel) (i : ℕ) (writable : Bool) : Kernel :=
  procWakeupChan
    (k.setPipe i (if writable then { k.pipes i with writeopen := false }
      else { k.pipes i with readopen := false })) i

/-- The end of `fileclose` for an entry whose last reference went. The inode's
own count is the business of `inode_put`. -/
def fileRelease (k : Kernel) (f : ℕ) : Kernel :=
  let x := k.ftable f
  let k' := if x.type = .pipe then pipeClose k x.pipe x.writable else k
  k'.setFile f { x with type := .none }

def fileclose (f : ℕ) : Kern Kernel Unit := fun k =>
  let x := k.ftable f
  if x.refcnt < 1 then (none, k)
  else
    let k' := k.setFile f { x with refcnt := x.refcnt - 1 }
    (some (), if x.refcnt - 1 = 0 then fileRelease k' f else k')

def procFdLimit (p : Pcb) : ℕ :=
  if p.rlimNofile = RLIM_INFINITY ∨ NOFILE < p.rlimNofile.toNat then NOFILE
  else p.rlimNofile.toNat

def procOpenFdCount (p : Pcb) : ℕ := (List.range NOFILE).countP fun fd => (p.ofile fd).isSome

def Pcb.setFd (p : Pcb) (fd : ℕ) (f : Option ℕ) : Pcb := { p with ofile := setAt p.ofile fd f }

def Pcb.clearCloexec (p : Pcb) (fd : ℕ) : Pcb :=
  { p with cloexecMask := p.cloexecMask &&& ~~~(1#64 <<< fd) }

def Pcb.setCloexec (p : Pcb) (fd : ℕ) : Pcb :=
  { p with cloexecMask := p.cloexecMask ||| (1#64 <<< fd) }

/-- The slot `alloc_fd` takes. -/
def freeFd (p : Pcb) : Option ℕ := firstBelow (fun fd => (p.ofile fd).isNone) NOFILE

/-- `alloc_fd` for the process `pid`; `none` is `-EMFILE`. -/
def allocFd (pid : ℤ) (f : ℕ) : Kern Kernel (Option ℕ) := fun k =>
  match (k.find pid).bind freeFd with
  | none => (some none, k)
  | some fd => (some (some fd), k.modify pid fun p => p.setFd fd (some f))

/-- The calling process, if its descriptor `fd` is open, and the file behind it. -/
def openFd (k : Kernel) (fd : ℤ) : Option (Pcb × ℕ) :=
  match k.currentProc with
  | none => none
  | some p =>
    if fd < 0 ∨ (NOFILE : ℤ) ≤ fd then none
    else (p.ofile fd.toNat).map fun f => (p, f)

def O_CLOEXEC : BitVec 32 := 0o2000000

/-- The tail of `do_open`, once the path has been resolved (or a file created)
with the outcome `res`; `rc` is the error of a failed lookup. -/
def doOpen (res : Except ℤ Unit) (flags : BitVec 32) : Kern Kernel ℤ := do
  match (← Kern.get).currentProc with
  | none => pure (-EBADF)
  | some p =>
    if procFdLimit p ≤ procOpenFdCount p then pure (-EMFILE)
    else
      match res with
      | .error rc => pure rc
      | .ok _ =>
        match ← filealloc with
        | none => pure (-EMFILE)
        | some f =>
          match ← allocFd p.pid f with
          | none => do
            fileclose f
            pure (-EMFILE)
          | some fd => do
            if flags &&& O_CLOEXEC ≠ 0 then
              Kern.modify fun k => k.modify p.pid fun p => p.setCloexec fd
            pure (fd : ℤ)

def sysClose (fd : ℤ) : Kern Kernel ℤ := do
  match openFd (← Kern.get) fd with
  | none => pure (-EBADF)
  | some (p, f) => do
    fileclose f
    Kern.modify fun k => k.modify p.pid fun p => (p.setFd fd.toNat none).clearCloexec fd.toNat
    pure 0

def sysDup (fd : ℤ) : Kern Kernel ℤ := do
  match openFd (← Kern.get) fd with
  | none => pure (-EBADF)
  | some (p, f) =>
    if procFdLimit p ≤ procOpenFdCount p then pure (-EMFILE)
    else do
      filedup f
      match ← allocFd p.pid f with
      | none => do
        fileclose f
        pure (-EMFILE)
      | some newfd => do
        Kern.modify fun k => k.modify p.pid fun p => p.clearCloexec newfd
        pure (newfd : ℤ)

/-- The end of `sys_dup2`: close what `newfd` had, then point it at `f`. -/
def dup2Onto (pid : ℤ) (f : ℕ) (old : Option ℕ) (newfd : ℕ) : Kern Kernel ℤ := do
  match old with
  | none => pure ()
  | some g => fileclose g
  filedup f
  Kern.modify fun k => k.modify pid fun p => (p.setFd newfd (some f)).clearCloexec newfd
  pure (newfd : ℤ)

def sysDup2 (oldfd newfd : ℤ) : Kern Kernel ℤ := do
  match openFd (← Kern.get) oldfd with
  | none => pure (-EBADF)
  | some (p, f) =>
    if newfd < 0 ∨ (NOFILE : ℤ) ≤ newfd then pure (-EBADF)
    else if oldfd = newfd then pure newfd
    else if (procFdLimit p : ℤ) ≤ newfd then pure (-EBADF)
    else if (p.ofile newfd.toNat).isNone ∧ procFdLimit p ≤ procOpenFdCount p then pure (-EMFILE)
    else dup2Onto p.pid f (p.ofile newfd.toNat) newfd.toNat

/-- `sys_fcntl` with `F_SETFD` -/
def sysFcntlSetfd (fd : ℤ) (arg : BitVec 64) : Kern Kernel ℤ := do
  match openFd (← Kern.get) fd with
  | none => pure (-EBADF)
  | some (p, _) => do
    Kern.modify fun k => k.modify p.pid fun p =>
      if arg &&& 1 ≠ 0 then p.setCloexec fd.toNat else p.clearCloexec fd.toNat
    pure 0

def pipePoolAlloc (k : Kernel) : Option ℕ :=
  firstBelow (fun i => !(k.pipes i).readopen && !(k.pipes i).writeopen) NPIPE

/-- The end of `pipe_alloc`: open both ends of pipe `i` as files `rf` and `wf`. -/
def pipeOpen (k : Kernel) (i rf wf : ℕ) : Kernel :=
  let k := k.setPipe i { readopen := true, writeopen := true }
  let k := k.setFile rf { k.ftable rf with type := .pipe, writable := false, pipe := i }
  k.setFile wf { k.ftable wf with type := .pipe, writable := true, pipe := i }

def pipeAlloc : Kern Kernel (Option (ℕ × ℕ)) := do
  match pipePoolAlloc (← Kern.get) with
  | none => pure none
  | some i =>
    match ← filealloc with
    | none => pure none
    | some rf =>
      match ← filealloc with
      | none => do
        fileclose rf
        pure none
      | some wf => do
        Kern.modify fun k => pipeOpen k i rf wf
        pure (some (rf, wf))

/-- `sys_pipe` behind a successful `pipe_alloc`; `copied` tells whether the two
numbers could be written to the caller's memory. -/
def pipeInstall (pid : ℤ) (rf wf : ℕ) (copied : Bool) : Kern Kernel (ℤ × Option (ℕ × ℕ)) := do
  match ← allocFd pid rf with
  | none => do
    fileclose rf
    fileclose wf
    pure (-EMFILE, none)
  | some fd0 =>
    match ← allocFd pid wf with
    | none => do
      Kern.modify fun k => k.modify pid fun p => p.setFd fd0 none
      fileclose rf
      fileclose wf
      pure (-EMFILE, none)
    | some fd1 =>
      if copied then pure (0, some (fd0, fd1))
      else do
        Kern.modify fun k => k.modify pid fun p => (p.setFd fd0 none).setFd fd1 none
        fileclose rf
        fileclose wf
        pure (-EFAULT, none)

/-- `sys_pipe`: the result and, on success, the two descriptors stored through
`fds`. `fds` is `none` for a null pointer. -/
def sysPipe (fds : Option Bool) : Kern Kernel (ℤ × Option (ℕ × ℕ)) := do
  match fds with
  | none => pure (-EFAULT, none)
  | some copied =>
    match (← Kern.get).currentProc with
    | none => pure (-EBADF, none)
    | some p =>
      if procFdLimit p < procOpenFdCount p + 2 then pure (-EMFILE, none)
      else
        match ← pipeAlloc with
        | none => pure (-ENOMEM, none)
        | some (rf, wf) => pipeInstall p.pid rf wf copied

end Sbunix.Proc
