import Sbunix.Lib.Kern

/-!
# Processes and the kernel's process table

The fields of `struct pcb` that scheduling, signals and descriptors use, and
the list `procs` that every loop of `proc.c` and `signal.c` walks. A process is
named by its pid: the pids of the list are pairwise distinct, so updating the
process with a given pid is the update through its pointer.
-/

namespace Sbunix.Proc

inductive ProcState
  | unused | ready | running | sleeping | zombie | stopped
  deriving DecidableEq, Repr

/-- `sa_handler`, `sa_mask`, `sa_flags`, `sa_restorer` of `struct sigaction`. -/
structure SigAction where
  handler : BitVec 64
  mask : BitVec 64
  flags : BitVec 32
  restorer : BitVec 64
  deriving DecidableEq

/-- `stack_t`, the alternate signal stack. -/
structure SigStack where
  sp : BitVec 64
  flags : BitVec 32
  size : BitVec 64
  deriving DecidableEq

/-- The 36 words of the trap frame at the top of the kernel stack. -/
abbrev TrapFrame := ℕ → BitVec 64

/-- What the saved context of a process continues with when the scheduler
switches to it; `user` for the process that executes user instructions. -/
inductive Resume
  -- `forkret`, the first run of a spawned process
  | forkret
  -- `fork_child_return`, the first run of a forked child
  | forkChildReturn
  -- inside `trap_handler`, before the signal check of the return path
  | trap
  -- inside `check_signals`, behind `proc_stop_current`; the flag tells whether
  -- the trap handler goes on with `check_user_return`
  | stop (check : Bool)
  | user
  deriving DecidableEq, Repr

structure Pcb where
  pid : ℤ
  generation : ℕ
  parentPid : ℤ
  exitStatus : ℤ
  state : ProcState
  pgid : ℤ
  sid : ℤ
  lastSignal : ℕ
  stoppedReported : Bool
  continuedPending : Bool
  didExec : Bool
  isUser : Bool
  wakeTick : ℕ
  alarmTick : ℕ
  sleepChan : Option ℕ
  ofile : ℕ → Option ℕ
  cloexecMask : BitVec 64
  sigPending : BitVec 64
  sigBlocked : BitVec 64
  sigSuspendSavedMask : BitVec 64
  sigSuspendActive : Bool
  sigHandlers : ℕ → SigAction
  sigAltstack : SigStack
  rlimNofile : BitVec 64
  rlimNproc : BitVec 64
  utimeTicks : BitVec 64
  stimeTicks : BitVec 64
  cutimeTicks : BitVec 64
  cstimeTicks : BitVec 64
  tf : TrapFrame
  resume : Resume

inductive FileType
  | none | inode | pipe
  deriving DecidableEq, Repr

/-- The fields of `struct file` that opening and closing use. -/
structure File where
  type : FileType
  refcnt : ℕ
  writable : Bool
  pipe : ℕ

/-- `readopen` and `writeopen` of `struct pipe`. -/
structure Pipe where
  readopen : Bool
  writeopen : Bool

structure Kernel where
  procs : List Pcb
  current : Option ℤ
  nextPid : ℤ
  initPid : ℤ
  generationSeq : ℕ
  ticks : ℕ
  termSession : ℤ
  termFgPgid : ℤ
  ftable : ℕ → File
  pipes : ℕ → Pipe

def NSIG : ℕ := 32
def NOFILE : ℕ := 64
def NFILE : ℕ := 256
def NPIPE : ℕ := 8
def INT_MAX : ℤ := 2147483647
def RLIM_INFINITY : BitVec 64 := BitVec.allOnes 64
def USER_STACK_TOP : BitVec 64 := 0x4000000000
def KVMEM_OFFSET : BitVec 64 := 0xFFFFFFFF00000000

variable {q : Pcb} {P : Pcb → Prop}

namespace Kernel

def find (k : Kernel) (pid : ℤ) : Option Pcb := k.procs.find? (·.pid = pid)

def modify (k : Kernel) (pid : ℤ) (g : Pcb → Pcb) : Kernel :=
  { k with procs := k.procs.map fun p => if p.pid = pid then g p else p }

def modifyAll (k : Kernel) (g : Pcb → Pcb) : Kernel := { k with procs := k.procs.map g }

def currentProc (k : Kernel) : Option Pcb := k.current.bind k.find

variable {k : Kernel} {pid : ℤ} {g : Pcb → Pcb} {p : Pcb}

theorem find_mem (h : k.find pid = some p) : p ∈ k.procs ∧ p.pid = pid := by
  unfold find at h
  exact ⟨List.mem_of_find?_eq_some h, by simpa using List.find?_some h⟩

theorem mem_modify :
    q ∈ (k.modify pid g).procs ↔ ∃ p ∈ k.procs, (if p.pid = pid then g p else p) = q := by
  simp [modify]

theorem mem_modifyAll : q ∈ (k.modifyAll g).procs ↔ ∃ p ∈ k.procs, g p = q := by
  simp [modifyAll]

@[simp] theorem modify_current : (k.modify pid g).current = k.current := rfl

def All (P : Pcb → Prop) (k : Kernel) : Prop := ∀ p ∈ k.procs, P p

theorem All.modify (h : k.All P) (hg : ∀ p ∈ k.procs, p.pid = pid → P p → P (g p)) :
    (k.modify pid g).All P := by
  intro q hq
  obtain ⟨p, hp, rfl⟩ := mem_modify.mp hq
  split
  · next he => exact hg p hp he (h p hp)
  · exact h p hp

theorem All.modifyAll (h : k.All P) (hg : ∀ p ∈ k.procs, P p → P (g p)) :
    (k.modifyAll g).All P := by
  intro q hq
  obtain ⟨p, hp, rfl⟩ := mem_modifyAll.mp hq
  exact hg p hp (h p hp)

end Kernel

def procWakeup (k : Kernel) (pid : ℤ) : Kernel :=
  k.modify pid fun p => if p.state = .sleeping then { p with state := .ready } else p

def procWakeupChan (k : Kernel) (chan : ℕ) : Kernel :=
  k.modifyAll fun p =>
    if p.state = .sleeping ∧ p.sleepChan = some chan then { p with state := .ready } else p

end Sbunix.Proc
