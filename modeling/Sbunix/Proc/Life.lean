import Sbunix.Proc.File
import Sbunix.Proc.Send

/-!
# Creating, ending and reaping processes

`proc.c`: `alloc_proc`, `proc_fork_current`, `proc_exit_current`,
`proc_wait4_current`, `proc_destroy`, and the sweep of `exec` over signals and
descriptors. Address spaces are not modelled here; whether copying one
succeeds is an argument.
-/

namespace Sbunix.Proc

open Lib

def ECHILD : ℤ := 10
def EAGAIN : ℤ := 11
def EINTR : ℤ := 4
def ERESTARTSYS : ℤ := 512

def SS_DISABLE : BitVec 32 := 2

def defaultSigAction : SigAction := ⟨SIG_DFL, 0, 0, 0⟩

def noAltstack : SigStack := ⟨0, SS_DISABLE, 0⟩

/-- The process control block as `alloc_proc` fills it. -/
def newPcb (pid : ℤ) (generation : ℕ) : Pcb where
  pid := pid
  generation := generation
  parentPid := 0
  exitStatus := 0
  state := .unused
  pgid := pid
  sid := pid
  lastSignal := 0
  stoppedReported := false
  continuedPending := false
  didExec := false
  isUser := false
  wakeTick := 0
  alarmTick := 0
  sleepChan := none
  ofile := fun _ => none
  cloexecMask := 0
  sigPending := 0
  sigBlocked := 0
  sigSuspendSavedMask := 0
  sigSuspendActive := false
  sigHandlers := fun _ => defaultSigAction
  sigAltstack := noAltstack
  rlimNofile := 64
  rlimNproc := RLIM_INFINITY
  utimeTicks := 0
  stimeTicks := 0
  cutimeTicks := 0
  cstimeTicks := 0
  tf := fun _ => 0
  resume := .forkret

def pidTaken (k : Kernel) (c : ℤ) : Bool := k.procs.any fun q => q.state ≠ .unused ∧ q.pid = c

/-- The search for a free pid, for at most the given number of rounds; the
increment wraps as a 32-bit `int`. -/
def pickPid (k : Kernel) : ℕ → ℤ → Option ℤ
  | 0, _ => none
  | n + 1, c =>
    let c := if c ≤ 0 then 1 else c
    if pidTaken k c then pickPid k n (if c = INT_MAX then -INT_MAX - 1 else c + 1) else some c

/-- The pid and generation that `alloc_proc` hands out, and the counters behind
them. With fewer processes than pids a round per process and one more is enough
(`pickPid_isSome`); otherwise the search does not end. -/
def allocPid : Kern Kernel (ℤ × ℕ) := fun k =>
  match pickPid k (k.procs.length + 1) k.nextPid with
  | none => (none, k)
  | some c =>
    (some (c, k.generationSeq + 1),
      { k with nextPid := if INT_MAX ≤ c then 1 else c + 1, generationSeq := k.generationSeq + 1 })

/-- `child`'s descriptors are the parent's, each with one more reference. -/
def dupFds (ofile : ℕ → Option ℕ) : Kern Kernel Unit :=
  Kern.loop (fun fd => match ofile fd with
    | none => pure ()
    | some f => filedup f) 0 NOFILE

/-- Close every descriptor of a process that is no longer in the table. -/
def closeOrphan (ofile : ℕ → Option ℕ) : Kern Kernel Unit :=
  Kern.loop (fun fd => match ofile fd with
    | none => pure ()
    | some f => fileclose f) 0 NOFILE

/-- Close descriptor `fd` of the process `pid`, if it is open. -/
def closeFd (pid : ℤ) (fd : ℕ) : Kern Kernel Unit := do
  match ((← Kern.get).find pid).bind (·.ofile fd) with
  | none => pure ()
  | some f => do
    fileclose f
    Kern.modify fun k => k.modify pid fun p => p.setFd fd none

/-- Close those descriptors of the process `pid` that `sel` selects. -/
def closeFds (pid : ℤ) (sel : ℕ → Bool) : Kern Kernel Unit :=
  Kern.loop (fun fd => if sel fd then closeFd pid fd else pure ()) 0 NOFILE

/-- How far `fork` gets: the allocation that fails, if one does. -/
inductive ForkEnv
  | noPcb | noPgtable | noVmas | ok
  deriving DecidableEq

/-- The number of processes that count against `RLIMIT_NPROC`. -/
def liveCount (k : Kernel) : ℕ :=
  k.procs.countP fun q => q.state ≠ .unused ∧ q.state ≠ .zombie ∧ q.pid ≠ 1

def TF_RA : ℕ := 0
def TF_SP : ℕ := 1
def TF_A0 : ℕ := 9
def TF_SEPC : ℕ := 31
def TF_SSTATUS : ℕ := 32

/-- The child as `proc_fork_current` leaves it. -/
def forkChild (parent : Pcb) (pid : ℤ) (generation : ℕ) : Pcb :=
  { newPcb pid generation with
    parentPid := parent.pid
    state := .ready
    pgid := parent.pgid
    sid := parent.sid
    isUser := true
    ofile := parent.ofile
    cloexecMask := parent.cloexecMask
    sigBlocked := parent.sigBlocked
    sigHandlers := parent.sigHandlers
    sigAltstack := parent.sigAltstack
    rlimNofile := parent.rlimNofile
    rlimNproc := parent.rlimNproc
    tf := setAt parent.tf TF_A0 0
    resume := .forkChildReturn }

/-- `proc_fork_current` behind `alloc_proc`. -/
def forkInto (parent : Pcb) (env : ForkEnv) (pid : ℤ) (generation : ℕ) : Kern Kernel ℤ := do
  match env with
  | .noPcb => pure (-ENOMEM)
  | .noPgtable => pure (-ENOMEM)
  | .noVmas => do
    dupFds parent.ofile
    closeOrphan parent.ofile
    pure (-ENOMEM)
  | .ok => do
    dupFds parent.ofile
    Kern.modify fun k => { k with procs := k.procs ++ [forkChild parent pid generation] }
    pure pid

def procForkCurrent (env : ForkEnv) : Kern Kernel ℤ := do
  let k ← Kern.get
  match k.currentProc with
  | none => pure (-1)
  | some parent =>
    if parent.isUser = false then pure (-1)
    else if parent.rlimNproc ≠ RLIM_INFINITY ∧ parent.rlimNproc.toNat ≤ liveCount k then
      pure (-EAGAIN)
    else if env = .noPcb then pure (-ENOMEM)
    else do
      let (pid, generation) ← allocPid
      forkInto parent env pid generation

def reparentTo (k : Kernel) : ℤ := if k.initPid ≠ 0 then k.initPid else 1

/-- A child of `pid` gets the parent `dst`. -/
def Pcb.reparented (pid dst : ℤ) (q : Pcb) : Pcb :=
  if q.parentPid = pid then { q with parentPid := dst } else q

/-- Hand the children of `pid` to init, and wake it if there are any. -/
def reparent (k : Kernel) (pid : ℤ) : Kernel :=
  let k' := k.modifyAll (Pcb.reparented pid (reparentTo k))
  if k.procs.any (·.parentPid = pid) then procWakeup k' (reparentTo k) else k'

/-- The exit of a session leader hangs up its session. -/
def hangup (k : Kernel) (p : Pcb) : Kernel :=
  if p.pid = p.sid ∧ k.termSession = p.sid then
    { sendEach (fun q => q.pid ≠ p.pid ∧ q.state ≠ .unused ∧ q.sid = p.sid) [SIGHUP, SIGCONT] k
      with termSession := 0, termFgPgid := 0 }
  else k

def notifyParent (k : Kernel) (pid : ℤ) : Kernel := procWakeup (sendChld k pid) pid

def Pcb.exiting (status : ℤ) (q : Pcb) : Pcb := { q with exitStatus := status }

def Pcb.dead (q : Pcb) : Pcb := { q with state := .zombie }

/-- The last stores of `proc_exit_current`. -/
def becomeZombie (k : Kernel) (p : Pcb) : Kernel :=
  (notifyParent (hangup k p) p.parentPid).modify p.pid Pcb.dead

/-- `proc_exit_current`; `true` if the caller is gone, `false` if the call
returned because the current process was not running. -/
def procExitCurrent (status : ℤ) : Kern Kernel Bool := do
  match (← Kern.get).currentProc with
  | none => pure false
  | some p =>
    if p.state ≠ .running then pure false
    else do
      Kern.modify fun k =>
        reparent (k.modify p.pid (Pcb.exiting status)) p.pid
      closeFds p.pid fun _ => true
      Kern.modify fun k => becomeZombie k p
      pure true

/-- `proc_destroy` without the address space. -/
def procDestroy (p : Pcb) : Kern Kernel Unit := do
  if (← Kern.get).current = some p.pid then Kern.panic
  else do
    Kern.modify fun k => { k with procs := k.procs.filter (·.pid ≠ p.pid) }
    closeOrphan p.ofile

def WNOHANG : BitVec 32 := 1
def WUNTRACED : BitVec 32 := 2
def WCONTINUED : BitVec 32 := 8

def wait4Match (child parent : Pcb) (pid : ℤ) : Bool :=
  if 0 < pid then child.pid = pid
  else if pid = 0 then child.pgid = parent.pgid
  else if pid = -1 then true
  else child.pgid = -pid

/-- The children that one pass of `proc_wait4_current` looks at. -/
def waitable (me : Pcb) (pid : ℤ) (p : Pcb) : Bool := p.parentPid = me.pid && wait4Match p me pid

/-- The child ends the pass: it is a zombie, or there is something to report. -/
def reportable (options : BitVec 32) (p : Pcb) : Bool :=
  p.state = .zombie ||
    (options &&& WUNTRACED ≠ 0 && p.state = .stopped && !p.stoppedReported) ||
    (options &&& WCONTINUED ≠ 0 && p.continuedPending)

inductive WaitResult
  -- a zombie is reaped: its pid and exit status are returned
  | reaped (child : Pcb)
  -- a stop or continuation is reported
  | reported (pid status : ℤ)
  | failed (r : ℤ)
  -- `proc_sleep`: the pass is repeated when the process runs again
  | slept

def Pcb.absorb (child q : Pcb) : Pcb :=
  { q with
    cutimeTicks := q.cutimeTicks + (child.utimeTicks + child.cutimeTicks)
    cstimeTicks := q.cstimeTicks + (child.stimeTicks + child.cstimeTicks) }

def Pcb.stopSeen (q : Pcb) : Pcb := { q with stoppedReported := true }

def Pcb.continueSeen (q : Pcb) : Pcb := { q with continuedPending := false }

def Pcb.asleep (q : Pcb) : Pcb := { q with state := .sleeping }

/-- Take the child `p` out of the pass it ended. -/
def wait4Take (me : Pcb) (options : BitVec 32) (p : Pcb) : Kern Kernel WaitResult := do
  if p.state = .zombie then do
    Kern.modify fun k => k.modify me.pid (Pcb.absorb p)
    procDestroy p
    pure (.reaped p)
  else if options &&& WUNTRACED ≠ 0 ∧ p.state = .stopped ∧ p.stoppedReported = false then do
    Kern.modify fun k => k.modify p.pid Pcb.stopSeen
    pure (.reported p.pid ((p.lastSignal % 256 * 256 + 127 : ℕ) : ℤ))
  else do
    Kern.modify fun k => k.modify p.pid Pcb.continueSeen
    pure (.reported p.pid 65535)

/-- True if the signal would have no observable effect: `sig_is_no_op`. -/
def sigIsNoOp (p : Pcb) (i : ℕ) : Bool :=
  let h := (p.sigHandlers i).handler
  h = SIG_IGN || (h = SIG_DFL && (defaultAction i = .ign || defaultAction i = .cont))

/-- `pending & ~blocked` at bit `i` -/
def deliverable (p : Pcb) (i : ℕ) : Bool := (p.sigPending &&& ~~~p.sigBlocked).getLsbD i

def sigHasActionable (p : Pcb) : Bool :=
  (List.range NSIG).any fun i => 0 < i && deliverable p i && !sigIsNoOp p i

/-- One pass of the loop of `proc_wait4_current`. -/
def wait4Pass (pid : ℤ) (options : BitVec 32) : Kern Kernel WaitResult := do
  let k ← Kern.get
  match k.currentProc with
  | none => pure (.failed (-ECHILD))
  | some me =>
    match k.procs.find? fun p => waitable me pid p && reportable options p with
    | some p => wait4Take me options p
    | none =>
      if k.procs.any (waitable me pid) = false then pure (.failed (-ECHILD))
      else if options &&& WNOHANG ≠ 0 then pure (.failed 0)
      else if sigHasActionable me then pure (.failed (-ERESTARTSYS))
      else do
        Kern.modify fun k => k.modify me.pid Pcb.asleep
        pure .slept

/-- What `SYS_wait4` returns for the result of a pass that did not sleep, and
the status stored through `ustatus`: `none` is a null pointer, `some false` one
that cannot be written. -/
def wait4Return (ustatus : Option Bool) : WaitResult → ℤ × Option ℤ
  | .reaped p =>
    match ustatus with
    | none => (p.pid, none)
    | some true => (p.pid, some p.exitStatus)
    | some false => (-EFAULT, none)
  | .reported pid status =>
    match ustatus with
    | none => (pid, none)
    | some true => (pid, some status)
    | some false => (-EFAULT, none)
  | .failed r => (r, none)
  | .slept => (0, none)

/-- The action table after `exec`: caught signals go back to the default. -/
def execHandlers (h : ℕ → SigAction) : ℕ → SigAction := fun i =>
  if 1 ≤ i ∧ i < NSIG then
    ⟨if (h i).handler = SIG_IGN then SIG_IGN else SIG_DFL, 0, 0, 0⟩
  else h i

/-- The stores of a successful `do_exec` outside the address space. -/
def Pcb.execed (entry sp : BitVec 64) (p : Pcb) : Pcb :=
  { p with
    tf := setAt (setAt p.tf TF_SEPC entry) TF_SP sp
    sigHandlers := execHandlers p.sigHandlers
    alarmTick := 0
    didExec := true
    cloexecMask := 0
    sigAltstack := noAltstack }

/-- `do_exec`; `image` is the entry point and stack of the new image, or the
error for which the call is given up before the point of no return. -/
def doExec (image : Except ℤ (BitVec 64 × BitVec 64)) : Kern Kernel ℤ := do
  match (← Kern.get).currentProc with
  | none => pure (-EINVAL)
  | some p =>
    if p.isUser = false then pure (-EINVAL)
    else match image with
    | .error e => pure e
    | .ok (entry, sp) => do
      closeFds p.pid fun fd => p.cloexecMask.getLsbD fd
      Kern.modify fun k => k.modify p.pid (Pcb.execed entry sp)
      pure 0

end Sbunix.Proc
