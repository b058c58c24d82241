import Sbunix.Lib.Machine
import Sbunix.Proc.Signal

/-!
# The process machine

One processor, a table of processes, and everything that can happen next: the
running process traps, carries out a part of a system call, sleeps, or returns
to user mode; the scheduler picks a ready process; a timer or terminal
interrupt arrives. A call that blocks is the part up to the sleep and, when the
process runs again, the part behind it. A panic ends the run.
-/

namespace Sbunix.Proc

open Lib Option

/-- What the running process does inside the kernel. -/
inductive Call
  | openFile (res : Except ℤ Unit) (flags : BitVec 32)
  | close (fd : ℤ)
  | dup (fd : ℤ)
  | dup2 (oldfd newfd : ℤ)
  | setfd (fd : ℤ) (arg : BitVec 64)
  | pipe (fds : Option Bool)
  | fork (env : ForkEnv)
  | exec (image : Except ℤ (BitVec 64 × BitVec 64))
  | exit (status : ℤ)
  | wait4 (pid : ℤ) (options : BitVec 32) (ustatus : Option Bool)
  | kill (pid sig : ℤ)
  | sigaction (sig : ℤ) (act : Option (Option SigAction)) (oldOk : Bool)
  | sigprocmask (how : ℤ) (set : Option (Option (BitVec 64))) (oldOk : Bool)
  | sigsuspend (mask : Option (Option (BitVec 64)))
  | sigreturn (frame : Option Sigframe)
  | sigaltstack (ss : Option (Option SigStack)) (ossOk : Bool)
  | setpgid (pid pgid : ℤ)
  | setsid
  | setNofile (lim : BitVec 64)
  | setNproc (lim : BitVec 64)
  | alarm (deadline : ℕ)
  -- `proc_sleep`, on a deadline or on a channel
  | sleep (wakeTick : ℕ) (chan : Option ℕ)
  | yield
  -- `send_signal` to itself or its group by a driver (`SIGPIPE`, `SIGTTIN`)
  | raiseGroup (pgid : ℤ) (sig : ℕ)

def EACCES : ℤ := 13

def sysSetpgid (pid pgid : ℤ) : Kern Kernel ℤ := fun k =>
  match k.currentProc with
  | none => (some (-EINVAL), k)
  | some me =>
    if pid < 0 ∨ pgid < 0 then (some (-EINVAL), k)
    else
      match if pid = 0 then some me else k.find pid with
      | none => (some (-ESRCH), k)
      | some p =>
        if p.pid ≠ me.pid ∧ p.parentPid ≠ me.pid then (some (-EPERM), k)
        else if p.parentPid = me.pid ∧ p.didExec then (some (-EACCES), k)
        else if p.sid ≠ me.sid ∨ p.pid = p.sid then (some (-EPERM), k)
        else
          let g := if pgid = 0 then p.pid else pgid
          if g ≠ p.pid ∧ (k.find g).all (fun l => l.sid ≠ me.sid) then (some (-EPERM), k)
          else (some 0, k.modify p.pid fun q => { q with pgid := g })

def sysSetsid : Kern Kernel ℤ := fun k =>
  match k.currentProc with
  | none => (some (-EINVAL), k)
  | some me =>
    if k.procs.any fun q => q.pid ≠ me.pid ∧ q.state ≠ .unused ∧ q.pgid = me.pid then
      (some (-EPERM), k)
    else
      let k' := k.modify me.pid fun q => { q with sid := me.pid, pgid := me.pid }
      (some me.pid,
        if k.termSession = me.pid then { k' with termSession := 0, termFgPgid := 0 } else k')

def call : Call → Kern Kernel Unit
  | .openFile res flags => do let _ ← doOpen res flags
  | .close fd => do let _ ← sysClose fd
  | .dup fd => do let _ ← sysDup fd
  | .dup2 oldfd newfd => do let _ ← sysDup2 oldfd newfd
  | .setfd fd arg => do let _ ← sysFcntlSetfd fd arg
  | .pipe fds => do let _ ← sysPipe fds
  | .fork env => do let _ ← procForkCurrent env
  | .exec image => do let _ ← doExec image
  | .exit status => do let _ ← procExitCurrent status
  | .wait4 pid options _ => do let _ ← wait4Pass pid options
  | .kill pid sig => do let _ ← sysKill pid sig
  | .sigaction sig act oldOk => do let _ ← sysSigaction sig act oldOk
  | .sigprocmask how set oldOk => do let _ ← sysSigprocmask how set oldOk
  | .sigsuspend mask => do let _ ← sysSigsuspend mask
  | .sigreturn frame => do let _ ← sysSigreturn frame
  | .sigaltstack ss ossOk => do let _ ← sysSigaltstack ss ossOk
  | .setpgid pid pgid => do let _ ← sysSetpgid pid pgid
  | .setsid => do let _ ← sysSetsid
  | .setNofile lim => modifyCurrent fun p => { p with rlimNofile := lim }
  | .setNproc lim => modifyCurrent fun p => { p with rlimNproc := lim }
  | .alarm deadline => modifyCurrent fun p => { p with alarmTick := deadline }
  | .sleep wakeTick chan =>
    modifyCurrent fun p => { p with state := .sleeping, wakeTick := wakeTick, sleepChan := chan }
  | .yield => modifyCurrent fun p => { p with state := .ready }
  | .raiseGroup pgid sig => Kern.modify fun k => sendSignalPgrp k pgid sig

/-- Everything that can happen next. -/
inductive Label
  | call (c : Call)
  -- the running process leaves user mode, with these registers
  | enter (tf : TrapFrame)
  | ret (path : RetPath) (copied : Bool)
  | dispatch (pid : ℤ)
  -- the scheduler destroys a zombie without a parent
  | reapOrphan
  | tick (fromUser : Bool)
  | tty (sig : ℕ)
  | wake (pid : ℤ)
  | wakeChan (chan : ℕ)

/-- Wake the sleepers whose time has come, and send the alarms that are due. -/
def timerScan (k : Kernel) : Kernel :=
  (k.procs.map Pcb.pid).foldl (fun k pid =>
    let k := k.modify pid fun p =>
      if p.state = .sleeping ∧ p.wakeTick ≠ 0 ∧ p.wakeTick ≤ k.ticks then p.makeReady else p
    if (k.find pid).any fun p =>
        p.alarmTick ≠ 0 ∧ p.alarmTick ≤ k.ticks ∧ p.state ≠ .unused ∧ p.state ≠ .zombie then
      sendSignal (k.modify pid fun p => { p with alarmTick := 0 }) pid SIGALRM
    else k) k

def Pcb.billed (fromUser : Bool) (p : Pcb) : Pcb :=
  if p.isUser = false then p
  else if fromUser then { p with utimeTicks := p.utimeTicks + 1 }
  else { p with stimeTicks := p.stimeTicks + 1 }

def timerHandler (fromUser : Bool) : Kern Kernel Unit := do
  Kern.modify fun k => { k with ticks := k.ticks + 1 }
  modifyCurrent (Pcb.billed fromUser)
  Kern.modify timerScan

/-- Where a process goes on when the scheduler has switched to it. -/
def resumeRun (r : Resume) : Kern Kernel Unit :=
  match r with
  | .forkret => modifyCurrent fun p => { p with resume := .user }
  | .forkChildReturn => modifyCurrent fun p => { p with resume := .user }
  | .stop check => leaveTrap check .back
  | .trap => pure ()
  | .user => pure ()

/-- The body of the loop of `scheduler_run` for the process it picked. -/
def dispatch (pid : ℤ) : Kern Kernel Unit := do
  match (← Kern.get).find pid with
  | none => pure ()
  | some p => do
    Kern.modify fun k =>
      { k.modify pid fun q => { q with state := .running } with current := some pid }
    resumeRun p.resume

/-- Behind the switch back to the scheduler: a zombie without a parent goes. -/
def reapOrphan : Kern Kernel Unit := do
  match (← Kern.get).currentProc with
  | none => pure ()
  | some z => do
    Kern.modify fun k => { k with current := none }
    procDestroy z

def act : Label → Kern Kernel Unit
  | .call c => call c
  | .enter tf => modifyCurrent fun p => { p with resume := .trap, tf := tf }
  | .ret path copied => trapReturn path copied
  | .dispatch pid => dispatch pid
  | .reapOrphan => reapOrphan
  | .tick fromUser => timerHandler fromUser
  | .tty sig => Kern.modify fun k => sendSignalPgrp k k.termFgPgid sig
  | .wake pid => Kern.modify fun k => procWakeup k pid
  | .wakeChan chan => Kern.modify fun k => procWakeupChan k chan

/-- The current process runs, and is at `r`. -/
def runsAt (k : Kernel) (r : Resume) : Prop :=
  ∃ p, k.currentProc = some p ∧ p.state = .running ∧ p.resume = r

instance (k : Kernel) (r : Resume) : Decidable (runsAt k r) :=
  decidable_of_iff (k.currentProc.any fun p => p.state = .running ∧ p.resume = r) (by
    simp [runsAt, any_eq_true])

/-- When a label may be taken. -/
def enabled (k : Kernel) : Label → Prop
  | .call _ => runsAt k .trap
  | .enter _ => runsAt k .user
  | .ret _ _ => runsAt k .trap
  | .dispatch pid =>
    (∀ p ∈ k.procs, p.state ≠ .running) ∧ ∃ p, k.find pid = some p ∧ p.state = .ready
  | .reapOrphan => ∃ p, k.currentProc = some p ∧ p.state = .zombie ∧ p.parentPid = 0
  | .tick _ => True
  | .tty sig => sig = 2 ∨ sig = 3 ∨ sig = SIGTSTP
  | .wake _ => True
  | .wakeChan _ => True

instance (k : Kernel) : (l : Label) → Decidable (enabled k l)
  | .call _ => inferInstanceAs (Decidable (runsAt k .trap))
  | .enter _ => inferInstanceAs (Decidable (runsAt k .user))
  | .ret _ _ => inferInstanceAs (Decidable (runsAt k .trap))
  | .dispatch pid =>
    decidable_of_iff ((∀ p ∈ k.procs, p.state ≠ .running) ∧
      (k.find pid).any fun p => p.state = .ready) (by simp [enabled, any_eq_true])
  | .reapOrphan =>
    decidable_of_iff (k.currentProc.any fun p => p.state = .zombie ∧ p.parentPid = 0) (by
      simp [enabled, any_eq_true])
  | .tick _ => .isTrue trivial
  | .tty sig => inferInstanceAs (Decidable (sig = 2 ∨ sig = 3 ∨ sig = SIGTSTP))
  | .wake _ => .isTrue trivial
  | .wakeChan _ => .isTrue trivial

def Step (k : Kernel) (l : Label) (k' : Kernel) : Prop := enabled k l ∧ act l k = (some (), k')

/-- The kernel as `sched_init` hands it to the scheduler: init alone, ready to
run for the first time, with the console on descriptors 0, 1 and 2. -/
def bootKernel (pid : ℤ) (entry sp : BitVec 64) : Kernel where
  procs := [{ newPcb pid 1 with
    state := .ready
    isUser := true
    ofile := fun fd => if fd < 3 then some fd else none
    tf := setAt (setAt (fun _ => 0) TF_SEPC entry) TF_SP sp }]
  current := none
  nextPid := pid + 1
  initPid := pid
  generationSeq := 1
  ticks := 0
  termSession := 0
  termFgPgid := 0
  ftable := fun i => if i < 3 then ⟨.inode, 1, 0 < i, 0⟩ else ⟨.none, 0, false, 0⟩
  pipes := fun _ => ⟨false, false⟩

/-- Carry out labels one after the other; `none` if one is not enabled or panics. -/
def runLabels : List Label → Kernel → Option Kernel
  | [], k => some k
  | l :: ls, k =>
    if enabled k l then
      match act l k with
      | (some (), k') => runLabels ls k'
      | (none, _) => none
    else none

variable {ls : List Label} {k k' : Kernel}

theorem runLabels_reaches (h : runLabels ls k = some k') : Reaches Step (fun _ _ => True) k k' := by
  induction ls generalizing k with
  | nil =>
    cases h
    exact .refl
  | cons l ls ih =>
    unfold runLabels at h
    split at h
    · next he =>
      split at h
      · next k₁ hact => exact (Reaches.single trivial ⟨he, hact⟩).trans (ih h)
      · cases h
    · cases h

theorem runLabels_any {P : Kernel → Prop} [DecidablePred P]
    (h : (runLabels ls k).any P = true) : ∃ k', runLabels ls k = some k' ∧ P k' := by
  obtain ⟨k', hk', hP⟩ := (any_eq_true _ _).mp h
  exact ⟨k', hk', of_decide_eq_true hP⟩

theorem runLabels_single {l : Label} (h : runLabels [l] k = some k') : Step k l k' := by
  unfold runLabels at h
  split at h
  · next he =>
    split at h
    · next hact =>
      cases h
      exact ⟨he, hact⟩
    · cases h
  · cases h

/-- Carry out labels as long as each meets the condition `ok`. -/
def runUnder (ok : Kernel → Label → Bool) : List Label → Kernel → Option Kernel
  | [], k => some k
  | l :: ls, k =>
    if ok k l then (runLabels [l] k).bind (runUnder ok ls)
    else none

theorem runUnder_reaches {ok : Kernel → Label → Bool}
    (h : runUnder ok ls k = some k') : Reaches Step (fun k l => ok k l = true) k k' :=
  reaches_of_run (fun _ => rfl) (fun _ _ _ => rfl) runLabels_single h

end Sbunix.Proc
