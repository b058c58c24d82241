import Sbunix.Proc.Life

/-!
# Delivering signals and the signal calls

The second half of `signal.c`, and the return path of `trap.c` that calls it.
User memory is not modelled: a pointer argument is `none` when it is null and
carries what the copy through it yields otherwise, and whether the signal frame
could be pushed is an argument.
-/

namespace Sbunix.Proc

open Lib

def EPERM : ℤ := 1
def ESRCH : ℤ := 3

def modifyCurrent (g : Pcb → Pcb) : Kern Kernel Unit := fun k =>
  match k.current with
  | none => (some (), k)
  | some pid => (some (), k.modify pid g)

/-- `send_signal(current_proc(), sig)` -/
def sendCurrent (sig : ℕ) : Kern Kernel Unit := fun k =>
  match k.current with
  | none => (some (), k)
  | some pid => (some (), sendSignal k pid sig)

/-- What the trap handler does next. -/
inductive Flow
  -- the call returned to it
  | back
  -- the process is a zombie: its kernel stack is never run again
  | gone
  -- the process gave up the processor inside `proc_stop_current`
  | stopped
  deriving DecidableEq

/-! ### Choosing the signal -/

/-- One round of the loop of `pick_actionable`: what is pending, and the number found. -/
def pickStep (p : Pcb) (acc : BitVec 64 × ℕ) (i : ℕ) : BitVec 64 × ℕ :=
  if deliverable p i then
    if sigIsNoOp p i then (acc.1 &&& ~~~sigBit i, acc.2)
    else if acc.2 = 0 then (acc.1, i)
    else acc
  else acc

def pickLoop (p : Pcb) : BitVec 64 × ℕ :=
  (List.range' 1 (NSIG - 1)).foldl (pickStep p) (p.sigPending, 0)

/-- The signal that `pick_actionable` returns; 0 if there is none. -/
def pickActionable (p : Pcb) : ℕ := (pickLoop p).2

/-- What `pick_actionable` leaves pending. -/
def Pcb.picked (p : Pcb) : Pcb := { p with sigPending := (pickLoop p).1 }

/-! ### The signal frame -/

def SIGFRAME_MAGIC : BitVec 64 := 0x5342534947464D
def SIGFRAME_SIZE : BitVec 64 := 320
def SA_RESTART : BitVec 32 := 0x10000000
def SA_ONSTACK : BitVec 32 := 0x08000000
def MINSIGSTKSZ : BitVec 64 := 2048

structure Sigframe where
  magic : BitVec 64
  savedMask : BitVec 64
  savedTrapframe : TrapFrame

def spOnAltstack (p : Pcb) (sp : BitVec 64) : Bool :=
  if p.sigAltstack.flags &&& SS_DISABLE ≠ 0 then false
  else if p.sigAltstack.sp = 0 ∨ p.sigAltstack.size = 0 then false
  else p.sigAltstack.sp ≤ sp ∧ sp < p.sigAltstack.sp + p.sigAltstack.size

/-- Where the frame for `sig` goes. -/
def frameVa (p : Pcb) (sig : ℕ) : BitVec 64 :=
  let sp := p.tf TF_SP
  let base :=
    if (p.sigHandlers sig).flags &&& SA_ONSTACK ≠ 0 ∧ p.sigAltstack.flags &&& SS_DISABLE = 0 ∧
        spOnAltstack p sp = false ∧ p.sigAltstack.sp ≠ 0 ∧ MINSIGSTKSZ ≤ p.sigAltstack.size then
      p.sigAltstack.sp + p.sigAltstack.size
    else sp
  (base - SIGFRAME_SIZE) &&& ~~~0xF

def frameBad (va : BitVec 64) : Bool := va < 4096 ∨ KVMEM_OFFSET < va + SIGFRAME_SIZE

def unmaskable : BitVec 64 := sigBit SIGKILL ||| sigBit SIGSTOP

/-- `mask & ~((1ULL << SIGKILL) | (1ULL << SIGSTOP))` -/
def strip (mask : BitVec 64) : BitVec 64 := mask &&& ~~~unmaskable

/-- The process as the handler is entered: the signal and `sa_mask` are blocked,
and the trap frame leads to the handler. -/
def Pcb.redirected (p : Pcb) (sig : ℕ) (h : BitVec 64) : Pcb :=
  { p with
    sigBlocked := strip (p.sigBlocked ||| (sigBit sig ||| (p.sigHandlers sig).mask))
    tf := setAt (setAt (setAt (setAt p.tf TF_SEPC h) TF_A0 (BitVec.ofNat 64 sig))
      TF_SP (frameVa p sig)) TF_RA (p.sigHandlers sig).restorer }

/-- `if (c) proc_exit_current(status);` and whether the process is gone. -/
def exitIf (c : Bool) (status : ℤ) : Kern Kernel Bool :=
  if c then procExitCurrent status else pure false

/-- `build_sigframe_and_redirect`. The exits do not return for a running
process, so `p` is the process throughout. -/
def buildSigframeAndRedirect (p : Pcb) (sig : ℕ) (h : BitVec 64) (copied : Bool) :
    Kern Kernel Flow := do
  if ← exitIf (frameBad (frameVa p sig)) SIGSEGV then pure .gone
  else do
    Kern.modify fun k => k.modify p.pid fun q => { q with sigSuspendActive := false }
    if ← exitIf (!copied) SIGSEGV then pure .gone
    else do
      Kern.modify fun k => k.modify p.pid fun q => q.redirected sig h
      pure .back

/-! ### The signal check -/

/-- The process as it is marked before `proc_stop_current`. -/
def Pcb.stopFor (sig : ℕ) (q : Pcb) : Pcb :=
  { q with state := .stopped, lastSignal := sig, stoppedReported := false }

/-- Stop the current process `p` for `sig`. -/
def stopCurrent (p : Pcb) (sig : ℕ) : Kern Kernel Flow := do
  Kern.modify fun k => notifyParent (k.modify p.pid (Pcb.stopFor sig)) p.parentPid
  pure .stopped

/-- The end of `check_signals`: carry out the default action, or enter the handler. -/
def deliver (p : Pcb) (sig : ℕ) (copied : Bool) : Kern Kernel Flow := do
  let h := (p.sigHandlers sig).handler
  if sig = SIGSTOP then stopCurrent p sig
  else if h = SIG_DFL then
    if defaultAction sig = .stop then stopCurrent p sig
    else do
      if ← procExitCurrent sig then pure .gone
      else buildSigframeAndRedirect p sig h copied
  else buildSigframeAndRedirect p sig h copied

/-- Nothing to deliver: `sigsuspend` gets its caller's mask back. -/
def Pcb.restoreMask (p : Pcb) : Pcb :=
  if p.sigSuspendActive then
    { p with sigBlocked := p.sigSuspendSavedMask, sigSuspendActive := false }
  else p

def checkSignals (copied : Bool) : Kern Kernel Flow := do
  match (← Kern.get).currentProc with
  | none => pure .back
  | some p =>
    if p.isUser = false then pure .back
    else do
      Kern.modify fun k => k.modify p.pid Pcb.picked
      let sig := pickActionable p
      if sig = 0 then do
        Kern.modify fun k => k.modify p.pid Pcb.restoreMask
        pure .back
      else do
        Kern.modify fun k => k.modify p.pid (Pcb.drop sig)
        if sig = SIGKILL then do
          if ← procExitCurrent sig then pure .gone
          else deliver p sig copied
        else deliver p sig copied

/-- The registers after `check_signals_after_syscall` saw `-ERESTARTSYS`: the
call fails with `-EINTR`, or is replayed behind a handler with `SA_RESTART`. -/
def Pcb.restarted (origA0 : BitVec 64) (p : Pcb) : Pcb :=
  let sig := pickActionable p
  let h := (p.sigHandlers sig).handler
  if sig ≠ 0 ∧ h ≠ SIG_DFL ∧ h ≠ SIG_IGN ∧ (p.sigHandlers sig).flags &&& SA_RESTART ≠ 0 then
    { p with tf := setAt (setAt p.tf TF_SEPC (p.tf TF_SEPC - 4)) TF_A0 origA0 }
  else { p with tf := setAt p.tf TF_A0 (BitVec.ofInt 64 (-EINTR)) }

def checkSignalsAfterSyscall (ret : ℤ) (origA0 : BitVec 64) (copied : Bool) : Kern Kernel Flow := do
  match (← Kern.get).currentProc with
  | none => checkSignals copied
  | some p => do
    if p.isUser ∧ ret = -ERESTARTSYS then
      Kern.modify fun k => k.modify p.pid fun q => (q.restarted origA0).picked
    checkSignals copied

/-- What `check_user_return` refuses. -/
def badReturn (tf : TrapFrame) : Bool :=
  USER_STACK_TOP ≤ tf TF_SEPC || tf TF_SP = 0 || USER_STACK_TOP ≤ tf TF_SP

/-- `check_user_return`; the second exit is not reached for a running process. -/
def checkUserReturn : Kern Kernel Flow := do
  match (← Kern.get).currentProc with
  | none => pure .back
  | some p => do
    if ← exitIf (badReturn p.tf) SIGSEGV then pure .gone
    else pure .back

/-- The ends of `trap_handler` for a trap from user mode. -/
inductive RetPath
  -- timer and external interrupts, and page faults that were served
  | checked
  -- an `ecall` with its result and first argument
  | ecall (ret : ℤ) (origA0 : BitVec 64)
  -- any other fault: `SIGSEGV`, and no `check_user_return`
  | fault

/-- The signal check on the way out of `trap_handler`. -/
def trapCheck (path : RetPath) (copied : Bool) : Kern Kernel Flow :=
  match path with
  | .checked => checkSignals copied
  | .ecall ret origA0 => do
    modifyCurrent fun q => { q with tf := setAt q.tf TF_A0 (BitVec.ofInt 64 ret) }
    checkSignalsAfterSyscall ret origA0 copied
  | .fault => do
    sendCurrent SIGSEGV
    checkSignals copied

/-- Whether `check_user_return` follows. -/
def RetPath.check : RetPath → Bool
  | .checked => true
  | .ecall _ _ => true
  | .fault => false

def userCheck (check : Bool) (f : Flow) : Kern Kernel Flow :=
  if f = .back ∧ check then checkUserReturn else pure f

/-- The place where the process continues: user mode, or behind the stop. -/
def settle (check : Bool) (f : Flow) : Kern Kernel Unit :=
  match f with
  | .back => modifyCurrent fun q => { q with resume := .user }
  | .stopped => modifyCurrent fun q => { q with resume := .stop check }
  | .gone => pure ()

def leaveTrap (check : Bool) (f : Flow) : Kern Kernel Unit := do
  let f ← userCheck check f
  settle check f

/-- The end of `trap_handler` on the way back to user mode. -/
def trapReturn (path : RetPath) (copied : Bool) : Kern Kernel Unit := do
  let f ← trapCheck path copied
  leaveTrap path.check f

/-! ### The signal calls -/

def sysKill (pid sig : ℤ) : Kern Kernel ℤ := fun k =>
  if sig < 0 ∨ (NSIG : ℤ) ≤ sig then (some (-EINVAL), k)
  else if 0 < pid then
    match k.find pid with
    | none => (some (-ESRCH), k)
    | some t => (some 0, if sig ≠ 0 then sendSignalTo k t sig.toNat else k)
  else if pid = -1 then
    let want := fun p : Pcb =>
      decide (p.state ≠ .unused ∧ p.state ≠ .zombie ∧ some p.pid ≠ k.current ∧
        p.pid ≠ 1) && p.isUser
    (some (if k.procs.any want then 0 else -ESRCH),
      if sig ≠ 0 then sendEach want [sig.toNat] k else k)
  else
    match if pid = 0 then k.currentProc.map Pcb.pgid else some (-pid) with
    | none => (some (-EINVAL), k)
    | some pgid =>
      (some (if k.procs.any fun p => p.state ≠ .unused ∧ p.pgid = pgid then 0 else -ESRCH),
        if sig ≠ 0 then sendSignalPgrp k pgid sig.toNat else k)

/-- `sys_sigaction`. `act` is what the new action's pointer yields; `oldOk` is
`false` if the old action could not be stored. -/
def sysSigaction (sig : ℤ) (act : Option (Option SigAction)) (oldOk : Bool) : Kern Kernel ℤ :=
    fun k =>
  if sig ≤ 0 ∨ (NSIG : ℤ) ≤ sig then (some (-EINVAL), k)
  else if sig = SIGKILL ∨ sig = SIGSTOP then (some (-EINVAL), k)
  else
    match k.currentProc with
    | none => (some (-EINVAL), k)
    | some p =>
      match act with
      | some none => (some (-EFAULT), k)
      | none => (some (if oldOk then 0 else -EFAULT), k)
      | some (some a) =>
        if oldOk then
          (some 0, k.modify p.pid fun q => q.setHandler sig.toNat { a with mask := strip a.mask })
        else (some (-EFAULT), k)

def sysSigprocmask (how : ℤ) (set : Option (Option (BitVec 64))) (oldOk : Bool) : Kern Kernel ℤ :=
    fun k =>
  match k.currentProc with
  | none => (some (-EINVAL), k)
  | some p =>
    if set.isSome ∧ how ≠ 0 ∧ how ≠ 1 ∧ how ≠ 2 then (some (-EINVAL), k)
    else
      match set with
      | some none => (some (-EFAULT), k)
      | none => (some (if oldOk then 0 else -EFAULT), k)
      | some (some s) =>
        if oldOk then
          (some 0, k.modify p.pid fun q =>
            { q with sigBlocked :=
                if how = 0 then q.sigBlocked ||| strip s
                else if how = 1 then q.sigBlocked &&& ~~~strip s
                else strip s })
        else (some (-EFAULT), k)

def SSTATUS_SPIE : BitVec 64 := 1#64 <<< 5
def SSTATUS_SPP : BitVec 64 := 1#64 <<< 8
def SSTATUS_SUM : BitVec 64 := 1#64 <<< 18
def SSTATUS_MXR : BitVec 64 := 1#64 <<< 19

/-- The frame words that `sys_sigreturn` puts into the trap frame. -/
def restoredFrame (fr : Sigframe) : TrapFrame :=
  setAt fr.savedTrapframe TF_SSTATUS
    ((fr.savedTrapframe TF_SSTATUS &&& ~~~SSTATUS_SPP &&& ~~~(SSTATUS_SUM ||| SSTATUS_MXR)) |||
      SSTATUS_SPIE)

/-- The frames on which `sys_sigreturn` kills the caller. -/
def sigframeBad (fr : Sigframe) : Bool :=
  fr.magic ≠ SIGFRAME_MAGIC || badReturn fr.savedTrapframe

/-- `sys_sigreturn`; `frame` is what the user's stack holds, `none` if it cannot
be read. The value is `none` if the caller was killed. -/
def sysSigreturn (frame : Option Sigframe) : Kern Kernel (Option ℤ) := do
  match (← Kern.get).currentProc with
  | none => pure (some (-1))
  | some p =>
    match frame with
    | none => do
      let _ ← procExitCurrent SIGSEGV
      pure none
    | some fr =>
      if sigframeBad fr then do
        let _ ← procExitCurrent SIGSEGV
        pure none
      else do
        Kern.modify fun k => k.modify p.pid fun q =>
          { q with tf := restoredFrame fr, sigBlocked := strip fr.savedMask }
        pure (some (restoredFrame fr TF_A0).toInt)

/-- The stores of `sys_sigsuspend` before it sleeps. -/
def Pcb.suspended (mask : BitVec 64) (q : Pcb) : Pcb :=
  { q with
    sigSuspendSavedMask := q.sigBlocked, sigSuspendActive := true, sigBlocked := strip mask }

/-- `sys_sigsuspend` up to its loop; the result is the error, or `none` if the
caller now waits for a signal. -/
def sysSigsuspend (mask : Option (Option (BitVec 64))) : Kern Kernel (Option ℤ) := fun k =>
  match k.currentProc, mask with
  | none, _ => (some (some (-EINVAL)), k)
  | some _, none => (some (some (-EINVAL)), k)
  | some _, some none => (some (some (-EFAULT)), k)
  | some p, some (some s) => (some none, k.modify p.pid (Pcb.suspended s))

/-- The checks of `sys_sigaltstack` on a new stack. -/
def altstackError (p : Pcb) (ss : SigStack) : Option ℤ :=
  if spOnAltstack p (p.tf TF_SP) then some (-EPERM)
  else if ss.flags &&& ~~~SS_DISABLE ≠ 0 then some (-EINVAL)
  else if ss.flags &&& SS_DISABLE ≠ 0 then none
  else if ss.sp + ss.size < ss.sp then some (-EINVAL)
  else if ss.sp < 4096 ∨ KVMEM_OFFSET < ss.sp + ss.size then some (-EINVAL)
  else if ss.size < MINSIGSTKSZ then some (-ENOMEM)
  else none

def sysSigaltstack (ss : Option (Option SigStack)) (ossOk : Bool) : Kern Kernel ℤ := fun k =>
  match k.currentProc with
  | none => (some (-EINVAL), k)
  | some p =>
    match ss with
    | none => (some (if ossOk then 0 else -EFAULT), k)
    | some none => (some (-EFAULT), k)
    | some (some s) =>
      match altstackError p s with
      | some e => (some e, k)
      | none =>
        if ossOk then
          (some 0, k.modify p.pid fun q =>
            { q with sigAltstack :=
                if s.flags &&& SS_DISABLE ≠ 0 then noAltstack else { s with flags := 0 } })
        else (some (-EFAULT), k)

end Sbunix.Proc
