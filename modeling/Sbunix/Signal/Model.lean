import Sbunix.Lib.Memory
import Sbunix.Pipe.Model
import Sbunix.Proc.Return

/-!
# Signal frames in user memory

The pipe machine together with the user memory of every process, in which
`build_sigframe_and_redirect` leaves its frames and `sys_sigreturn` finds them.
What a process does between its entry into the kernel and its return is one
system call: the kernel stack (`Trap`) holds the registers at the entry and how
far the call has come. Beside the memory the machine keeps, for every process,
the frames of handlers that have not returned, with the context each of them
interrupted.
-/

namespace Sbunix.Signal

open Lib Option Proc
open Pipe (setPid)

/-! ### Frames -/

def TF_WORDS : ℕ := 36

/-- The words of `struct sigframe`, with its padding. -/
def FRAME_WORDS : ℕ := 40

/-- Word `i` of a frame. -/
def frameWord (fr : Sigframe) : ℕ → BitVec 64
  | 0 => fr.magic
  | 1 => fr.savedMask
  | i + 2 => if i < TF_WORDS then fr.savedTrapframe i else 0

/-- `copyout` of a frame. -/
def writeFrame (m : Memory 64) (va : BitVec 64) (fr : Sigframe) : Memory 64 :=
  m.storeWords va FRAME_WORDS (frameWord fr)

/-- Word `i` of the memory at `va`. -/
def wordAt (m : Memory 64) (va : BitVec 64) (i : ℕ) : BitVec 64 :=
  m.load (va + BitVec.ofNat 64 (8 * i))

/-- `copyin` of a frame. -/
def readFrame (m : Memory 64) (va : BitVec 64) : Sigframe where
  magic := wordAt m va 0
  savedMask := wordAt m va 1
  savedTrapframe i := if i < TF_WORDS then wordAt m va (i + 2) else 0

/-- The frame that `build_sigframe_and_redirect` builds. -/
def sigframe (c : Pcb) : Sigframe where
  magic := SIGFRAME_MAGIC
  savedMask := if c.sigSuspendActive then c.sigSuspendSavedMask else c.sigBlocked
  savedTrapframe := c.tf

/-! ### Processes inside the kernel -/

structure Context where
  tf : TrapFrame
  mask : BitVec 64

/-- A frame whose handler has not returned: where it is and what it interrupted;
the registers of the system call that is to be replayed behind the handler, and
the mask that a `sigsuspend` has yet to give back. -/
structure Entry where
  va : BitVec 64
  context : Context
  restart : Option TrapFrame
  owed : Option (BitVec 64)

/-- How far a process has come since it entered the kernel. -/
inductive Phase
  | fresh
  -- in a call about which nothing more is said
  | working
  -- in `read` or `write` on a pipe
  | piped
  -- asleep in `wait4` with these arguments
  | waiting (pid : ℤ) (options : BitVec 32) (ustatus : Option Bool)
  -- in the loop of `sigsuspend`, called with this mask in force
  | suspended (mask : BitVec 64)
  -- the call has returned
  | returned (ret : ℤ)

/-- What the kernel stack holds: the registers when user mode was left, whether by
an `ecall`, the frame that a `sigreturn` has taken down, and how many bytes a call
has moved into or out of pipes. -/
structure Trap where
  regs : TrapFrame
  ecall : Bool
  phase : Phase
  popped : Option Entry
  moved : ℕ

structure World where
  base : Pipe.World
  mem : ℤ → Memory 64
  frames : ℤ → List Entry
  trap : ℤ → Trap

def World.k (w : World) : Kernel := w.base.k

def noTrap : Trap := ⟨fun _ => 0, false, .fresh, none, 0⟩

/-- The trap frame behind the entry: `sepc` is past the `ecall`. -/
def entryFrame (ecall : Bool) (regs : TrapFrame) : TrapFrame :=
  if ecall then setAt regs TF_SEPC (regs TF_SEPC + 4) else regs

namespace Trap

def begins (t : Trap) : Bool :=
  match t.phase with
  | .fresh => t.ecall
  | _ => false

/-- `wait4` begins, or goes on behind its sleep. -/
def waits (t : Trap) (pid : ℤ) (options : BitVec 32) (ustatus : Option Bool) : Bool :=
  match t.phase with
  | .fresh => t.ecall
  | .waiting pid' options' ustatus' => pid' = pid ∧ options' = options ∧ ustatus' = ustatus
  | _ => false

/-- What the process `p` may do next inside the kernel, apart from the calls with a
label of their own. -/
def allows (t : Trap) (p : Pcb) : Pipe.Label → Bool
  | .kern (.call c) =>
    match c, t.phase with
    | .sigreturn _, _ => false
    | .sigsuspend _, _ => false
    | .wait4 _ _ _, _ => false
    | _, .fresh => true
    | _, .working => true
    | .sleep _ _, .suspended _ => !sigHasActionable p
    | _, _ => false
  | .kern (.enter _) => false
  | .kern (.ret _ _) => false
  | .kern _ => true
  | .read _ _ _ => t.begins
  | .write _ _ _ _ => t.begins
  | .resume =>
    match t.phase with
    | .piped => true
    | _ => false

/-- Behind a step that has moved `n` bytes. -/
def after (t : Trap) (n : ℕ) : Pipe.Label → Trap
  | .kern (.call _) => match t.phase with
    | .fresh => { t with phase := .working }
    | _ => t
  | .kern _ => t
  | .read _ _ _ => { t with phase := .piped, moved := t.moved + n }
  | .write _ _ _ _ => { t with phase := .piped, moved := t.moved + n }
  | .resume => { t with moved := t.moved + n }

/-- Whether a call may return `ret`; `done` tells that one on a pipe has returned. -/
def gives (t : Trap) (p : Pcb) (done : Bool) (ret : ℤ) : Bool :=
  match t.phase with
  | .fresh => true
  | .working => true
  | .piped => done
  | .waiting _ _ _ => false
  | .suspended _ => ret = -EINTR && sigHasActionable p
  | .returned r => ret = r

def leaves (t : Trap) (p : Pcb) (done : Bool) : RetPath → Bool
  | .ecall ret origA0 => t.ecall && origA0 = t.regs TF_A0 && t.gives p done ret
  | .checked => !t.ecall
  | .fault => !t.ecall

def mask (t : Trap) (c : Pcb) : BitVec 64 :=
  match t.phase with
  | .suspended m => m
  | _ => c.sigBlocked

/-- The mask that a `sigsuspend` has yet to give back. -/
def owed (t : Trap) : Option (BitVec 64) :=
  match t.phase with
  | .suspended m => some m
  | _ => t.popped.bind Entry.owed

/-- A call that was interrupted and is to be replayed behind the handler of `sig`,
or one that was so before and is still to be replayed. -/
def restart (t : Trap) (path : RetPath) (c : Pcb) (sig : ℕ) : Option TrapFrame :=
  match t.popped, path, t.phase with
  | some e, _, _ => e.restart
  | none, .ecall ret _, .piped =>
    if ret = -ERESTARTSYS ∧ (c.sigHandlers sig).flags &&& SA_RESTART ≠ 0 then some t.regs else none
  | none, .ecall ret _, .returned _ =>
    if ret = -ERESTARTSYS ∧ (c.sigHandlers sig).flags &&& SA_RESTART ≠ 0 then some t.regs else none
  | none, _, _ => none

end Trap

/-! ### The machine -/

/-- How many bytes a call has moved that led from `w` to `b`. -/
def bytesMoved (w b : Pipe.World) : ℕ :=
  ((List.range NPIPE).map fun i =>
    (b.stored i).length + (b.taken i).length - ((w.stored i).length + (w.taken i).length)).sum

namespace World

/-- Processes that did not exist get the memory and the frames of `pid`. -/
def spawn (w : World) (pid : ℤ) : World where
  base := w.base
  mem := fun q => if (w.k.find q).isNone then w.mem pid else w.mem q
  frames := fun q => if (w.k.find q).isNone then w.frames pid else w.frames q
  trap := fun q => if (w.k.find q).isNone then noTrap else w.trap q

/-- What a call of the process `p` does beside its work on the kernel: a forked
child has its parent's memory, a new image has no frames. -/
def beside (w : World) (p : Pcb) : Pipe.Label → World
  | .kern (.call (.fork _)) => w.spawn p.pid
  | .kern (.call (.exec (.ok _))) =>
    if p.isUser then { w with frames := setPid w.frames p.pid [] } else w
  | _ => w

def setTrap (w : World) (pid : ℤ) (t : Trap) : World := { w with trap := setPid w.trap pid t }

/-- The world after the step `l` of the pipe machine, which led to `b`. -/
def step (w : World) (l : Pipe.Label) (b : Pipe.World) : World :=
  match w.k.currentProc with
  | none => { w with base := b }
  | some p =>
    { (w.beside p l).setTrap p.pid ((w.trap p.pid).after (bytesMoved w.base b) l) with base := b }

def allows (w : World) (l : Pipe.Label) : Bool :=
  match w.k.currentProc with
  | none => true
  | some p => (w.trap p.pid).allows p l

/-- The frame that `p` gets on its way out, if a handler is entered. -/
def pushed (w : World) (p : Pcb) (path : RetPath) (copied : Bool) : Option Entry :=
  let c := p.atCheck path
  let t := w.trap p.pid
  (c.handles copied).map fun sig =>
    ⟨frameVa c sig, ⟨c.tf, t.mask c⟩, t.restart path c sig, t.owed⟩

/-- Memory and frames after the return path. -/
def leave (w : World) (p : Pcb) (path : RetPath) (copied : Bool) : World :=
  match w.pushed p path copied with
  | none => w
  | some e =>
    { w with
      mem := setPid w.mem p.pid (writeFrame (w.mem p.pid) e.va (sigframe (p.atCheck path)))
      frames := setPid w.frames p.pid (e :: w.frames p.pid) }

/-- The frame that `sys_sigreturn` reads. -/
def frameAt (w : World) (p : Pcb) : Sigframe := readFrame (w.mem p.pid) (p.tf TF_SP)

def topFrame (w : World) (p : Pcb) : Option Entry :=
  (w.frames p.pid).head?.filter fun e => e.va = p.tf TF_SP

/-- `sigreturn` takes the innermost frame down. -/
def takeDown (w : World) (p : Pcb) : World :=
  let t := w.trap p.pid
  { w with
    frames := setPid w.frames p.pid
      (if (w.topFrame p).isSome then (w.frames p.pid).tail else w.frames p.pid)
    trap := setPid w.trap p.pid
      { t with
        phase := .returned (restoredFrame (w.frameAt p) TF_A0).toInt
        popped := w.topFrame p } }

/-- What `sys_sigsuspend` with the argument `mask` leaves on the stack. -/
def suspend (w : World) (p : Pcb) (mask : Option (Option (BitVec 64))) : World :=
  let t := w.trap p.pid
  w.setTrap p.pid
    { t with
      phase := match mask with
        | none => .returned (-EINVAL)
        | some none => .returned (-EFAULT)
        | some (some _) => .suspended p.sigBlocked }

/-- What a pass of `wait4` with the result `r` leaves on the stack. -/
def waited (w : World) (p : Pcb) (pid : ℤ) (options : BitVec 32) (ustatus : Option Bool)
    (r : WaitResult) : World :=
  let t := w.trap p.pid
  w.setTrap p.pid
    { t with
      phase := match r with
        | .slept => .waiting pid options ustatus
        | r => .returned (wait4Return ustatus r).1 }

def store (w : World) (pid : ℤ) (a : BitVec 64) (b : BitVec 8) : World :=
  { w with mem := setPid w.mem pid (Function.update (w.mem pid) a b) }

end World

inductive Label
  -- anything without a label of its own
  | base (l : Pipe.Label)
  | enter (ecall : Bool) (regs : TrapFrame)
  | sigreturn
  | sigsuspend (mask : Option (Option (BitVec 64)))
  | wait4 (pid : ℤ) (options : BitVec 32) (ustatus : Option Bool)
  | ret (path : RetPath) (copied : Bool)
  -- a byte of a process changes
  | store (pid : ℤ) (a : BitVec 64) (b : BitVec 8)

inductive Step : World → Label → World → Prop
  | base {w : World} {l : Pipe.Label} {b : Pipe.World} : w.allows l = true → Pipe.Step w.base l b →
    Step w (.base l) (w.step l b)
  | enter {w : World} {p : Pcb} {ecall : Bool} {regs : TrapFrame} {b : Pipe.World} :
    w.k.currentProc = some p → Pipe.Step w.base (.kern (.enter (entryFrame ecall regs))) b →
    Step w (.enter ecall regs) { w.setTrap p.pid ⟨regs, ecall, .fresh, none, 0⟩ with base := b }
  | sigreturn {w : World} {p : Pcb} {b : Pipe.World} : w.k.currentProc = some p →
    (w.trap p.pid).begins = true →
    Pipe.Step w.base (.kern (.call (.sigreturn (some (w.frameAt p))))) b →
    Step w .sigreturn { w.takeDown p with base := b }
  | sigsuspend {w : World} {p : Pcb} {mask : Option (Option (BitVec 64))} {b : Pipe.World} :
    w.k.currentProc = some p → (w.trap p.pid).begins = true →
    Pipe.Step w.base (.kern (.call (.sigsuspend mask))) b →
    Step w (.sigsuspend mask) { w.suspend p mask with base := b }
  | wait4 {w : World} {p : Pcb} {pid : ℤ} {options : BitVec 32} {ustatus : Option Bool}
    {r : WaitResult} {b : Pipe.World} : w.k.currentProc = some p →
    (w.trap p.pid).waits pid options ustatus = true →
    Pipe.Step w.base (.kern (.call (.wait4 pid options ustatus))) b →
    wait4Pass pid options w.k = (some r, b.k) →
    Step w (.wait4 pid options ustatus) { w.waited p pid options ustatus r with base := b }
  | ret {w : World} {p : Pcb} {path : RetPath} {copied : Bool} {b : Pipe.World} :
    w.k.currentProc = some p → (w.trap p.pid).leaves p (w.base.result p.pid).isSome path = true →
    Pipe.Step w.base (.kern (.ret path copied)) b →
    Step w (.ret path copied) { w.leave p path copied with base := b }
  | store {w : World} {pid : ℤ} {a : BitVec 64} {b : BitVec 8} :
    Step w (.store pid a b) (w.store pid a b)

/-- The step of the pipe machine with a label, if the process that runs meets `ok`,
and the world that `next` makes of it. -/
def execBase (w : World) (ok : Pcb → Bool) (l : Pcb → Pipe.Label) (next : Pcb → World) :
    Option World :=
  match w.k.currentProc with
  | none => none
  | some p => if ok p then (Pipe.exec w.base (l p)).map fun b => { next p with base := b } else none

/-- The step with a label, if there is one. -/
def exec (w : World) : Label → Option World
  | .base l => if w.allows l then (Pipe.exec w.base l).map (w.step l) else none
  | .enter ecall regs =>
    execBase w (fun _ => true) (fun _ => .kern (.enter (entryFrame ecall regs)))
      fun p => w.setTrap p.pid ⟨regs, ecall, .fresh, none, 0⟩
  | .sigreturn =>
    execBase w (fun p => (w.trap p.pid).begins)
      (fun p => .kern (.call (.sigreturn (some (w.frameAt p))))) w.takeDown
  | .sigsuspend mask =>
    execBase w (fun p => (w.trap p.pid).begins) (fun _ => .kern (.call (.sigsuspend mask)))
      fun p => w.suspend p mask
  | .wait4 pid options ustatus =>
    match wait4Pass pid options w.k with
    | (none, _) => none
    | (some r, _) =>
      execBase w (fun p => (w.trap p.pid).waits pid options ustatus)
        (fun _ => .kern (.call (.wait4 pid options ustatus))) fun p =>
          w.waited p pid options ustatus r
  | .ret path copied =>
    execBase w (fun p => (w.trap p.pid).leaves p (w.base.result p.pid).isSome path)
      (fun _ => .kern (.ret path copied)) fun p => w.leave p path copied
  | .store pid a b => some (w.store pid a b)

variable {w w' : World}

theorem execBase_eq_some {ok : Pcb → Bool} {l : Pcb → Pipe.Label} {next : Pcb → World}
    (h : execBase w ok l next = some w') : ∃ p b, w.k.currentProc = some p ∧ ok p = true ∧
      Pipe.exec w.base (l p) = some b ∧ w' = { next p with base := b } := by
  unfold execBase at h
  split at h
  · cases h
  next p hp =>
  split at h
  · next hok =>
    obtain ⟨b, hb, rfl⟩ := map_eq_some_iff.mp h
    exact ⟨p, b, hp, hok, hb, rfl⟩
  · cases h

theorem wait4_kernel {w : Pipe.World} {pid : ℤ} {options : BitVec 32} {ustatus : Option Bool}
    {r : WaitResult} {k' : Kernel} {b : Pipe.World}
    (hpass : wait4Pass pid options w.k = (some r, k'))
    (hstep : Pipe.Step w (.kern (.call (.wait4 pid options ustatus))) b) : b.k = k' := by
  cases hstep with
  | kern _ h =>
    obtain ⟨-, he⟩ := h
    obtain ⟨r', hr⟩ := Lib.Kern.discard_eq_some he
    rw [hpass] at hr
    cases hr
    rfl

theorem exec_step {l : Label} (h : exec w l = some w') : Step w l w' := by
  cases l with
  | base l =>
    simp only [exec] at h
    split at h
    · next hok =>
      obtain ⟨b, hb, rfl⟩ := map_eq_some_iff.mp h
      exact .base hok (Pipe.exec_step hb)
    · cases h
  | enter ecall regs =>
    obtain ⟨p, b, hp, -, hb, rfl⟩ := execBase_eq_some h
    exact .enter hp (Pipe.exec_step hb)
  | sigreturn =>
    obtain ⟨p, b, hp, hok, hb, rfl⟩ := execBase_eq_some h
    exact .sigreturn hp hok (Pipe.exec_step hb)
  | sigsuspend mask =>
    obtain ⟨p, b, hp, hok, hb, rfl⟩ := execBase_eq_some h
    exact .sigsuspend hp hok (Pipe.exec_step hb)
  | wait4 pid options ustatus =>
    simp only [exec] at h
    rcases hpass : wait4Pass pid options w.k with ⟨_ | r, k'⟩
    · simp [hpass] at h
    · simp only [hpass] at h
      obtain ⟨p, b, hp, hok, hb, rfl⟩ := execBase_eq_some h
      have hstep := Pipe.exec_step hb
      refine .wait4 hp hok hstep ?_
      rw [wait4_kernel hpass hstep]
      exact hpass
  | ret path copied =>
    obtain ⟨p, b, hp, hok, hb, rfl⟩ := execBase_eq_some h
    exact .ret hp hok (Pipe.exec_step hb)
  | store pid a b =>
    cases h
    exact .store

/-- Carry out labels one after the other, as long as each meets `ok`. -/
def run (ok : World → Label → Bool) : List Label → World → Option World
  | [], w => some w
  | l :: ls, w => if ok w l then (exec w l).bind (run ok ls) else none

theorem run_reaches {ok : World → Label → Bool} {ls : List Label}
    (h : run ok ls w = some w') : Reaches Step (fun w l => ok w l = true) w w' :=
  reaches_of_run (fun _ => rfl) (fun _ _ _ => rfl) exec_step h

/-- A computed run and one step more. -/
theorem run_step (ok : World → Label → Prop) [∀ w l, Decidable (ok w l)] (ls : List Label)
    (w₀ : World)
    (l : Label) (P : World → World → Bool)
    (h : ((run (fun w l => ok w l) ls w₀).any fun w => ok w l ∧ (exec w l).any fun w' => P w w') =
    true) :
    ∃ w w', run (fun w l => ok w l) ls w₀ = some w ∧ Reaches Step ok w₀ w ∧ ok w l ∧ Step w l w' ∧
      P w w' = true := by
  obtain ⟨w, hw, hlast⟩ := (any_eq_true _ _).mp h
  obtain ⟨hok, hlast⟩ := of_decide_eq_true hlast
  obtain ⟨w', hw', hP⟩ := (any_eq_true _ _).mp hlast
  exact ⟨w, w', hw, (run_reaches hw).mono fun _ _ h => of_decide_eq_true h, hok, exec_step hw', hP⟩

/-- Empty memory, and nothing has happened yet. -/
def bootWorld (pid : ℤ) (entry sp : BitVec 64) : World where
  base := Pipe.bootWorld pid entry sp
  mem := fun _ _ => 0
  frames := fun _ => []
  trap := fun _ => noTrap

end Sbunix.Signal
