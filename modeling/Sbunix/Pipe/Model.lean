import Sbunix.Lib.Ring
import Sbunix.Proc.Moves

/-!
# Pipes

`pipe_read` and `pipe_write` of `pipe.c`, and the chunked loops of `sys_read`
and `sys_write` around them. A call runs until it returns or sleeps; a call that
sleeps leaves behind what its kernel stack holds (`Io`), and goes on from there
when the process runs again. The bytes that went into and came out of each pipe
since it was opened are kept beside it.
-/

namespace Sbunix.Pipe

open Lib Proc

def PIPESIZE : ℕ := 512
def UIO_CHUNK : ℕ := 256
def PIPE_BUF : ℕ := 4096
def SIGPIPE : ℕ := 13
def EPIPE : ℤ := 32

/-- Which write call a byte came from: its number, and how many bytes it was asked
to write. -/
structure Tag where
  call : ℕ
  len : ℕ
  deriving DecidableEq, Repr

/-- The arguments of a `read`, and the bytes it has copied to its caller so far.
`copyout off n` tells whether `n` bytes can be stored at offset `off`. -/
structure ReadCall where
  fd : ℕ
  len : ℕ
  copyout : ℕ → ℕ → Bool
  got : List UInt8

/-- The arguments of a `write`, and how many bytes have been accepted in full
chunks. `buf off` is the byte that `copyin` finds at offset `off`. -/
structure WriteCall where
  fd : ℕ
  len : ℕ
  buf : ℕ → UInt8
  copyin : ℕ → ℕ → Bool
  done : ℕ
  call : ℕ

def WriteCall.tag (c : WriteCall) : Tag := ⟨c.call, c.len⟩

/-- What the kernel stack of a process that sleeps on a pipe holds. -/
inductive Io
  -- in `pipe_read` for `n` bytes
  | read (c : ReadCall) (pipe n : ℕ)
  -- in `pipe_write` for `n` bytes, of which `i` are stored
  | write (c : WriteCall) (pipe n i : ℕ)

def Io.pipe : Io → ℕ
  | .read _ i _ => i
  | .write _ i _ _ => i

/-- What a `read` that sleeps has copied out. -/
def Io.got : Io → Option ℕ
  | .read c _ _ => some c.got.length
  | .write _ _ _ _ => none

/-- What a finished call returns, with the bytes a `read` has copied out. -/
structure Result where
  value : ℤ
  bytes : List UInt8
  deriving DecidableEq

structure World where
  k : Kernel
  ring : ℕ → Ring UInt8 32
  io : ℤ → Option Io
  result : ℤ → Option Result
  -- the number of the next write call
  calls : ℕ
  -- the bytes that went into each pipe, and those that came out
  stored : ℕ → List (Tag × UInt8)
  taken : ℕ → List UInt8

def setPid {α : Type} (f : ℤ → α) (pid : ℤ) (a : α) : ℤ → α := fun q => if q = pid then a else f q

variable {α : Type}

@[simp] theorem setPid_same (f : ℤ → α) (pid : ℤ) (a : α) : setPid f pid a pid = a :=
  if_pos rfl

theorem setPid_ne (f : ℤ → α) {pid q : ℤ} (a : α) (h : q ≠ pid) : setPid f pid a q = f q :=
  if_neg h

namespace World

def setIo (w : World) (pid : ℤ) (io : Io) : World := { w with io := setPid w.io pid (some io) }

/-- The call of `pid` returns. -/
def finish (w : World) (pid : ℤ) (value : ℤ) (bytes : List UInt8) : World :=
  { w with io := setPid w.io pid none, result := setPid w.result pid (some ⟨value, bytes⟩) }

/-- `proc_wakeup_chan` -/
def wakeup (w : World) (i : ℕ) : World := { w with k := procWakeupChan w.k i }

/-- `proc_sleep_chan`, up to the switch to the scheduler. -/
def sleepOn (w : World) (pid : ℤ) (i : ℕ) : World :=
  { w with k := w.k.modify pid fun p => { p with state := .sleeping, sleepChan := some i } }

/-- `proc_sleep_chan`, behind the switch. -/
def awake (w : World) (pid : ℤ) : World :=
  { w with k := w.k.modify pid fun p => { p with sleepChan := none } }

/-- Bytes leave the ring of pipe `i`. -/
def take (w : World) (i : ℕ) (bs : List UInt8) (r : Ring UInt8 32) : World :=
  { w with ring := setAt w.ring i r, taken := setAt w.taken i (w.taken i ++ bs) }

/-- Bytes enter the ring of pipe `i`. -/
def store (w : World) (i : ℕ) (bs : List (Tag × UInt8)) (r : Ring UInt8 32) : World :=
  { w with ring := setAt w.ring i r, stored := setAt w.stored i (w.stored i ++ bs) }

/-- The pipe behind descriptor `fd` of `pid`, and whether it is the write end. -/
def pipeFd (w : World) (pid : ℤ) (fd : ℕ) : Option (ℕ × Bool) :=
  match (w.k.find pid).bind (·.ofile fd) with
  | none => none
  | some f =>
    if (w.k.ftable f).type = .pipe then some ((w.k.ftable f).pipe, (w.k.ftable f).writable) else
      none

end World

/-! ### `pipe_read` -/

/-- The copy loop of `pipe_read`. -/
def takeLoop : ℕ → Ring UInt8 32 → List UInt8 × Ring UInt8 32
  | 0, r => ([], r)
  | n + 1, r =>
    if r.nread = r.nwrite then ([], r)
    else
      let (bs, r') := takeLoop n r.pop
      (r.front PIPESIZE :: bs, r')

/-- `pipe_read` up to its return (the bytes) or its next sleep (`none`). -/
def pipeRead (pid : ℤ) (i n : ℕ) (w : World) : Option (List UInt8) × World :=
  if (w.ring i).nread = (w.ring i).nwrite ∧ (w.k.pipes i).writeopen then (none, w.sleepOn pid i)
  else
    let (bs, r) := takeLoop n (w.ring i)
    (some bs, (w.take i bs r).wakeup i)

/-! ### `pipe_write` -/

/-- How the store loop of `pipe_write` ends. -/
inductive StoreEnd
  | all | full | broken
  deriving DecidableEq

/-- The store loop of `pipe_write` for the bytes `b i`, …, `m` of them, into a pipe
whose read end is open or not: how many are stored, the ring, and why it ends. -/
def storeLoop (readopen : Bool) (b : ℕ → UInt8) :
    ℕ → ℕ → Ring UInt8 32 → ℕ × Ring UInt8 32 × StoreEnd
  | 0, i, r => (i, r, .all)
  | m + 1, i, r =>
    if r.nwrite = r.nread + BitVec.ofNat 32 PIPESIZE then
      (i, r, if readopen then .full else .broken)
    else if readopen then storeLoop readopen b m (i + 1) (r.push PIPESIZE (b i))
    else (i, r, .broken)

/-- The bytes `a`, …, `b - 1` of a chunk, with the call they came from. -/
def tagged (t : Tag) (b : ℕ → UInt8) (a z : ℕ) : List (Tag × UInt8) :=
  (List.range' a (z - a)).map fun x => (t, b x)

/-- `pipe_write` from byte `i` of a chunk of `n` on, up to its return (its value) or
its next sleep (the bytes stored by then). -/
def pipeWrite (pid : ℤ) (t : Tag) (j : ℕ) (b : ℕ → UInt8) (n i : ℕ) (w : World) :
    Except ℕ ℤ × World :=
  let (i', r, e) := storeLoop (w.k.pipes j).readopen b (n - i) i (w.ring j)
  let w := w.store j (tagged t b i i') r
  match e with
  | .all => (.ok n, w.wakeup j)
  | .full => (.error i', (w.wakeup j).sleepOn pid j)
  | .broken => (.ok (-EPIPE), { w with k := sendSignal w.k pid SIGPIPE })

/-! ### The system calls -/

/-- `return done > 0 ? done : r` -/
def ReadCall.failed (c : ReadCall) (r : ℤ) : ℤ := if 0 < c.got.length then c.got.length else r

/-- The loop of `sys_read` behind a call of `fileread` for `n` bytes. -/
def afterRead (next : ReadCall → World → World) (pid : ℤ) (c : ReadCall) (i n : ℕ) :
    Option (List UInt8) × World → World
  | (none, w) => w.setIo pid (.read c i n)
  | (some bs, w) =>
    if bs = [] then w.finish pid c.got.length c.got
    else if c.copyout c.got.length bs.length then
      let c := { c with got := c.got ++ bs }
      if bs.length < n then w.finish pid c.got.length c.got else next c w
    else w.finish pid (c.failed (-EFAULT)) c.got

/-- The loop of `sys_read`. A round takes at least one byte or ends the loop, so
`len - done` rounds are enough. -/
def readLoop (pid : ℤ) : ℕ → ReadCall → World → World
  | 0, c, w => w.finish pid c.got.length c.got
  | fuel + 1, c, w =>
    if c.len ≤ c.got.length then w.finish pid c.got.length c.got
    else
      let chunk := min (c.len - c.got.length) UIO_CHUNK
      match w.pipeFd pid c.fd with
      | none => w.finish pid (c.failed (-EBADF)) c.got
      | some (i, writable) =>
        if writable then w.finish pid (c.failed (-EBADF)) c.got
        else afterRead (readLoop pid fuel) pid c i chunk (pipeRead pid i chunk w)

/-- `sys_read` with a buffer that is not null, on a pipe. -/
def sysRead (pid : ℤ) (c : ReadCall) (w : World) : World := readLoop pid c.len c w

/-- The rest of a `sys_read` whose `pipe_read` was woken. -/
def resumeRead (pid : ℤ) (c : ReadCall) (i n : ℕ) (actionable : Bool) (w : World) : World :=
  if actionable then w.finish pid (c.failed (-ERESTARTSYS)) c.got
  else afterRead (readLoop pid c.len) pid c i n (pipeRead pid i n w)

def WriteCall.failed (c : WriteCall) (r : ℤ) : ℤ := if 0 < c.done then c.done else r

/-- The loop of `sys_write` behind a call of `filewrite` for `n` bytes. -/
def afterWrite (next : WriteCall → World → World) (pid : ℤ) (c : WriteCall) (j n : ℕ) :
    Except ℕ ℤ × World → World
  | (.error i, w) => w.setIo pid (.write c j n i)
  | (.ok v, w) =>
    if v < 0 then w.finish pid (c.failed v) []
    else if v = 0 then w.finish pid c.done []
    else
      let c := { c with done := c.done + v.toNat }
      if v.toNat < n then w.finish pid c.done [] else next c w

/-- The loop of `sys_write`. -/
def writeLoop (pid : ℤ) : ℕ → WriteCall → World → World
  | 0, c, w => w.finish pid c.done []
  | fuel + 1, c, w =>
    if c.len ≤ c.done then w.finish pid c.done []
    else
      let chunk := min (c.len - c.done) UIO_CHUNK
      if c.copyin c.done chunk = false then w.finish pid (c.failed (-EFAULT)) []
      else
        match w.pipeFd pid c.fd with
        | none => w.finish pid (c.failed (-EBADF)) []
        | some (j, writable) =>
          if writable = false then w.finish pid (c.failed (-EBADF)) []
          else afterWrite (writeLoop pid fuel) pid c j chunk
            (pipeWrite pid c.tag j (fun x => c.buf (c.done + x)) chunk 0 w)

/-- `sys_write` with a buffer that is not null, on a pipe. -/
def sysWrite (pid : ℤ) (c : WriteCall) (w : World) : World := writeLoop pid c.len c w

/-- The rest of a `sys_write` whose `pipe_write` was woken. -/
def resumeWrite (pid : ℤ) (c : WriteCall) (j n i : ℕ) (actionable : Bool) (w : World) : World :=
  if actionable then
    afterWrite (writeLoop pid c.len) pid c j n (.ok (if 0 < i then (i : ℤ) else -ERESTARTSYS), w)
  else
    afterWrite (writeLoop pid c.len) pid c j n
      (pipeWrite pid c.tag j (fun x => c.buf (c.done + x)) n i w)

/-! ### The machine -/

inductive Label
  -- anything that is not a call on a pipe
  | kern (l : Proc.Label)
  | read (fd len : ℕ) (copyout : ℕ → ℕ → Bool)
  | write (fd len : ℕ) (buf : ℕ → UInt8) (copyin : ℕ → ℕ → Bool)
  -- the running process goes on behind its sleep in a pipe
  | resume

/-- The pipe that `sys_pipe` clears: `pipe_pool_alloc` finds it and zeroes it. -/
def cleared (k : Kernel) : Proc.Label → Option ℕ
  | .call (.pipe (some _)) =>
    match k.currentProc with
    | none => none
    | some p => if procFdLimit p < procOpenFdCount p + 2 then none else pipePoolAlloc k
  | _ => none

def emptyRing : Ring UInt8 32 := ⟨fun _ => 0, 0, 0⟩

/-- Replace the value at the index that is cleared, if one is. -/
def resetAt {α : Type} (f : ℕ → α) (i : Option ℕ) (a : α) : ℕ → α :=
  match i with
  | none => f
  | some i => setAt f i a

@[simp] theorem resetAt_same (f : ℕ → α) (i : ℕ) (a : α) : resetAt f (some i) a i = a :=
  setAt_same f i a

theorem resetAt_ne (f : ℕ → α) {i : Option ℕ} {j : ℕ} (a : α) (h : i ≠ some j) :
    resetAt f i a j = f j := by
  rcases i with _ | i
  · rfl
  · exact setAt_ne f a fun he => h (congrArg some he.symm)

/-- The results that are left when a process goes back to user mode. -/
def World.resultsAfter (w : World) (l : Proc.Label) : ℤ → Option Result :=
  match l, w.k.current with
  | .ret _ _, some pid => setPid w.result pid none
  | _, _ => w.result

/-- The world after the step `l` of the process machine, which led to `k'`. -/
def World.kern (w : World) (l : Proc.Label) (k' : Kernel) : World :=
  { w with
    k := k'
    ring := resetAt w.ring (cleared w.k l) emptyRing
    stored := resetAt w.stored (cleared w.k l) []
    taken := resetAt w.taken (cleared w.k l) []
    result := w.resultsAfter l }

/-- A trap returns what the call on a pipe returned. -/
def returns (path : RetPath) (r : Option Result) : Prop :=
  match r, path with
  | none, _ => True
  | some r, .ecall ret _ => ret = r.value
  | some _, _ => False

/-- What the process machine may do while `pid` runs: a process that is inside a
call on a pipe does nothing else. -/
def World.allowsFor (w : World) (l : Proc.Label) (current : Option ℤ) : Prop :=
  match l, current with
  | .call _, some pid => w.io pid = none ∧ w.result pid = none
  | .ret path _, some pid => w.io pid = none ∧ returns path (w.result pid)
  | _, _ => True

def World.allows (w : World) (l : Proc.Label) : Prop := w.allowsFor l w.k.current

/-- The current process is in the kernel and not in a call on a pipe. -/
def World.atCall (w : World) (pid : ℤ) : Prop :=
  runsAt w.k .trap ∧ w.k.current = some pid ∧ w.io pid = none ∧ w.result pid = none

inductive Step : World → Label → World → Prop
  | kern {w : World} {l : Proc.Label} {k' : Kernel} : w.allows l → Proc.Step w.k l k' →
    Step w (.kern l) (w.kern l k')
  | read {w : World} {pid : ℤ} {fd len : ℕ} {copyout : ℕ → ℕ → Bool} : w.atCall pid →
    (w.pipeFd pid fd).isSome →
    Step w (.read fd len copyout) (sysRead pid ⟨fd, len, copyout, []⟩ w)
  | write {w : World} {pid : ℤ} {fd len : ℕ} {buf : ℕ → UInt8} {copyin : ℕ → ℕ → Bool} :
    w.atCall pid → (w.pipeFd pid fd).isSome →
    Step w (.write fd len buf copyin)
      (sysWrite pid ⟨fd, len, buf, copyin, 0, w.calls⟩ { w with calls := w.calls + 1 })
  | resumeRead {w : World} {p : Pcb} {c : ReadCall} {i n : ℕ} : runsAt w.k .trap →
    w.k.currentProc = some p → w.io p.pid = some (.read c i n) →
    Step w .resume (resumeRead p.pid c i n (sigHasActionable p) (w.awake p.pid))
  | resumeWrite {w : World} {p : Pcb} {c : WriteCall} {j n i : ℕ} : runsAt w.k .trap →
    w.k.currentProc = some p → w.io p.pid = some (.write c j n i) →
    Step w .resume (resumeWrite p.pid c j n i (sigHasActionable p) (w.awake p.pid))

instance (path : RetPath) (r : Option Result) : Decidable (returns path r) :=
  match r, path with
  | none, _ => .isTrue trivial
  | some r, .ecall ret _ => inferInstanceAs (Decidable (ret = r.value))
  | some _, .checked => .isFalse id
  | some _, .fault => .isFalse id

instance (w : World) (l : Proc.Label) (current : Option ℤ) : Decidable (w.allowsFor l current) :=
  match l, current with
  | .call _, some pid => inferInstanceAs (Decidable (w.io pid = none ∧ w.result pid = none))
  | .ret path _, some pid =>
    inferInstanceAs (Decidable (w.io pid = none ∧ returns path (w.result pid)))
  | .call _, none => .isTrue trivial
  | .ret _ _, none => .isTrue trivial
  | .enter _, _ => .isTrue trivial
  | .dispatch _, _ => .isTrue trivial
  | .reapOrphan, _ => .isTrue trivial
  | .tick _, _ => .isTrue trivial
  | .tty _, _ => .isTrue trivial
  | .wake _, _ => .isTrue trivial
  | .wakeChan _, _ => .isTrue trivial

instance (w : World) (l : Proc.Label) : Decidable (w.allows l) :=
  inferInstanceAs (Decidable (w.allowsFor l w.k.current))

instance (w : World) (pid : ℤ) : Decidable (w.atCall pid) :=
  inferInstanceAs (Decidable (_ ∧ _ ∧ _ ∧ _))

/-- The step with a label, if there is one. -/
def exec (w : World) : Label → Option World
  | .kern l =>
    if w.allows l ∧ enabled w.k l then
      match act l w.k with
      | (some (), k') => some (w.kern l k')
      | (none, _) => none
    else none
  | .read fd len copyout =>
    match w.k.current with
    | none => none
    | some pid =>
      if w.atCall pid ∧ (w.pipeFd pid fd).isSome then
        some (sysRead pid ⟨fd, len, copyout, []⟩ w)
      else none
  | .write fd len buf copyin =>
    match w.k.current with
    | none => none
    | some pid =>
      if w.atCall pid ∧ (w.pipeFd pid fd).isSome then
        some (sysWrite pid ⟨fd, len, buf, copyin, 0, w.calls⟩ { w with calls := w.calls + 1 })
      else none
  | .resume =>
    match w.k.currentProc with
    | none => none
    | some p =>
      if runsAt w.k .trap then
        match w.io p.pid with
        | none => none
        | some (.read c i n) =>
          some (resumeRead p.pid c i n (sigHasActionable p) (w.awake p.pid))
        | some (.write c j n i) =>
          some (resumeWrite p.pid c j n i (sigHasActionable p) (w.awake p.pid))
      else none

theorem exec_step {w w' : World} {l : Label} (h : exec w l = some w') : Step w l w' := by
  cases l with
  | kern l =>
    simp only [exec] at h
    split at h
    · next hen =>
      rcases hact : act l w.k with ⟨_ | ⟨⟩, k'⟩
      · simp [hact] at h
      · simp only [hact, Option.some.injEq] at h
        subst h
        exact .kern hen.1 ⟨hen.2, hact⟩
    · cases h
  | read fd len copyout =>
    simp only [exec] at h
    split at h
    · cases h
    split at h
    · next hen =>
      cases h
      exact .read hen.1 hen.2
    · cases h
  | write fd len buf copyin =>
    simp only [exec] at h
    split at h
    · cases h
    split at h
    · next hen =>
      cases h
      exact .write hen.1 hen.2
    · cases h
  | resume =>
    simp only [exec] at h
    split at h
    · cases h
    next p hp =>
    split at h
    · next hruns =>
      rcases hio : w.io p.pid with _ | ⟨c, i, n⟩ | ⟨c, j, n, i⟩
      · simp [hio] at h
      · simp only [hio, Option.some.injEq] at h
        subst h
        exact .resumeRead hruns hp hio
      · simp only [hio, Option.some.injEq] at h
        subst h
        exact .resumeWrite hruns hp hio
    · cases h

/-- Carry out labels one after the other, as long as each meets `ok`. -/
def run (ok : World → Label → Bool) : List Label → World → Option World
  | [], w => some w
  | l :: ls, w => if ok w l then (exec w l).bind (run ok ls) else none

theorem run_reaches {ok : World → Label → Bool} {ls : List Label} {w w' : World}
    (h : run ok ls w = some w') : Reaches Step (fun w l => ok w l = true) w w' :=
  reaches_of_run (fun _ => rfl) (fun _ _ _ => rfl) exec_step h

/-- No pipe has been opened yet. -/
def bootWorld (pid : ℤ) (entry sp : BitVec 64) : World where
  k := bootKernel pid entry sp
  ring := fun _ => emptyRing
  io := fun _ => none
  result := fun _ => none
  calls := 0
  stored := fun _ => []
  taken := fun _ => []

end Sbunix.Pipe
