import Sbunix.Lib.Machine
import Sbunix.Lib.Ring
import Sbunix.Proc.Send

/-!
# The console

The receive side of `uart.c` and `console_read` of `devfs.c`: the interrupt
handler edits a line and commits it to a ring, and readers take bytes from the
ring one at a time. Nothing in `line_push` asks for room.

A reader compares `line_avail` with zero, takes the byte and stores the
decremented count. Interrupts may be on there, since a process that was switched
away from with interrupts on leaves them on for the next, so the two halves are
two steps.
-/

namespace Sbunix.Console

open Lib
open Proc (Pcb SIGTTIN SIGTSTP SIG_IGN)

def EDIT_SZ : ℕ := 256
def LINE_SZ : ℕ := 512

def ICRNL : BitVec 32 := 0x100
def ISIG : BitVec 32 := 0x1
def ICANON : BitVec 32 := 0x2
def ECHO : BitVec 32 := 0x8

def VINTR : ℕ := 0
def VQUIT : ℕ := 1
def VERASE : ℕ := 2
def VEOF : ℕ := 4
def VSUSP : ℕ := 10

def SIGINT : ℕ := 2
def SIGQUIT : ℕ := 3

def EIO : ℤ := 5
def EINTR : ℤ := 4
def ERESTARTSYS : ℤ := 512

/-- The fields of `struct termios` that input uses. -/
structure Termios where
  iflag : BitVec 32
  lflag : BitVec 32
  cc : ℕ → UInt8

namespace Termios

def icrnl (t : Termios) : Bool := t.iflag &&& ICRNL ≠ 0
def isig (t : Termios) : Bool := t.lflag &&& ISIG ≠ 0
def icanon (t : Termios) : Bool := t.lflag &&& ICANON ≠ 0
def echo (t : Termios) : Bool := t.lflag &&& ECHO ≠ 0

/-- `termios_init` -/
def init : Termios where
  iflag := ICRNL
  lflag := ISIG ||| ICANON ||| ECHO
  cc i := if i = VINTR then 0x03 else if i = VQUIT then 0x1c else if i = VERASE then 0x7f
    else if i = VEOF then 0x04 else if i = VSUSP then 0x1a else if i = 6 then 1 else 0

end Termios

/-- The static variables of `uart.c`; `line` is `line_buf` with `line_head`,
`line_tail` and `line_avail`. -/
structure Uart where
  editBuf : ℕ → UInt8
  editLen : ℕ
  line : IndexRing UInt8
  rxBlockedPid : ℤ

/-- What the driver does to the rest of the system. -/
inductive Effect
  | writeChar (c : UInt8)
  | procWakeup (pid : ℤ)
  | sendSignalPgrp (pgid : ℤ) (sig : ℕ)
  deriving DecidableEq

def writeChars (on : Bool) (cs : List UInt8) : List Effect := if on then cs.map .writeChar else []

namespace Uart

def edit (u : Uart) : List UInt8 := (List.range u.editLen).map u.editBuf

def linePush (u : Uart) (src : List UInt8) : Uart :=
  { u with line := src.foldl (IndexRing.put LINE_SZ) u.line }

def wakeReader (u : Uart) : Uart × List Effect :=
  if u.rxBlockedPid ≠ 0 then ({ u with rxBlockedPid := 0 }, [.procWakeup u.rxBlockedPid])
    else (u, [])

def lineCommit (u : Uart) : Uart × List Effect :=
  let u := if 0 < u.editLen then u.linePush u.edit else u
  wakeReader { u.linePush [10] with editLen := 0 }

def lineCommitEof (u : Uart) : Uart × List Effect :=
  wakeReader { u.linePush [0] with editLen := 0 }

end Uart

/-- The signal that a character stands for, and how it is echoed. -/
def sigchar (t : Termios) (c : UInt8) : Option (ℕ × UInt8) :=
  if c = t.cc VINTR then some (SIGINT, 67)
  else if c = t.cc VQUIT then some (SIGQUIT, 92)
  else if c = t.cc VSUSP then some (SIGTSTP, 90)
  else none

/-- `uart_rx_isr` for a character of canonical input. -/
def canonChar (t : Termios) (c : UInt8) (u : Uart) : Uart × List Effect :=
  if c = t.cc VEOF then
    (if 0 < u.editLen then { u.linePush u.edit with editLen := 0 } else u).lineCommitEof
  else if c = 10 then
    let (u, out) := u.lineCommit
    (u, writeChars t.echo [13, 10] ++ out)
  else if c = t.cc VERASE ∨ c = 8 then
    if 0 < u.editLen then ({ u with editLen := u.editLen - 1 }, writeChars t.echo [8, 32, 8])
      else (u, [])
  else if 0x20 ≤ c ∧ u.editLen < EDIT_SZ - 1 then
    ({ u with editBuf := Function.update u.editBuf u.editLen c, editLen := u.editLen + 1 },
      writeChars t.echo [c])
  else (u, [])

def rawChar (t : Termios) (c : UInt8) (u : Uart) : Uart × List Effect :=
  let (u, out) := (u.linePush [c]).wakeReader
  (u, writeChars t.echo [c] ++ out)

/-- The body of the loop of `uart_rx_isr`, for one character. -/
def uartRx (t : Termios) (fgPgid : ℤ) (c : UInt8) (u : Uart) : Uart × List Effect :=
  match if t.isig then sigchar t c else none with
  | some (sig, ech) =>
    ({ u with editLen := 0 }, writeChars t.echo [94, ech, 13, 10] ++
      if 0 < fgPgid then [.sendSignalPgrp fgPgid sig] else [])
  | none =>
    let c := if t.icrnl ∧ c = 13 then 10 else c
    if t.icanon then canonChar t c u else rawChar t c u

/-- The gate of `console_read`: what a read by a background process returns. -/
def ttinGate (me : Pcb) (sess fg : ℤ) : Option (ℤ × List Effect) :=
  if me.isUser ∧ sess ≠ 0 ∧ fg ≠ 0 ∧ me.sid = sess ∧ me.pgid ≠ fg then
    if me.sigBlocked.getLsbD SIGTTIN ∨ (me.sigHandlers SIGTTIN).handler = SIG_IGN then
      some (- EIO, [])
    else some (-EINTR, [.sendSignalPgrp me.pgid SIGTTIN])
  else none

/-- A process inside `console_read`. -/
structure Reader where
  n : ℕ
  canonical : Bool
  -- the bytes stored to its buffer
  got : List UInt8
  asleep : Bool

/-- The console with its readers. `typed`, `delivered`, `returns` and `out` are a
record of what has happened. -/
structure Tty where
  uart : Uart
  readers : ℤ → Option Reader
  -- the reader that has found bytes, with the value of `line_avail` it found
  taking : Option (ℤ × ℕ)
  typed : List (Termios × UInt8)
  delivered : List UInt8
  returns : List (ℤ × ℤ)
  out : List Effect

inductive Label
  -- a character is received
  | rx (t : Termios) (fgPgid : ℤ) (c : UInt8)
  -- a process calls `console_read`
  | read (me : Pcb) (n : ℕ) (t : Termios) (sess fg : ℤ)
  -- a reader compares `line_avail` with zero
  | look (pid : ℤ)
  -- it takes the byte
  | take
  -- a sleeping reader runs again
  | wake (pid : ℤ) (actionable : Bool)

namespace Tty

def setReader (s : Tty) (pid : ℤ) (r : Option Reader) : Tty :=
  { s with readers := Function.update s.readers pid r }

/-- `console_read` returns `v` to `pid`. -/
def ret (s : Tty) (pid v : ℤ) : Tty :=
    { s.setReader pid none with returns := s.returns ++ [(pid, v)] }

/-- `console_read` up to its loop. -/
def read (s : Tty) (me : Pcb) (n : ℕ) (t : Termios) (sess fg : ℤ) : Tty :=
  match ttinGate me sess fg with
  | some (v, out) => { s.ret me.pid v with out := s.out ++ out }
  | none => if n = 0 then s.ret me.pid 0 else s.setReader me.pid (some ⟨n, t.icanon, [], false⟩)

/-- The loop of `uart_rx_get`: go on, or sleep. -/
def look (s : Tty) (pid : ℤ) (r : Reader) : Tty :=
  if s.uart.line.count = 0 then
    { s.setReader pid (some { r with asleep := true }) with
      uart := { s.uart with rxBlockedPid := pid } }
  else { s with taking := some (pid, s.uart.line.count) }

/-- `uart_rx_get` behind its loop. -/
def takeByte (s : Tty) (avail : ℕ) : Tty :=
  { s with uart := { s.uart with line := s.uart.line.skip LINE_SZ (avail - 1) }, taking := none }

/-- The body of the loop of `console_read` for what `uart_rx_get` has found. -/
def store (s : Tty) (pid : ℤ) (r : Reader) (c : UInt8) : Tty :=
  if c = 0 then s.ret pid r.got.length
  else
    let got := r.got ++ [c]
    let s := { s with delivered := s.delivered ++ [c] }
    if r.canonical ∧ c = 10 then s.ret pid got.length
    else if got.length < r.n then s.setReader pid (some { r with got := got })
    else s.ret pid r.n

/-- A reader behind `proc_sleep`. -/
def resume (s : Tty) (pid : ℤ) (r : Reader) (actionable : Bool) : Tty :=
  if actionable then s.ret pid (if 0 < r.got.length then r.got.length else -ERESTARTSYS)
  else s.setReader pid (some { r with asleep := false })

/-- One step; `none` if the label is not possible. Readers do not preempt each other. -/
def act (s : Tty) : Label → Option Tty
  | .rx t fgPgid c =>
    let (u, out) := uartRx t fgPgid c s.uart
    some { s with uart := u, typed := s.typed ++ [(t, c)], out := s.out ++ out }
  | .read me n t sess fg =>
    if s.taking.isSome ∨ (s.readers me.pid).isSome then none else some (s.read me n t sess fg)
  | .look pid =>
    match s.taking, s.readers pid with
    | none, some r => if r.asleep then none else some (s.look pid r)
    | _, _ => none
  | .take =>
    match s.taking with
    | none => none
    | some (pid, avail) =>
      (s.readers pid).map fun r => (s.takeByte avail).store pid r
        (s.uart.line.data s.uart.line.head)
  | .wake pid actionable =>
    match s.taking, s.readers pid with
    | none, some r => if r.asleep then some (s.resume pid r actionable) else none
    | _, _ => none

/-- The console at boot. -/
def boot : Tty where
  uart := ⟨fun _ => 0, 0, ⟨fun _ => 0, 0, 0, 0⟩, 0⟩
  readers _ := none
  taking := none
  typed := []
  delivered := []
  returns := []
  out := []

def run : List Label → Tty → Option Tty
  | [], s => some s
  | l :: ls, s => (s.act l).bind (run ls)

end Tty

def Step (s : Tty) (l : Label) (s' : Tty) : Prop := s.act l = some s'

end Sbunix.Console
