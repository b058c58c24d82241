import Sbunix.Console.Model
import Sbunix.Proc.Life

/-!
# Canonical input is a stream of lines

`Editor` says what canonical input is for: keys edit a line, and a line that is
ended by newline or end-of-file is committed. The driver follows it, and what
has been delivered together with what waits in the ring is what has been
committed, as long as a character finds room, no key asks for what the driver
does not do, and no character arrives while a reader is between reading and
storing `line_avail`.
-/

namespace Sbunix.Console

open Lib List
open Proc (Pcb newPcb)

/-- `VKILL` of the C library's `termios.h`. -/
def VKILL : ℕ := 3

/-- What a character means to the editor of a line. -/
inductive Key
  | signal
  | eof
  | newline
  | erase
  | kill
  | char (c : UInt8)
  deriving DecidableEq

def lineKey (t : Termios) (c : UInt8) : Key :=
  if c = t.cc VEOF then .eof
  else if c = 10 then .newline
  else if c = t.cc VERASE ∨ c = 8 then .erase
  else if c = t.cc VKILL then .kill
  else .char c

def key (t : Termios) (c : UInt8) : Key :=
  if t.isig ∧ (c = t.cc VINTR ∨ c = t.cc VQUIT ∨ c = t.cc VSUSP) then .signal
  else lineKey t (if t.icrnl ∧ c = 13 then 10 else c)

/-- A line that is being edited, and the lines that have been committed. -/
structure Editor where
  line : List UInt8
  lines : List (List UInt8)

namespace Editor

def press (e : Editor) : Key → Editor
  | .signal => { e with line := [] }
  | .eof => ⟨[], e.lines ++ [e.line]⟩
  | .newline => ⟨[], e.lines ++ [e.line ++ [10]]⟩
  | .erase => { e with line := e.line.dropLast }
  | .kill => { e with line := [] }
  | .char c => { e with line := e.line ++ [c] }

def committed (e : Editor) : List UInt8 := e.lines.flatten

end Editor

def edited (typed : List (Termios × UInt8)) : Editor :=
  typed.foldl (fun e k => e.press (key k.1 k.2)) ⟨[], []⟩

theorem edited_concat (typed : List (Termios × UInt8)) (t : Termios) (c : UInt8) :
    edited (typed ++ [(t, c)]) = (edited typed).press (key t c) := by
  simp [edited, foldl_append]

/-- The committed bytes that wait to be read; `0` marks an end of file. -/
def Uart.waiting (u : Uart) : List UInt8 := (u.line.contents LINE_SZ).filter (· ≠ 0)

/-- The driver can follow the key: it is one that the driver knows, and there is room. -/
def follows (u : Uart) : Key → Prop
  | .signal => True
  | .erase => True
  | .kill => False
  | .eof => u.line.count + u.editLen < LINE_SZ
  | .newline => u.line.count + u.editLen < LINE_SZ
  | .char c => 0x20 ≤ c ∧ u.editLen < EDIT_SZ - 1 ∧ u.line.count + u.editLen < LINE_SZ

instance (u : Uart) : (k : Key) → Decidable (follows u k)
  | .signal => .isTrue trivial
  | .erase => .isTrue trivial
  | .kill => .isFalse id
  | .eof => inferInstanceAs (Decidable (_ < _))
  | .newline => inferInstanceAs (Decidable (_ < _))
  | .char _ => inferInstanceAs (Decidable (_ ∧ _ ∧ _))

/-- Canonical input that the driver can follow, and that does not arrive while a
reader takes a byte. -/
def orderly (s : Tty) : Label → Prop
  | .rx t _ c => t.icanon = true ∧ follows s.uart (key t c) ∧ s.taking = none
  | _ => True

instance (s : Tty) : (l : Label) → Decidable (orderly s l)
  | .rx _ _ _ => inferInstanceAs (Decidable (_ ∧ _ ∧ _))
  | .read _ _ _ _ _ => .isTrue trivial
  | .look _ => .isTrue trivial
  | .take => .isTrue trivial
  | .wake _ _ => .isTrue trivial

/-! ### The driver and the editor -/

/-- The driver's state shows this line, and `q` in the ring. -/
structure Shows (u : Uart) (line q : List UInt8) : Prop where
  holds : u.line.Holds LINE_SZ q
  edit : u.edit = line
  nonzero : ∀ b ∈ line, b ≠ 0
  fits : q.length + line.length ≤ LINE_SZ

variable {c : UInt8} {t : Termios} {u : Uart} {line q : List UInt8}

theorem Shows.editLen (h : Shows u line q) : u.editLen = line.length := by
  rw [← h.edit]
  simp [Uart.edit]

theorem Uart.wakeReader_fst (u : Uart) : u.wakeReader.1 = { u with rxBlockedPid := 0 } := by
  unfold wakeReader
  split
  · rfl
  · next h =>
    rw [not_not] at h
    cases u
    cases h
    rfl

section

variable (h : Shows u line q)

include h

theorem Shows.clear : Shows { u with editLen := 0 } [] q :=
  ⟨h.holds, rfl, nofun, by simpa using h.holds.fits⟩

theorem Shows.commit (hroom : q.length + line.length < LINE_SZ) (mark : UInt8) :
    Shows { (u.linePush line).linePush [mark] with editLen := 0, rxBlockedPid := 0 } []
      (q ++ (line ++ [mark])) := by
  have hfits : (q ++ line).length + [mark].length ≤ LINE_SZ := by
    simp only [length_append, length_singleton]
    omega
  have hholds := (h.holds.putAll h.fits).putAll hfits
  rw [append_assoc] at hholds
  exact ⟨hholds, rfl, nofun, by simpa using hholds.fits⟩

theorem Shows.push_edit : (if 0 < u.editLen then u.linePush u.edit else u) = u.linePush line := by
  split
  · rw [h.edit]
  · next h0 =>
    have hnil : line = [] := by
      rw [← length_eq_zero_iff, ← h.editLen]
      omega
    rw [hnil]
    rfl

theorem Shows.lineCommit (hroom : q.length + line.length < LINE_SZ) :
    Shows u.lineCommit.1 [] (q ++ (line ++ [10])) := by
  unfold Uart.lineCommit
  rw [Uart.wakeReader_fst, h.push_edit]
  exact h.commit hroom 10

theorem Shows.lineCommitEof (hroom : q.length + line.length < LINE_SZ) :
    Shows (if 0 < u.editLen then { u.linePush u.edit with editLen := 0 } else u).lineCommitEof.1 []
      (q ++ (line ++ [0])) := by
  have hpush := h.push_edit
  unfold Uart.lineCommitEof
  rw [Uart.wakeReader_fst]
  split
  · next hpos =>
    rw [if_pos hpos] at hpush
    rw [hpush]
    exact h.commit hroom 0
  · next hpos =>
    rw [if_neg hpos] at hpush
    rw [hpush]
    exact h.commit hroom 0

theorem Shows.erase (hpos : 0 < u.editLen) :
    Shows { u with editLen := u.editLen - 1 } line.dropLast q := by
  refine ⟨h.holds, ?_, fun b hb => h.nonzero b (mem_of_mem_dropLast hb), ?_⟩
  · rw [← h.edit, Uart.edit, Uart.edit, ← map_dropLast]
    congr 1
    obtain ⟨n, hn⟩ := Nat.exists_eq_succ_of_ne_zero hpos.ne'
    simp [hn, range_succ]
  · have := h.fits
    rw [length_dropLast]
    omega

theorem Shows.append (hc : c ≠ 0) (hroom : q.length + line.length < LINE_SZ) :
    Shows { u with editBuf := Function.update u.editBuf u.editLen c, editLen := u.editLen + 1 }
      (line ++ [c]) q := by
  refine ⟨h.holds, ?_, ?_, ?_⟩
  · rw [← h.edit, Uart.edit, Uart.edit, range_succ, map_append]
    congr 1
    · refine map_congr_left fun i hi => Function.update_of_ne ?_ _ _
      have := mem_range.mp hi
      omega
    · simp
  · intro b hb
    rcases mem_append.mp hb with hb | hb
    · exact h.nonzero b hb
    · rw [mem_singleton.mp hb]
      exact hc
  · rw [length_append, length_singleton]
    omega

end

/-- What a key adds to the ring. -/
def pushes (line : List UInt8) : Key → List UInt8
  | .eof => line ++ [0]
  | .newline => line ++ [10]
  | .signal => []
  | .erase => []
  | .kill => []
  | .char _ => []

theorem Shows.canonChar (h : Shows u line q)
    (hfollows : follows u (lineKey t c)) (lines : List (List UInt8)) :
    Shows (canonChar t c u).1 ((Editor.mk line lines).press (lineKey t c)).line
      (q ++ pushes line (lineKey t c)) := by
  have hlen := h.editLen
  have hcount := h.holds.count
  unfold Console.canonChar
  unfold lineKey at hfollows ⊢
  by_cases heof : c = t.cc VEOF
  · rw [if_pos heof] at hfollows
    rw [if_pos heof, if_pos heof]
    exact h.lineCommitEof (by change _ < _ at hfollows; omega)
  rw [if_neg heof] at hfollows
  rw [if_neg heof, if_neg heof]
  by_cases hnl : c = 10
  · rw [if_pos hnl] at hfollows
    rw [if_pos hnl, if_pos hnl]
    exact h.lineCommit (by change _ < _ at hfollows; omega)
  rw [if_neg hnl] at hfollows
  rw [if_neg hnl, if_neg hnl]
  by_cases herase : c = t.cc VERASE ∨ c = 8
  · rw [if_pos herase, if_pos herase, pushes, append_nil]
    split
    · next hpos => exact h.erase hpos
    · -- nothing to erase
      obtain rfl : line = [] := length_eq_zero_iff.mp (by omega)
      exact h
  rw [if_neg herase] at hfollows
  rw [if_neg herase, if_neg herase]
  by_cases hkill : c = t.cc VKILL
  · rw [if_pos hkill] at hfollows
    exact hfollows.elim
  rw [if_neg hkill] at hfollows
  obtain ⟨hprint, hsize, hroom⟩ := hfollows
  rw [if_neg hkill, if_pos ⟨hprint, hsize⟩, pushes, append_nil]
  have hc : c ≠ 0 := by
    rintro rfl
    exact absurd hprint (by decide)
  exact h.append hc (by omega)

theorem Shows.uartRx (h : Shows u line q) (hcanon : t.icanon = true) (fgPgid : ℤ)
    (hfollows : follows u (key t c)) (lines : List (List UInt8)) :
    Shows (uartRx t fgPgid c u).1 ((Editor.mk line lines).press (key t c)).line
      (q ++ pushes line (key t c)) := by
  unfold Console.uartRx
  unfold key at hfollows ⊢
  by_cases hsig : t.isig ∧ (c = t.cc VINTR ∨ c = t.cc VQUIT ∨ c = t.cc VSUSP)
  · have hsome : ∃ sig ech, sigchar t c = some (sig, ech) := by
      unfold sigchar
      rcases hsig with ⟨-, h | h | h⟩ <;> split_ifs <;> simp_all
    obtain ⟨sig, ech, hs⟩ := hsome
    rw [if_pos hsig, if_pos hsig.1, hs, pushes, append_nil]
    exact h.clear
  · have hnone : (if t.isig = true then sigchar t c else none) = none := by
      unfold sigchar
      split_ifs <;> simp_all
    rw [if_neg hsig] at hfollows
    rw [if_neg hsig, hnone]
    dsimp only
    rw [if_pos hcanon]
    exact h.canonChar hfollows lines

theorem committed_press (e : Editor) (hnz : ∀ b ∈ e.line, b ≠ 0) (k : Key) :
    (e.press k).committed = e.committed ++ (pushes e.line k).filter (· ≠ 0) := by
  have hline : e.line.filter (· ≠ 0) = e.line :=
    filter_eq_self.mpr fun b hb => by simpa using hnz b hb
  cases k with
  | eof | newline =>
    rw [pushes, filter_append, hline]
    simp [Editor.press, Editor.committed]
  | _ => simp [Editor.press, Editor.committed, pushes]

/-! ### Runs -/

/-- What has been delivered and what is in the ring is what has been committed. -/
structure Streams (s : Tty) (q : List UInt8) : Prop where
  shows : Shows s.uart (edited s.typed).line q
  stream : s.delivered ++ q.filter (· ≠ 0) = (edited s.typed).committed
  -- a reader that takes a byte has read the right count
  taking : ∀ pid avail, s.taking = some (pid, avail) → avail = q.length ∧ 0 < avail

variable {s s' : Tty}

theorem Streams.same (h : Streams s q) (hline : s'.uart.line = s.uart.line)
    (hedit : s'.uart.edit = s.uart.edit) (htyped : s'.typed = s.typed)
    (hdel : s'.delivered = s.delivered) (htaking : s'.taking = none) : Streams s' q where
  shows := by
    rw [htyped]
    exact ⟨hline ▸ h.shows.holds, hedit ▸ h.shows.edit, h.shows.nonzero, h.shows.fits⟩
  stream := by
    rw [htyped, hdel]
    exact h.stream
  taking pid avail hp := by
    rw [htaking] at hp
    cases hp

theorem Streams.rx (h : Streams s q) {fgPgid : ℤ}
    (hok : orderly s (.rx t fgPgid c)) (hstep : Step s (.rx t fgPgid c) s') :
    Streams s' (q ++ pushes (edited s.typed).line (key t c)) := by
  obtain ⟨hcanon, hfollows, htaking⟩ := hok
  cases hstep
  constructor
  · rw [edited_concat]
    exact h.shows.uartRx hcanon fgPgid hfollows (edited s.typed).lines
  · rw [edited_concat, committed_press _ h.shows.nonzero, ← h.stream, filter_append, append_assoc]
  · intro pid avail hp
    rw [htaking] at hp
    cases hp

theorem Streams.store (h : Streams s (c :: q)) {pid : ℤ} {avail : ℕ}
    (htaking : s.taking = some (pid, avail)) (r : Reader) :
    Streams ((s.takeByte avail).store pid r c) q := by
  obtain ⟨rfl, -⟩ := h.taking pid avail htaking
  have hshows : Shows (s.takeByte (c :: q).length).uart (edited s.typed).line q := by
    refine ⟨?_, h.shows.edit, h.shows.nonzero, ?_⟩
    · have := h.shows.holds.take.2
      rwa [h.shows.holds.count] at this
    · have := h.shows.fits
      rw [length_cons] at this
      omega
  have hstream := h.stream
  unfold Tty.store
  dsimp only
  split_ifs with hzero
  · subst hzero
    exact ⟨hshows, hstream, nofun⟩
  all_goals
    rw [filter_cons_of_pos (by simpa using hzero), append_cons] at hstream
    exact ⟨hshows, hstream, nofun⟩

theorem Streams.step (h : Streams s q) {l : Label} (hok : orderly s l) (hstep : Step s l s') :
    ∃ q', Streams s' q' := by
  cases l with
  | rx t fgPgid c => exact ⟨_, h.rx hok hstep⟩
  | read me n t sess fg =>
    simp only [Step, Tty.act] at hstep
    split at hstep
    · cases hstep
    next hfree =>
    cases hstep
    have htaking : s.taking = none := by
      simpa using (not_or.mp hfree).1
    refine ⟨q, ?_⟩
    unfold Tty.read
    split
    · exact h.same rfl rfl rfl rfl htaking
    · split
      · exact h.same rfl rfl rfl rfl htaking
      · exact h.same rfl rfl rfl rfl htaking
  | look pid =>
    simp only [Step, Tty.act] at hstep
    split at hstep
    · next r htaking _ =>
      split at hstep
      · cases hstep
      cases hstep
      refine ⟨q, ?_⟩
      unfold Tty.look
      split
      · exact h.same rfl rfl rfl rfl htaking
      · next hne =>
        refine ⟨h.shows, h.stream, ?_⟩
        rintro _ _ ⟨⟩
        exact ⟨h.shows.holds.count, Nat.pos_of_ne_zero hne⟩
    · cases hstep
  | take =>
    simp only [Step, Tty.act] at hstep
    split at hstep
    · cases hstep
    next pid avail htaking =>
    obtain ⟨r, -, rfl⟩ := Option.map_eq_some_iff.mp hstep
    obtain ⟨hcount, hpos⟩ := h.taking pid avail htaking
    -- the count is exact, so there is a byte
    obtain ⟨c, q', rfl⟩ := exists_cons_of_length_pos (hcount ▸ hpos)
    rw [h.shows.holds.take.1]
    exact ⟨q', h.store htaking r⟩
  | wake pid actionable =>
    simp only [Step, Tty.act] at hstep
    split at hstep
    · next r htaking _ =>
      split at hstep
      · cases hstep
        refine ⟨q, ?_⟩
        unfold Tty.resume
        split
        · exact h.same rfl rfl rfl rfl htaking
        · exact h.same rfl rfl rfl rfl htaking
      · cases hstep
    · cases hstep

theorem Streams.boot : Streams .boot [] where
  shows := by
    refine ⟨⟨rfl, by decide, by decide, rfl, nofun⟩, rfl, nofun, by decide⟩
  stream := rfl
  taking := nofun

/-- In every run of canonical input that the driver can follow, readers have got
the bytes of the committed lines, in order and each once, up to those that wait
in the ring; the line that is being edited is not among them; and both together
fit the ring. -/
theorem canonical_input {s : Tty} (h : Reaches Step orderly .boot s) :
    s.delivered ++ s.uart.waiting = (edited s.typed).committed ∧
    s.uart.edit = (edited s.typed).line ∧ s.uart.line.count + s.uart.editLen ≤ LINE_SZ := by
  obtain ⟨q, hq⟩ : ∃ q, Streams s q :=
    h.invariant (I := fun s => ∃ q, Streams s q) ⟨[], Streams.boot⟩
      fun _ _ _ ⟨_, ht⟩ hok hstep => ht.step hok hstep
  refine ⟨?_, hq.shows.edit, ?_⟩
  · rw [Uart.waiting, hq.shows.holds.contents_eq]
    exact hq.stream
  · rw [hq.shows.holds.count, hq.shows.editLen]
    exact hq.shows.fits

def runOrderly : List Label → Tty → Option Tty
  | [], s => some s
  | l :: ls, s => if orderly s l then (s.act l).bind (runOrderly ls) else none

theorem runOrderly_reaches {ls : List Label} {s s' : Tty} (h : runOrderly ls s = some s') :
    Reaches Step orderly s s' :=
  reaches_of_run (fun _ => rfl) (fun _ _ _ => rfl) id h

def foreground : Pcb := { newPcb 2 1 with isUser := true }

/-- The keys `a`, `b`, erase, `c`, newline and `d`, and a read of two bytes. -/
def eraseAndRead : List Label :=
  [97, 98, 0x7f, 99, 13, 100].map (fun c => .rx .init 0 c) ++
    [.read foreground 2 .init 0 0, .look 2, .take, .look 2, .take]

theorem canonical_input_erase : ∃ s, runOrderly eraseAndRead .boot = some s ∧
    s.delivered = [97, 99] ∧ s.returns = [(2, 2)] ∧
    s.delivered ++ s.uart.waiting = (edited s.typed).committed ∧
    s.uart.edit = (edited s.typed).line ∧ s.uart.line.count + s.uart.editLen ≤ LINE_SZ := by
  refine exists_end (P := fun s => s.delivered = [97, 99] ∧ s.returns = [(2, 2)])
    (by decide +kernel) ?_
  rintro s hs ⟨hdel, hret⟩
  exact ⟨hdel, hret, canonical_input (runOrderly_reaches hs)⟩

/-- The line `a` and 511 empty ones, and a read. -/
def tooManyLines : List Label :=
  (97 :: List.replicate 512 13).map (fun c => .rx .init 0 c) ++
    [.read foreground 2 .init 0 0, .look 2, .take]

/-- The ring overflows: the 513th byte replaces the first. -/
theorem committed_byte_overwritten : ∃ s, Tty.run tooManyLines .boot = some s ∧
    s.typed.all (fun k => k.1.icanon) = true ∧ LINE_SZ < s.uart.line.count + s.delivered.length ∧
    ¬ s.delivered <+: (edited s.typed).committed := by
  exact exists_end (by decide +kernel) fun _ _ => id

end Sbunix.Console
