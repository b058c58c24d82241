import Sbunix.Signal.Bystanders

/-!
# Frames and contexts

What it means that the frames of handlers which have not returned lie in memory
as they were written, what is known of a process inside the kernel, and the
conditions on the steps of a run.
-/

namespace Sbunix.Signal

open Lib
open Lib.Memory (Apart offset)
open Proc

/-! ### Frames in memory -/

/-- The registers and the magic number of the frame `e` are in memory. -/
structure Holds (m : Memory 64) (e : Entry) : Prop where
  magic : wordAt m e.va 0 = SIGFRAME_MAGIC
  tf : ∀ i < TF_WORDS, wordAt m e.va (i + 2) = e.context.tf i

/-- The frames are in memory, with `S` also their masks. -/
structure FramesOk (S : Prop) (m : Memory 64) (fs : List Entry) : Prop where
  holds : ∀ e ∈ fs, Holds m e
  mask : S → ∀ e ∈ fs, wordAt m e.va 1 = e.context.mask

variable {i : ℕ} {m : Memory 64} {e : Entry} {S : Prop} {m' : Memory 64} {fs : List Entry}

theorem wordAt_writeFrame (m : Memory 64) (va : BitVec 64) (fr : Sigframe)
    (hi : i < FRAME_WORDS) : wordAt (writeFrame m va fr) va i = frameWord fr i :=
  Memory.load_storeWords m va (frameWord fr) hi (by decide)

theorem wordAt_writeFrame_apart (m : Memory 64) {a b : BitVec 64} (fr : Sigframe)
    (h : Apart (8 * FRAME_WORDS) a b) (hi : i < FRAME_WORDS) :
    wordAt (writeFrame m b fr) a i = wordAt m a i :=
  Memory.load_storeWords_apart m (frameWord fr) h hi (by decide)

theorem wordAt_congr {va : BitVec 64} (h : ∀ a, offset va a < 8 * FRAME_WORDS → m' a = m a)
    (hi : i < FRAME_WORDS) : wordAt m' va i = wordAt m va i := by
  refine Memory.load_congr fun j hj => h _ ?_
  rw [BitVec.add_assoc, ← BitVec.ofNat_add]
  unfold FRAME_WORDS at *
  rw [Memory.offset_add va (by omega)]
  omega

theorem FramesOk.congr (h : FramesOk S m fs)
    (hm : ∀ e ∈ fs, ∀ i < FRAME_WORDS, wordAt m' e.va i = wordAt m e.va i) : FramesOk S m' fs where
  holds e he := by
    refine ⟨(hm e he 0 (by decide)).trans (h.holds e he).magic, fun i hi => ?_⟩
    refine (hm e he (i + 2) ?_).trans ((h.holds e he).tf i hi)
    unfold TF_WORDS at hi
    unfold FRAME_WORDS
    omega
  mask hs e he := (hm e he 1 (by decide)).trans (h.mask hs e he)

theorem FramesOk.nil (m : Memory 64) : FramesOk S m [] := ⟨nofun, nofun⟩

theorem FramesOk.push (h : FramesOk S m fs) {fr : Sigframe} (hmagic : fr.magic = SIGFRAME_MAGIC)
    (htf : fr.savedTrapframe = e.context.tf) (hmask : S → fr.savedMask = e.context.mask)
    (hapart : ∀ e' ∈ fs, Apart (8 * FRAME_WORDS) e'.va e.va) :
    FramesOk S (writeFrame m e.va fr) (e :: fs) := by
  have hrest : FramesOk S (writeFrame m e.va fr) fs :=
    h.congr fun e' he' i hi => wordAt_writeFrame_apart m fr (hapart e' he') hi
  have hword : ∀ i < FRAME_WORDS, wordAt (writeFrame m e.va fr) e.va i = frameWord fr i :=
    fun i hi => wordAt_writeFrame m e.va fr hi
  refine ⟨fun e' he' => ?_, fun hs e' he' => ?_⟩
  · rcases List.mem_cons.mp he' with rfl | he'
    · refine ⟨(hword 0 (by decide)).trans hmagic, fun i hi => ?_⟩
      rw [hword (i + 2) (by unfold TF_WORDS at hi; unfold FRAME_WORDS; omega), frameWord,
        if_pos hi, htf]
    · exact hrest.holds e' he'
  · rcases List.mem_cons.mp he' with rfl | he'
    · exact (hword 1 (by decide)).trans (hmask hs)
    · exact hrest.mask hs e' he'

theorem FramesOk.tail (h : FramesOk S m (e :: fs)) : FramesOk S m fs :=
  ⟨fun e' he' => h.holds e' (List.mem_cons_of_mem _ he'),
    fun hs e' he' => h.mask hs e' (List.mem_cons_of_mem _ he')⟩

/-! ### Contexts -/

def SameRegs (a b : TrapFrame) : Prop := ∀ i < TF_WORDS, i ≠ TF_SSTATUS → a i = b i

theorem SameRegs.trans {a b c : TrapFrame} (h : SameRegs a b) (h' : SameRegs b c) : SameRegs a c :=
  fun i hi hs => (h i hi hs).trans (h' i hi hs)

theorem Holds.restored (h : Holds m e) :
    SameRegs (restoredFrame (readFrame m e.va)) e.context.tf := by
  intro i hi hs
  simp only [restoredFrame, setAt_ne _ _ hs, readFrame, if_pos hi]
  exact h.tf i hi

theorem badReturn_congr {a b : TrapFrame} (h : SameRegs a b) : badReturn a = badReturn b := by
  unfold badReturn
  rw [h TF_SEPC (by decide) (by decide), h TF_SP (by decide) (by decide)]

theorem Holds.sigframeBad (h : Holds m e) :
    sigframeBad (readFrame m e.va) = badReturn e.context.tf := by
  have htf : SameRegs (readFrame m e.va).savedTrapframe e.context.tf := by
    intro i hi _
    simp only [readFrame, if_pos hi]
    exact h.tf i hi
  have hmagic : (readFrame m e.va).magic = SIGFRAME_MAGIC := h.magic
  unfold Proc.sigframeBad
  rw [badReturn_congr htf, hmagic]
  simp

/-- What is known of a frame: with `S` the mask, with `P` that its context is plain. -/
structure EntryOk (S P : Prop) (e : Entry) : Prop where
  strip : S → strip e.context.mask = e.context.mask
  plain : P → e.context.tf TF_A0 ≠ BitVec.ofInt 64 (-ERESTARTSYS) ∧ badReturn e.context.tf = false
  restart : P → ∀ regs, e.restart = some regs → SameRegs e.context.tf regs
  owed : S → ∀ m, e.owed = some m → e.context.mask = m

/-- No call has touched the trap frame. -/
def Trap.untouched (t : Trap) : Prop :=
  t.popped = none ∧ match t.phase with
    | .working => False
    | .suspended _ => False
    | _ => True

/-- The process is inside a trap, before or in its signal check. -/
def InKernel : Resume → Prop
  | .trap => True
  | .stop _ => True
  | _ => False

theorem inKernel_trap {r : Resume} (h : r = .trap) : InKernel r := h ▸ trivial

/-- What is known of a process with the kernel stack `t`: with `S` the masks, with
`P` the registers that `sigreturn` has put back. -/
structure Good (S P : Prop) (t : Trap) (v : View) : Prop where
  active : S → v.active = true → v.resume = .trap ∧ ∃ m, t.phase = .suspended m
  saved : S → InKernel v.resume → ∀ m, t.phase = .suspended m → v.active = true ∧ v.saved = m
  popped : InKernel v.resume → ∀ e, t.popped = some e → t.ecall = true ∧
    t.phase = .returned (e.context.tf TF_A0).toInt ∧ (P → SameRegs v.tf e.context.tf) ∧
      (S → v.blocked = e.context.mask)
  entry : v.resume = .trap → t.untouched → v.tf = entryFrame t.ecall t.regs

variable {P : Prop} {t : Trap} {v : View}

theorem Good.outside (hr : ¬ InKernel v.resume) (ha : S → v.active = false) : Good S P t v where
  active hs h := absurd (h.symm.trans (ha hs)) nofun
  saved _ h := absurd h hr
  popped h := absurd h hr
  entry h := by
    rw [h] at hr
    exact absurd trivial hr

theorem Good.inactive (h : Good S P t v) (hr : v.resume ≠ .trap) (hs : S) : v.active = false := by
  by_contra hne
  exact hr (h.active hs (by simpa using hne)).1

theorem Good.inactive_of_phase (h : Good S P t v) (hphase : ∀ m, t.phase ≠ .suspended m) (hs : S) :
    v.active = false := by
  by_contra hne
  obtain ⟨-, m, hm⟩ := h.active hs (by simpa using hne)
  exact hphase m hm

theorem Good.working (hphase : t.phase = .working) (hpop : t.popped = none)
    (ha : S → v.active = false) :
    Good S P t v where
  active hs h := absurd (h.symm.trans (ha hs)) nofun
  saved _ _ m h := absurd (h.symm.trans hphase) nofun
  popped _ e h := absurd (h.symm.trans hpop) nofun
  entry _ h := by
    obtain ⟨-, h⟩ := h
    rw [hphase] at h
    exact h.elim

theorem Good.popped_none (h : Good S P t v) (hr : v.resume = .trap)
    (hphase : ∀ r, t.phase ≠ .returned r) : t.popped = none := by
  rcases hpop : t.popped with _ | e
  · rfl
  · exact absurd (h.popped (inKernel_trap hr) e hpop).2.1 (hphase _)

/-- Calls that leave the registers alone. -/
def Phase.calm : Phase → Prop
  | .fresh => True
  | .piped => True
  | .waiting _ _ _ => True
  | _ => False

theorem Good.proceed (h : Good S P t v) (hr : v.resume = .trap) (hcalm : t.phase.calm)
    (phase : Phase)
    (n : ℕ) (hphase : ∀ m, phase ≠ .suspended m) :
    Good S P { t with phase := phase, moved := n } v := by
  have hnone : t.popped = none := h.popped_none hr fun r he => by
    rw [he] at hcalm
    exact hcalm
  have hinactive : S → v.active = false := h.inactive_of_phase fun m he => by
    rw [he] at hcalm
    exact hcalm
  refine ⟨fun hs ha => ?_, fun _ _ m he => absurd he (hphase m), fun _ e he => ?_, fun _ _ => ?_⟩
  · exact absurd (ha.symm.trans (hinactive hs)) nofun
  · exact absurd (he.symm.trans hnone) nofun
  · refine h.entry hr ⟨hnone, ?_⟩
    split
    · next he =>
      rw [he] at hcalm
      exact hcalm
    · next he =>
      rw [he] at hcalm
      exact hcalm
    · trivial

/-! ### Conditions -/

/-- What `C` says of the return to user mode. -/
def AtReturn (w : World) (C : Pcb → RetPath → Bool → Prop) : Label → Prop
  | .ret path copied => ∀ p ∈ w.k.currentProc, C p path copied
  | _ => True

/-- Handlers return with the stack pointer at their frame, and nobody stores to a
frame whose handler has not returned. -/
def Normal (w : World) : Label → Prop
  | .sigreturn => ∀ p ∈ w.k.currentProc, (w.topFrame p).isSome = true
  | .store pid a _ => ∀ e ∈ w.frames pid, 8 * FRAME_WORDS ≤ offset e.va a
  | _ => True

/-- A new frame does not overlap one whose handler has not returned. -/
def Clear (w : World) : Label → Prop :=
  AtReturn w fun p path copied =>
    ∀ e ∈ w.pushed p path copied, ∀ e' ∈ w.frames p.pid, Apart (8 * FRAME_WORDS) e'.va e.va

/-- The context that a handler interrupts does not look like an interrupted system
call, and its pc and stack pointer are those of user code. -/
def PlainContext (w : World) : Label → Prop :=
  AtReturn w fun p path copied => ∀ e ∈ w.pushed p path copied,
    e.context.tf TF_A0 ≠ BitVec.ofInt 64 (-ERESTARTSYS) ∧ badReturn e.context.tf = false

/-- A process in `sigsuspend` is not stopped by a signal. -/
def NotStopped (w : World) : Label → Prop :=
  AtReturn w fun p path _ => p.sigSuspendActive = true → ¬ (p.atCheck path).stops

/-- The conditions of the runs looked at: with `S` on `sigsuspend`, with `P` on contexts. -/
def Ok (S P : Prop) (w : World) (l : Label) : Prop :=
  Normal w l ∧ Clear w l ∧ (P → PlainContext w l) ∧ (S → NotStopped w l)

instance (w : World) (C : Pcb → RetPath → Bool → Prop)
    [∀ p path copied, Decidable (C p path copied)]
    (l : Label) : Decidable (AtReturn w C l) := by
  unfold AtReturn
  split <;> infer_instance

instance (w : World) (l : Label) : Decidable (Normal w l) := by
  unfold Normal
  split <;> infer_instance

instance (w : World) (l : Label) :
    Decidable (Clear w l) := inferInstanceAs (Decidable (AtReturn _ _ _))

instance (w : World) (l : Label) : Decidable (PlainContext w l) :=
  inferInstanceAs (Decidable (AtReturn _ _ _))

instance (w : World) (l : Label) : Decidable (NotStopped w l) :=
  inferInstanceAs (Decidable (AtReturn _ _ _))

instance (S P : Prop) [Decidable S] [Decidable P] (w : World) (l : Label) :
    Decidable (Ok S P w l) :=
  inferInstanceAs (Decidable (_ ∧ _ ∧ _ ∧ _))

end Sbunix.Signal
