import Sbunix.Signal.Arrival

/-!
# Signal handlers are transparent

A handler that returns hands back the registers and the mask that it found,
whatever interrupted the code and however deep handlers are nested. The
kernel's own error code in the interrupted `a0`, a pc or stack pointer that
`sys_sigreturn` refuses, overlapping frames and a stop inside `sigsuspend` are
the exceptions.
-/

namespace Sbunix.Signal

open Lib Option Proc
open Pipe (setPid_same setPid_ne)

variable {S P : Prop} {w w' : World} {p q : Pcb} {path : RetPath} {copied : Bool} {e : Entry}

theorem ret_frames (hp : w.k.currentProc = some p) (hstep : Step w (.ret path copied) w') :
    w'.frames = (w.leave p path copied).frames := by
  cases hstep with
  | @ret p' _ _ b hp' _ _ =>
    cases hp.symm.trans hp'
    rfl

theorem leave_frames_none (h : w.pushed p path copied = none) :
    (w.leave p path copied).frames p.pid = w.frames p.pid := by
  unfold World.leave
  rw [h]

theorem leave_frames_some (h : w.pushed p path copied = some e) :
    (w.leave p path copied).frames p.pid = e :: w.frames p.pid := by
  unfold World.leave
  rw [h]
  exact setPid_same _ _ _

theorem pushed_none (h : pickActionable (p.atCheck path) = 0) : w.pushed p path copied = none := by
  rcases hh : (p.atCheck path).handles copied with _ | sig
  · simp only [World.pushed, hh, map_none]
  · exact absurd h (handles_pick hh).2

theorem pushed_some {sig : ℕ} (h : (p.atCheck path).handles copied = some sig) :
    ∃ e, w.pushed p path copied = some e ∧
      e.context = ⟨(p.atCheck path).tf, (w.trap p.pid).mask (p.atCheck path)⟩ ∧
      e.restart = (w.trap p.pid).restart path (p.atCheck path) sig ∧
        e.owed = (w.trap p.pid).owed := by
  simp only [World.pushed, h, map_some]
  exact ⟨_, rfl, rfl, rfl, rfl⟩

theorem dispatch_frames {pid : ℤ} (hstep : Step w (.base (.kern (.dispatch pid))) w') :
    w'.frames = w.frames := by
  cases hstep with
  | base _ _ =>
    unfold World.step
    split <;> rfl

theorem atCheck_blocked (path : RetPath) (p : Pcb) :
    (p.atCheck path).sigBlocked = p.sigBlocked := by
  rw [atCheck_eq]

theorem restoreMask_blocked (p : Pcb) : p.restoreMask.sigBlocked = (sigframe p).savedMask := by
  unfold Pcb.restoreMask sigframe
  by_cases h : p.sigSuspendActive = true
  · simp [h]
  · simp [h]

theorem atCheck_mask (t : Trap) (path : RetPath) (p : Pcb) :
    t.mask (p.atCheck path) = t.mask p := by
  unfold Trap.mask
  split
  · rfl
  · exact atCheck_blocked path p

/-- The return path leads to user mode with the interrupted mask, or leaves it in
the frame of a handler. -/
theorem Inv.left (h : Inv S P w) (hat : At w.k p) (hres : p.resume = .trap)
    (hleft : Left path copied p q) (hout : Outside q) (hstep : Step w (.ret path copied) w') :
    w'.frames p.pid = w.frames p.pid ∧ q.tf = (p.atCheck path).tf ∧
      (S → q.sigBlocked = (w.trap p.pid).mask p) ∨
    ∃ sig, (p.atCheck path).handles copied = some sig ∧ ∃ e, w'.frames p.pid = e :: w.frames p.pid ∧
      e.context = ⟨(p.atCheck path).tf, (w.trap p.pid).mask p⟩ ∧
      e.restart = (w.trap p.pid).restart path (p.atCheck path) sig ∧
        e.owed = (w.trap p.pid).owed := by
  obtain ⟨-, -, huser, -, hgood⟩ := h.settled.at hat.current ⟨p, hat.current, hat.running, hres⟩
  cases hleft with
  | kernel hk => cases huser.symm.trans hk
  | plain _ hpick =>
    refine .inl ⟨?_, restoreMask_tf _, fun hS => ?_⟩
    · rw [ret_frames hat.current hstep, leave_frames_none (pushed_none hpick)]
    · rw [← atCheck_mask _ path, ← hgood.mask hres hS]
      exact restoreMask_blocked _
  | @handler sig hsig =>
    obtain ⟨e, hpushed, hcontext, hrest⟩ := pushed_some (w := w) hsig
    refine .inr ⟨sig, hsig, e, ?_, ?_, hrest⟩
    · rw [ret_frames hat.current hstep, leave_frames_some hpushed]
    · rw [hcontext, atCheck_mask]
  | stopped _ _ => exact absurd hout.2 nofun
  | dead hz _ => exact absurd hz hout.1

/-- The registers and the mask are those of the interrupted code. -/
def SameContext (c : Context) (tf : TrapFrame) (mask : BitVec 64) : Prop :=
    SameRegs tf c.tf ∧ mask = c.mask

/-- What a step does to interrupted contexts. -/
structure Transparent (w : World) (l : Label) (w' : World) : Prop where
  -- where a handler is entered, its frame keeps the context
  entered : ∀ path copied, l = .ret path copied → ∀ p, w.k.currentProc = some p →
    ∀ sig, (p.atCheck path).handles copied = some sig → ∃ e, w'.frames p.pid = e :: w.frames p.pid ∧
      e.context = ⟨(p.atCheck path).tf, (w.trap p.pid).mask (p.atCheck path)⟩
  -- `sigreturn` takes the innermost frame down and gives its context back
  restored : l = .sigreturn → ∀ p, w.k.currentProc = some p →
    ∃ e, w.frames p.pid = e :: w'.frames p.pid ∧
    (w'.trap p.pid).popped = some e ∧ ∃ q ∈ w'.k.procs, q.pid = p.pid ∧ q.state = .running ∧
      SameContext e.context q.tf q.sigBlocked
  -- with no other signal to deliver the process gets to user mode
  resumed : ∀ path copied, l = .ret path copied → ∀ p, w.k.currentProc = some p →
    ∀ e, (w.trap p.pid).popped = some e → pickActionable (p.atCheck path) = 0 →
      ∃ q ∈ w'.k.procs, q.pid = p.pid ∧ Outside q
  -- and whenever it does it has the context, or the next handler has
  arrived : ∀ p ∈ w.k.procs, Inside p → ∀ e, (w.trap p.pid).popped = some e →
    ∀ q ∈ w'.k.procs, q.pid = p.pid → Outside q →
      w'.frames p.pid = w.frames p.pid ∧ SameContext e.context q.tf q.sigBlocked ∨
      ∃ e', w'.frames p.pid = e' :: w.frames p.pid ∧
        SameContext e.context e'.context.tf e'.context.mask

variable {l : Label}

theorem Inv.popped {S P : Prop} (h : Inv S P w) (hp : p ∈ w.k.procs) (hin : Inside p)
    (hpop : (w.trap p.pid).popped = some e) : Good S P (w.trap p.pid) (view p) ∧ EntryOk S P e ∧
      (w.trap p.pid).phase = .returned (e.context.tf TF_A0).toInt := by
  have hgood := (h.settled.procs p hp).2.2 hin.1
  exact ⟨hgood, h.framed.entries p.pid e (.inr hpop), (hgood.popped hin.2 e hpop).2.1⟩

theorem Inv.arrived (h : Inv True True w) (hstep : Step w l w') (hp : p ∈ w.k.procs)
    (hin : Inside p)
    (hpop : (w.trap p.pid).popped = some e) (hq : q ∈ w'.k.procs) (hpid : q.pid = p.pid)
    (hout : Outside q) :
    w'.frames p.pid = w.frames p.pid ∧ SameContext e.context q.tf q.sigBlocked ∨
      ∃ e', w'.frames p.pid = e' :: w.frames p.pid ∧
        SameContext e.context e'.context.tf e'.context.mask := by
  obtain ⟨hgood, hentry, hphase⟩ := h.popped hp hin hpop
  obtain ⟨-, -, hregs, hmask⟩ := hgood.popped hin.2 e hpop
  have hkept : (w.trap p.pid).mask p = e.context.mask := by
    rw [Trap.mask_blocked (hphase ▸ nofun)]
    exact hmask trivial
  cases arrival h hstep hp hin (hphase ▸ trivial) hq hpid hout with
  | @ret path copied hat hres hleaves hleft =>
    have hcheck := hgood.atCheck_popped hres hleaves hpop hentry trivial
    rcases h.left hat hres hleft hout hstep with ⟨hframes, htf, hq⟩ | ⟨sig, -, e', hframes,
      hcontext, -⟩
    · refine .inl ⟨hframes, ?_, (hq trivial).trans hkept⟩
      rw [htf]
      exact hcheck
    · refine .inr ⟨e', hframes, ?_⟩
      rw [hcontext]
      exact ⟨hcheck, hkept⟩
  | continued _ hq =>
    subst hq
    rw [dispatch_frames hstep]
    exact .inl ⟨rfl, hregs trivial, hmask trivial⟩

theorem Inv.transparent (h : Inv True True w) (hok : Ok True True w l) (hstep : Step w l w') :
    Transparent w l w' where
  entered path copied hl p hp sig hsig := by
    subst hl
    obtain ⟨e, hpushed, hcontext, -⟩ := pushed_some (w := w) hsig
    exact ⟨e, by rw [ret_frames hp hstep, leave_frames_some hpushed], hcontext⟩
  restored hl p hp := by
    subst hl
    obtain ⟨e, htop⟩ := isSome_iff_exists.mp (hok.1 p hp)
    obtain ⟨fs, hfs, -⟩ := topFrame_mem htop
    have hentry := h.framed.entries p.pid e (.inl (hfs ▸ List.mem_cons_self))
    cases hstep with
    | @sigreturn p' b hp' hbegins hstep =>
      cases hp.symm.trans hp'
      have hk := kern_step hstep
      obtain ⟨hat, -⟩ := h.settled.at hp hk.1
      obtain ⟨r, hr⟩ := Lib.Kern.discard_eq_some hk.2
      obtain ⟨q, hq, hpid, -⟩ := sysSigreturn_left hat hr
      refine ⟨e, ?_, ?_, q, hq, hpid, ?_⟩
      · simp [World.takeDown, htop, hfs]
      · simp [World.takeDown, htop]
      · rcases sigreturn_restores h.settled h.framed hp htop hk hq hpid with
          ⟨-, hbad⟩ | ⟨hrun, -, -, hregs, hmask⟩
        · cases hbad.symm.trans (hentry.plain trivial).2
        · exact ⟨hrun, hregs, hmask trivial⟩
  resumed path copied hl p hp e hpop hpick := by
    subst hl
    cases hstep with
    | @ret p' _ _ b hp' hleaves hstep =>
      cases hp.symm.trans hp'
      have hk := kern_step hstep
      obtain ⟨hat, hres, huser, -, hgood⟩ := h.settled.at hp hk.1
      have hentry := h.framed.entries p.pid e (.inr hpop)
      have hcheck := hgood.atCheck_popped hres hleaves hpop hentry trivial
      obtain ⟨q, hq, hpid, hleft⟩ := trapReturn_left hat hk.2
      refine ⟨q, hq, hpid, ?_⟩
      cases hleft with
      | kernel hk => cases huser.symm.trans hk
      | plain _ _ =>
        have hstate : (p.atCheck path).picked.restoreMask.state = p.state := by
          rw [restoreMask_eq, atCheck_eq]
          rfl
        refine ⟨fun hz => ?_, rfl⟩
        cases hat.running.symm.trans (hstate.symm.trans hz)
      | handler hsig => exact absurd hpick (handles_pick hsig).2
      | stopped hstops _ =>
        obtain ⟨-, hstops⟩ := hstops
        rw [hpick] at hstops
        rcases hstops with hstops | hstops
        · exact absurd hstops (by decide)
        · exact absurd hstops.2 (by decide)
      | dead _ hbad =>
        have hbad := (badReturn_congr hcheck).symm.trans (hbad hpick)
        cases hbad.symm.trans (hentry.plain trivial).2
  arrived p hp hin e hpop q hq hpid hout := h.arrived hstep hp hin hpop hq hpid hout

/-- In every run from boot in which handlers return at their frames and leave them
alone, new frames do not overlap old ones, interrupted contexts are plain and no
process is stopped inside `sigsuspend`, every step keeps handlers transparent. -/
theorem handlers_transparent {pid : ℤ} (hpid : 0 < pid) (entry sp : BitVec 64)
    {w w' : World} {l : Label}
    (h : Reaches Step (Ok True True) (bootWorld pid entry sp) w) (hok : Ok True True w l)
    (hstep : Step w l w') : Transparent w l w' :=
  (Inv.reaches hpid h).transparent hok hstep

def userRegs (pc sp a0 : BitVec 64) : TrapFrame :=
  setAt (setAt (setAt (fun _ => 0) TF_SEPC pc) TF_SP sp) TF_A0 a0

/-- A process catches `SIGALRM`, is interrupted with `a0` in its register, and the
handler gets to its `sigreturn`. -/
def alarmHandled (a0 : BitVec 64) : List Label :=
  [.base (.kern (.dispatch 1)), .enter true (userRegs 0x10000 0x20000 0),
    .base (.kern (.call (.sigaction SIGALRM (some (some ⟨0x11000, 0, 0, 0x12000⟩)) true))),
    .ret (.ecall 0 0) true,
    .enter true (userRegs 0x10004 0x20000 0),
    .base (.kern (.call (.alarm 1))),
    .ret (.ecall 0 0) true,
    .base (.kern (.tick true)),
    .enter false (userRegs 0x10100 0x20000 a0),
    .ret .checked true,
    .enter true (userRegs 0x12000 0x1fec0 14)]

theorem handlers_transparent_alarm : ∃ w w',
    run (fun w l => Ok True True w l) (alarmHandled 5) (bootWorld 1 0x10000 0x20000) = some w ∧
      Step w .sigreturn w' ∧ Transparent w .sigreturn w' := by
  obtain ⟨w, w', hw, hreach, hok, hstep, -⟩ := run_step (Ok True True) (alarmHandled 5)
    (bootWorld 1 0x10000 0x20000) .sigreturn (fun _ _ => true) (by decide +kernel)
  exact ⟨w, w', hw, hstep, handlers_transparent (by decide) _ _ hreach hok hstep⟩

def AnyContext (w : World) (l : Label) : Prop := Normal w l ∧ Clear w l ∧ NotStopped w l

instance (w : World) (l : Label) :
    Decidable (AnyContext w l) := inferInstanceAs (Decidable (_ ∧ _ ∧ _))

/-- A process that was interrupted with `-ERESTARTSYS` in `a0` finds `-EINTR` there
behind the handler. -/
theorem interrupted_a0_lost : ∃ w w' p e q,
    Reaches Step AnyContext (bootWorld 1 0x10000 0x20000) w ∧
      AnyContext w (.ret (.ecall (-512) 14) true) ∧
      Step w (.ret (.ecall (-512) 14) true) w' ∧
      p ∈ w.k.procs ∧ Inside p ∧ (w.trap p.pid).popped = some e ∧
      q ∈ w'.k.procs ∧ q.pid = p.pid ∧ Outside q ∧ w'.frames p.pid = [] ∧
      e.context.tf TF_A0 = BitVec.ofInt 64 (-512) ∧ q.tf TF_A0 = BitVec.ofInt 64 (-4) := by
  obtain ⟨w, w', -, hreach, hok, hstep, hlast⟩ := run_step AnyContext
    (alarmHandled (BitVec.ofInt 64 (-512)) ++ [.sigreturn]) (bootWorld 1 0x10000 0x20000)
    (.ret (.ecall (-512) 14) true) (fun w w' => w.k.procs.any fun p =>
      (w.trap p.pid).popped.any fun e => w'.k.procs.any fun q =>
        (p.state ≠ .zombie ∧ p.resume = .trap) ∧ q.pid = p.pid ∧
          (q.state ≠ .zombie ∧ q.resume = .user) ∧
          (w'.frames p.pid).isEmpty ∧ e.context.tf TF_A0 = BitVec.ofInt 64 (-512) ∧
          q.tf TF_A0 = BitVec.ofInt 64 (-4)) (by decide +kernel)
  simp only [any_eq_true, List.any_eq_true, decide_eq_true_eq] at hlast
  obtain ⟨p, hp, e, he, q, hq, hin, hpid, hout, hframes, h1, h2⟩ := hlast
  exact ⟨w, w', p, e, q, hreach, hok, hstep, hp, ⟨hin.1, inKernel_trap hin.2⟩, he, hq, hpid, hout,
    List.isEmpty_iff.mp hframes, h1, h2⟩

end Sbunix.Signal
