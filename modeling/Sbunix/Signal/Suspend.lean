import Sbunix.Signal.Transparent

/-!
# The mask around `sigsuspend`

The mask that was in force at the call is owed to the caller: it is in force
when user code outside a handler goes on, and until then the frame of every
handler in between keeps it. A process that is not in `sigsuspend` is never
given a saved mask. A stop inside `sigsuspend` breaks both.
-/

namespace Sbunix.Signal

open Lib Proc

/-- What a step does to the masks. -/
structure MaskKept (w : World) (l : Label) (w' : World) : Prop where
  -- the mask in force at the call is owed
  called : ∀ mask, l = .sigsuspend (some (some mask)) → ∀ p, w.k.currentProc = some p →
    (w'.trap p.pid).owed = some p.sigBlocked
  -- it is in force when the caller goes on in user mode, or is kept for when the handler returns
  given : ∀ p ∈ w.k.procs, Inside p → ∀ m, (w.trap p.pid).owed = some m →
    ∀ q ∈ w'.k.procs, q.pid = p.pid → Outside q →
      w'.frames p.pid = w.frames p.pid ∧ q.sigBlocked = m ∨
      ∃ e, w'.frames p.pid = e :: w.frames p.pid ∧ e.context.mask = m ∧ e.owed = some m
  -- which is when it is owed again, and in force
  returned : l = .sigreturn → ∀ p, w.k.currentProc = some p →
    ∃ e, w.frames p.pid = e :: w'.frames p.pid ∧
    (w'.trap p.pid).owed = e.owed
  -- a process that is not in `sigsuspend` keeps its mask
  kept : ∀ path copied, l = .ret path copied → ∀ p, w.k.currentProc = some p →
    (∀ m, (w.trap p.pid).phase ≠ .suspended m) → ∀ q ∈ w'.k.procs, q.pid = p.pid → Outside q →
      w'.frames p.pid = w.frames p.pid ∧ q.sigBlocked = p.sigBlocked ∨
      ∃ e, w'.frames p.pid = e :: w.frames p.pid ∧ e.context.mask = p.sigBlocked
  continued : ∀ pid, l = .base (.kern (.dispatch pid)) → ∀ p ∈ w.k.procs, p.pid = pid →
    ∀ q ∈ w'.k.procs, q.pid = p.pid → Outside q →
      w'.frames p.pid = w.frames p.pid ∧ q.sigBlocked = p.sigBlocked

variable {w w' : World} {l : Label} {p q : Pcb} {path : RetPath} {copied : Bool} {m : BitVec 64}

theorem Inv.owed (h : Inv True False w) (hp : p ∈ w.k.procs) (hin : Inside p)
    (howed : (w.trap p.pid).owed = some m) : (w.trap p.pid).phase.held ∧ (w.trap p.pid).mask p = m ∧
      (p.resume ≠ .trap → p.sigBlocked = m) := by
  have hgood := (h.settled.procs p hp).2.2 hin.1
  unfold Trap.owed at howed
  split at howed
  · next m' hphase =>
    cases howed
    refine ⟨hphase ▸ trivial, Trap.mask_suspended hphase p, fun hne => ?_⟩
    exact absurd (hgood.active trivial (hgood.saved trivial hin.2 m hphase).1).1 hne
  · next hphase =>
    obtain ⟨e, hpop, he⟩ := Option.bind_eq_some_iff.mp howed
    obtain ⟨-, hret, -, hmask⟩ := hgood.popped hin.2 e hpop
    have hm : p.sigBlocked = m :=
      (hmask trivial).trans ((h.framed.entries p.pid e (.inr hpop)).owed trivial m he)
    exact ⟨hret ▸ trivial, (Trap.mask_blocked hphase p).trans hm, fun _ => hm⟩

theorem Inv.mask_kept (h : Inv True False w) (hok : Ok True False w l) (hstep : Step w l w') :
    MaskKept w l w' where
  called mask hl p hp := by
    subst hl
    cases hstep with
    | @sigsuspend p' _ b hp' _ _ =>
      cases hp.symm.trans hp'
      simp [World.suspend, World.setTrap, Trap.owed]
  given p hp hin m howed q hq hpid hout := by
    obtain ⟨hheld, hmask, hstop⟩ := h.owed hp hin howed
    cases arrival h hstep hp hin hheld hq hpid hout with
    | ret hat hres _ hleft =>
      rcases h.left hat hres hleft hout hstep with ⟨hframes, -, hq⟩ | ⟨sig, -, e, hframes,
        hcontext, -, he⟩
      · exact .inl ⟨hframes, (hq trivial).trans hmask⟩
      · refine .inr ⟨e, hframes, ?_, he.trans howed⟩
        rw [hcontext]
        exact hmask
    | continued hr hq =>
      subst hq
      rw [dispatch_frames hstep]
      exact .inl ⟨rfl, hstop hr⟩
  returned hl p hp := by
    subst hl
    obtain ⟨e, htop⟩ := Option.isSome_iff_exists.mp (hok.1 p hp)
    obtain ⟨fs, hfs, -⟩ := topFrame_mem htop
    cases hstep with
    | @sigreturn p' b hp' _ _ =>
      cases hp.symm.trans hp'
      exact ⟨e, by simp [World.takeDown, htop, hfs], by simp [World.takeDown, htop, Trap.owed]⟩
  kept path copied hl p hp hphase q hq hpid hout := by
    subst hl
    have hkeep := Trap.mask_blocked hphase p
    cases hstep with
    | @ret p' _ _ b hp' hleaves hstep' =>
      cases hp.symm.trans hp'
      have hk := kern_step hstep'
      obtain ⟨hat, hres, -⟩ := h.settled.at hp hk.1
      have hleft := Settled.only (h.settled.toSound.step hk) (trapReturn_left hat hk.2) q hq hpid
      rcases h.left hat hres hleft hout (.ret hp hleaves hstep') with
        ⟨hframes, -, hq⟩ | ⟨sig, -, e, hframes, hcontext, -⟩
      · exact .inl ⟨hframes, (hq trivial).trans hkeep⟩
      · refine .inr ⟨e, hframes, ?_⟩
        rw [hcontext]
        exact hkeep
  continued pid hl p hp hpid q hq hqpid hout := by
    subst hl hpid
    refine ⟨by rw [dispatch_frames hstep], ?_⟩
    cases hstep with
    | base _ hstep' =>
      rw [step_k] at hq
      have hk := kern_step hstep'
      have hleft := Settled.only (h.settled.toSound.step hk)
        (dispatch_left (h.settled.toTable.find_eq hp) hk.2) q hq hqpid
      cases hleft with
      | inside _ | out _ => rfl
      | dead hz _ => exact absurd hz hout.1

/-- In every run from boot in which handlers return at their frames and leave them
alone, new frames do not overlap old ones and no process is stopped inside
`sigsuspend`, every step keeps to the discipline. -/
theorem sigsuspend_gives_mask_back {pid : ℤ} (hpid : 0 < pid) (entry sp : BitVec 64)
    {w w' : World} {l : Label}
    (h : Reaches Step (Ok True False) (bootWorld pid entry sp) w) (hok : Ok True False w l)
    (hstep : Step w l w') : MaskKept w l w' :=
  (Inv.reaches hpid h).mask_kept hok hstep

/-- A process that catches `SIGALRM` waits for it in `sigsuspend`. -/
def alarmAwaited : List Label :=
  [.base (.kern (.dispatch 1)), .enter true (userRegs 0x10000 0x20000 0),
    .base (.kern (.call (.sigaction SIGALRM (some (some ⟨0x11000, 0, 0, 0x12000⟩)) true))),
    .ret (.ecall 0 0) true,
    .enter true (userRegs 0x10004 0x20000 0),
    .base (.kern (.call (.alarm 1))),
    .ret (.ecall 0 0) true,
    .enter true (userRegs 0x10008 0x20000 0),
    .sigsuspend (some (some 0xff)),
    .base (.kern (.tick false))]

theorem sigsuspend_gives_mask_back_alarm : ∃ w w',
    run (fun w l => Ok True False w l) alarmAwaited (bootWorld 1 0x10000 0x20000) = some w ∧
      Step w (.ret (.ecall (-4) 0) true) w' ∧ MaskKept w (.ret (.ecall (-4) 0) true) w' := by
  obtain ⟨w, w', hw, hreach, hok, hstep, -⟩ := run_step (Ok True False) alarmAwaited
    (bootWorld 1 0x10000 0x20000) (.ret (.ecall (-4) 0) true) (fun _ _ => true) (by decide +kernel)
  exact ⟨w, w', hw, hstep, sigsuspend_gives_mask_back (by decide) _ _ hreach hok hstep⟩

/-- The conditions other than that no process is stopped inside `sigsuspend`. -/
def AnyStop (w : World) (l : Label) : Prop := Normal w l ∧ Clear w l ∧ PlainContext w l

instance (w : World) (l : Label) :
    Decidable (AnyStop w l) := inferInstanceAs (Decidable (_ ∧ _ ∧ _))

/-- A child waits in `sigsuspend`; its parent stops it and continues it. -/
def stoppedAndContinued : List Label :=
  let regs := userRegs 0x10000 0x20000 0
  let turn : List Label := [.ret .checked true, .enter true regs]
  let switch (ret : ℤ) :
    List Label := [.ret (.ecall ret 0) true, .enter false regs, .base (.kern (.call .yield)),
    .base (.kern (.dispatch 2))]
  [.base (.kern (.dispatch 1)), .enter true regs, .base (.kern (.call (.fork .ok)))] ++ switch 2 ++
    [.enter true regs, .sigsuspend (some (some 0xff00)), .base (.kern (.call (.sleep 0 none))),
      .base (.kern (.dispatch 1))] ++
    turn ++ [.base (.kern (.call (.kill 2 SIGTSTP)))] ++ switch 0 ++
    [.ret (.ecall (-4) 0) true, .base (.kern (.dispatch 1))] ++
    turn ++ [.base (.kern (.call (.kill 2 SIGCONT)))] ++ (switch 0).dropLast

/-- Behind a stop the caller of `sigsuspend` is left with the temporary mask. -/
theorem stop_leaves_temporary_mask : ∃ w w' p q,
    Reaches Step AnyStop (bootWorld 1 0x10000 0x20000) w ∧ AnyStop w (.base (.kern (.dispatch 2))) ∧
      Step w (.base (.kern (.dispatch 2))) w' ∧ p ∈ w.k.procs ∧ Inside p ∧
        (w.trap p.pid).owed = some 0 ∧
      q ∈ w'.k.procs ∧ q.pid = p.pid ∧ Outside q ∧ w'.frames p.pid = [] ∧
        q.sigBlocked = 0xfd00 := by
  obtain ⟨w, w', -, hreach, hok, hstep, hlast⟩ := run_step AnyStop stoppedAndContinued
    (bootWorld 1 0x10000 0x20000) (.base (.kern (.dispatch 2)))
    (fun w w' => w.k.procs.any fun p => w'.k.procs.any fun q =>
      (p.state ≠ .zombie ∧ p.resume = .stop true) ∧ (w.trap p.pid).owed = some 0 ∧ q.pid = p.pid ∧
        (q.state ≠ .zombie ∧ q.resume = .user) ∧ (w'.frames p.pid).isEmpty ∧ q.sigBlocked = 0xfd00)
          (by decide +kernel)
  simp only [List.any_eq_true, decide_eq_true_eq] at hlast
  obtain ⟨p, hp, q, hq, hin, howed, hpid, hout, hframes, hmask⟩ := hlast
  exact ⟨w, w', p, q, hreach, hok, hstep, hp, ⟨hin.1, hin.2 ▸ trivial⟩, howed, hq, hpid, hout,
    List.isEmpty_iff.mp hframes, hmask⟩

end Sbunix.Signal
