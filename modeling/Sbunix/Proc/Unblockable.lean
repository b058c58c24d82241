import Sbunix.Proc.TableSpec

/-!
# SIGKILL and SIGSTOP are never blocked, caught or ignored

Every writer of a mask or a disposition keeps `SigOk`: the system calls because
they refuse the two signals or take them out of what the user supplies, the
delivery of a signal because it takes them out of `sa_mask`, `sigreturn`
because it takes them out of the frame, `fork` and `exec` because they copy or
reset.
-/

namespace Sbunix.Proc

open Lib

theorem SigOk.of_view {p q : Pcb} (h : q.sigView = p.sigView) (hp : SigOk p) : SigOk q := by
  intro s hs
  have hb := congrArg SigView.sigBlocked h
  have ha := congrArg SigView.sigSuspendActive h
  have hm := congrArg SigView.sigSuspendSavedMask h
  have hh := congrArg SigView.sigHandlers h
  simp only [Pcb.sigView] at hb ha hm hh
  rw [hb, ha, hm, hh]
  exact hp s hs

theorem SigOk.forkChild {p : Pcb} (hp : SigOk p) (pid : ℤ) (generation : ℕ) :
    SigOk (forkChild p pid generation) :=
  fun s hs => ⟨(hp s hs).1, by simp [Sbunix.Proc.forkChild, newPcb], (hp s hs).2.2⟩

theorem sigOk_local : Local SigOk where
  view := SigOk.of_view
  quiet hq := hq.sig
  sent := SigOk.sent
  fork pid generation hp := hp.forkChild pid generation

theorem boot_sigOk (pid : ℤ) (entry sp : BitVec 64) : TableAll SigOk (bootKernel pid entry sp) where
  nodup := List.nodup_singleton _
  used p hp := by
    obtain rfl := List.mem_singleton.mp hp
    nofun
  all p hp s _ := by
    obtain rfl := List.mem_singleton.mp hp
    exact ⟨by simp [newPcb], by simp [newPcb], rfl⟩

/-- In every state of every run of the machine from boot, `SIGKILL` and `SIGSTOP`
are neither blocked, nor in the mask saved by an active `sigsuspend`, nor caught
or ignored, for any process. -/
theorem sigkill_sigstop_never_blocked (pid : ℤ) (entry sp : BitVec 64) (k : Kernel)
    (h : Reaches Step (fun _ _ => True) (bootKernel pid entry sp) k) :
    ∀ p ∈ k.procs, ∀ s, s = SIGKILL ∨ s = SIGSTOP → p.sigBlocked.getLsbD s = false ∧
      (p.sigSuspendActive = true → p.sigSuspendSavedMask.getLsbD s = false) ∧
      (p.sigHandlers s).handler = SIG_DFL := by
  have hinv : TableAll SigOk k := by
    refine h.invariant (boot_sigOk pid entry sp) ?_
    intro k l k' hk _ hstep
    exact step_keeps sigOk_local (fun _ _ hp => hp) hk hstep
  exact hinv.all

def setmaskAndFork : List Label :=
  [.dispatch 1, .enter fun _ => 0x1000,
    .call (.sigprocmask 2 (some (some (BitVec.allOnes 64))) true), .call (.fork .ok)]

theorem never_blocked_after_setmask_and_fork :
    ∃ k, runLabels setmaskAndFork (bootKernel 1 0x1000 0x2000) = some k ∧ k.procs.length = 2 ∧
      ∀ p ∈ k.procs, ∀ s, s = SIGKILL ∨ s = SIGSTOP → p.sigBlocked.getLsbD s = false ∧
        (p.sigSuspendActive = true → p.sigSuspendSavedMask.getLsbD s = false) ∧
        (p.sigHandlers s).handler = SIG_DFL := by
  refine exists_end (P := fun k => k.procs.length = 2) (by decide +kernel)
    fun k hk hlen => ⟨hlen, ?_⟩
  exact sigkill_sigstop_never_blocked 1 0x1000 0x2000 k (runLabels_reaches hk)

end Sbunix.Proc
