import Sbunix.Signal.Invariant

/-!
# Arriving in user mode

A process whose call has returned, or that is in `sigsuspend`, gets to user mode
in two ways only: by its own return, or when it is continued behind a stop.
-/

namespace Sbunix.Signal

open Lib Proc
open Pipe (setPid_same setPid_ne)

/-- How `p` gets to user mode, where it is `q`. -/
inductive Arrival (w : World) (p q : Pcb) : Label → Prop
  | ret {path : RetPath} {copied : Bool} : At w.k p → p.resume = .trap →
    (w.trap p.pid).leaves p (w.base.result p.pid).isSome path = true → Left path copied p q →
    Arrival w p q (.ret path copied)
  | continued : p.resume ≠ .trap → q = { p with state := .running, resume := .user } →
    Arrival w p q (.base (.kern (.dispatch p.pid)))

def Inside (p : Pcb) : Prop := p.state ≠ .zombie ∧ InKernel p.resume

def Outside (p : Pcb) : Prop := p.state ≠ .zombie ∧ p.resume = .user

/-- The call has returned, or waits in `sigsuspend`. -/
def Phase.held : Phase → Prop
  | .returned _ => True
  | .suspended _ => True
  | _ => False

theorem Inside.not_outside {p q : Pcb} (hp : Inside p) (hv : view q = view p) : ¬ Outside q := by
  rintro ⟨-, hq⟩
  have hres : q.resume = p.resume := congrArg View.resume hv
  have hin := hp.2
  rw [← hres, hq] at hin
  exact hin

variable {trap : ℤ → Trap} {k' : Kernel}
  {S P : Prop} {w w' : World} {b : Pipe.World} {l : Label} {p q : Pcb}

theorem Settled.others {k : Kernel} {l : Proc.Label} (h : Settled S P trap k)
    (hstep : Proc.Step k l k') (hp : p ∈ k.procs) (hin : Inside p) (hne : ¬ actor k l p.pid)
    (hq : q ∈ k'.procs) (hpid : q.pid = p.pid) : ¬ Outside q := by
  have hwatch := Moves.watch (fun pid v => pid = p.pid → v = view p ∨ v.resume = .forkChildReturn)
    (hstep.moves h.toSound) (fun _ _ hr _ _ => .inr hr) ?_ q hq (hpid.symm ▸ hne)
  · intro hout
    rcases hwatch.2 hout.1 hpid with hv | hv
    · exact hin.not_outside hv hout
    · exact absurd (hv.symm.trans hout.2) nofun
  · refine fun r hr _ => ⟨.inl (h.procs r hr).2.1, fun _ he => .inl ?_⟩
    rw [h.toTable.eq_of_pid hr hp he]

theorem Settled.others_at {k : Kernel} {l : Proc.Label} {me : Pcb}
    (h : Settled S P trap k) (hstep : Proc.Step k l k') (hme : k.currentProc = some me)
    (hl : ∀ pid, actor k l pid ↔ k.current = some pid) (hp : p ∈ k.procs) (hin : Inside p)
    (hq : q ∈ k'.procs) (hpid : q.pid = p.pid) (hout : Outside q) : me = p := by
  by_contra hne
  refine h.others hstep hp hin (fun ha => hne ?_) hq hpid hout
  have hcur := ((hl _).mp ha).symm.trans (currentProc_mem hme).2
  exact (h.toTable.eq_current hme hp (Option.some.inj hcur)).symm

theorem arrival_kern {l : Proc.Label} (h : Settled S P w.trap w.k)
    (hallow : w.allows (.kern l) = true)
    (hstep : Proc.Step w.k l k') (hp : p ∈ w.k.procs) (hin : Inside p)
    (hheld : (w.trap p.pid).phase.held)
    (hq : q ∈ k'.procs) (hpid : q.pid = p.pid) (hout : Outside q) :
    Arrival w p q (.base (.kern l)) := by
  have hothers : ¬ actor w.k l p.pid → Arrival w p q (.base (.kern l)) :=
    fun ha => absurd hout (h.others hstep hp hin ha hq hpid)
  cases l with
  | call c =>
    obtain ⟨me, hme, hrun, hres⟩ := hstep.1
    obtain rfl := h.others_at hstep hme (fun _ => Iff.rfl) hp hin hq hpid hout
    simp only [World.allows, hme] at hallow
    rcases (allows_call hallow).2 with hphase | hphase | ⟨-, wakeTick, chan, rfl⟩
    · rw [hphase] at hheld
      exact hheld.elim
    · rw [hphase] at hheld
      exact hheld.elim
    · have hat : At w.k me := ⟨hme, hrun⟩
      rw [hat.modifyCurrent hstep.2] at hq
      obtain rfl := modified h.toTable hp hq hpid
      exact absurd hout (hin.not_outside rfl)
  | enter tf | ret path copied =>
    obtain ⟨me, hme, -⟩ := hstep.1
    simp only [World.allows, hme] at hallow
    cases hallow
  | dispatch pid =>
    by_cases hme : p.pid = pid
    · subst hme
      have hleft := Settled.only (h.toSound.step hstep)
        (dispatch_left (h.toTable.find_eq hp) hstep.2) q hq hpid
      cases hleft with
      | inside _ => exact absurd hout (hin.not_outside rfl)
      | out hr => exact .continued hr rfl
      | dead hz _ => exact absurd hz hout.1
    · exact hothers hme
  | reapOrphan | tick fromUser | tty sig | wake pid | wakeChan chan => exact hothers id

theorem arrival_pipe {l : Pipe.Label} (hl : ∀ l', l ≠ .kern l') (h : Settled S P w.trap w.k)
    (hr : runsAt w.k .trap) (hstep : Pipe.Step w.base l b)
    (hp : p ∈ w.k.procs) (hin : Inside p) (hq : q ∈ b.k.procs) (hpid : q.pid = p.pid) :
    ¬ Outside q := by
  obtain ⟨me, hme, hrun, -⟩ := hr
  have hview : ∀ r ∈ w.k.procs, r.isUser = true ∧ SigOk r ∧
      (r.state ≠ .zombie → r.pid = p.pid → view r = view p) := by
    refine fun r hr => ⟨(h.procs r hr).1, (h.procs r hr).2.1, fun _ he => ?_⟩
    rw [h.toTable.eq_of_pid hr hp he]
  have hme' := (hview me (currentProc_mem hme).1).2.2 (hrun ▸ nofun)
  intro hout
  have hkeep := (pipe_keeps (fun pid v => pid = p.pid → v = view p) hl h.toSound hme hview hme'
    hstep).2 q hq
  exact hin.not_outside (hkeep.2.2 hout.1 hpid) hout

theorem arrival (h : Inv S P w) (hstep : Step w l w') (hp : p ∈ w.k.procs) (hin : Inside p)
    (hheld : (w.trap p.pid).phase.held) (hq : q ∈ w'.k.procs) (hpid : q.pid = p.pid)
    (hout : Outside q) :
    Arrival w p q l := by
  have hs := h.settled
  -- a call of `p` itself would have to begin
  have hbegins : (w.trap p.pid).phase.calm → Arrival w p q l := by
    intro hcalm
    cases hphase : (w.trap p.pid).phase with
    | returned r | suspended m =>
      rw [hphase] at hcalm
      exact hcalm.elim
    | _ =>
      rw [hphase] at hheld
      exact hheld.elim
  have hfresh : (w.trap p.pid).begins = true → Arrival w p q l := by
    intro hb
    refine hbegins ?_
    rw [(begins_phase hb).1]
    trivial
  cases hstep with
  | @base l b hallow hstep =>
    rw [step_k] at hq
    have hpipe : ∀ {l : Pipe.Label}, (∀ l', l ≠ .kern l') → runsAt w.k .trap →
      Pipe.Step w.base l b →
        Arrival w p q (.base l) :=
      fun hl hr hst => absurd hout (arrival_pipe hl hs hr hst hp hin hq hpid)
    cases hstep with
    | kern _ hk => exact arrival_kern hs hallow hk hp hin hheld hq hpid hout
    | read hcall hfd => exact hpipe nofun hcall.1 (.read hcall hfd)
    | write hcall hfd => exact hpipe nofun hcall.1 (.write hcall hfd)
    | resumeRead hr hme hio => exact hpipe nofun hr (.resumeRead hr hme hio)
    | resumeWrite hr hme hio => exact hpipe nofun hr (.resumeWrite hr hme hio)
  | enter hme hstep =>
    obtain rfl := hs.others_at (kern_step hstep) hme (fun _ => Iff.rfl) hp hin hq hpid hout
    obtain ⟨-, hres, -⟩ := hs.at hme (kern_step hstep).1
    exact absurd ⟨hin.1, hres⟩ (hin.not_outside rfl)
  | sigreturn hme hb hstep | sigsuspend hme hb hstep =>
    obtain rfl := hs.others_at (kern_step hstep) hme (fun _ => Iff.rfl) hp hin hq hpid hout
    exact hfresh hb
  | wait4 hme hwaits hstep _ =>
    obtain rfl := hs.others_at (kern_step hstep) hme (fun _ => Iff.rfl) hp hin hq hpid hout
    exact hbegins (waits_calm hwaits)
  | ret hme hleaves hstep =>
    have hk := kern_step hstep
    obtain rfl := hs.others_at hk hme (fun _ => Iff.rfl) hp hin hq hpid hout
    obtain ⟨hat, hres, -⟩ := hs.at hme hk.1
    exact .ret hat hres hleaves
      (Settled.only (hs.toSound.step hk) (trapReturn_left hat hk.2) q hq hpid)
  | store =>
    have hq : q ∈ w.k.procs := hq
    rw [hs.toTable.eq_of_pid hq hp hpid] at hout
    exact absurd hout (hin.not_outside rfl)

end Sbunix.Signal
