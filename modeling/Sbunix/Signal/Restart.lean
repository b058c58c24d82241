import Sbunix.Pipe.Interrupted
import Sbunix.Signal.Transparent

/-!
# Interrupted calls are made again

A `read` or `write` on a pipe or a `wait4` that a signal interrupts has done
nothing. The signal that decides about the restart is the one delivered, and
behind a handler with `SA_RESTART` the process is at the `ecall` again, with the
registers of the first time. The first argument of the call must not be the
kernel's own error code.
-/

namespace Sbunix.Signal

open Lib Proc
open Pipe (Io setPid_same setPid_ne)

/-! ### Bytes -/

/-- The bytes that a call has moved show in its arguments while it sleeps, and there
are none if it was interrupted. -/
structure Counted (w : World) : Prop where
  fresh : ∀ q, (w.trap q).phase = .fresh → (w.trap q).moved = 0
  asleep : ∀ q io, w.base.io q = some io → w.base.result q = none ∧ (io.idle → (w.trap q).moved = 0)
  done : ∀ q r, w.base.result q = some r → r.value = -ERESTARTSYS → r.bytes = [] ∧
    (w.trap q).moved = 0

variable {w w' : World} {b : Pipe.World}

theorem bytesMoved_eq_zero {w b : Pipe.World} (h : Pipe.Unmoved w b) : bytesMoved w b = 0 := by
  unfold bytesMoved
  rw [h.1, h.2]
  simp

theorem Counted.of_trap (h : Counted w) (hio : w'.base.io = w.base.io)
    (hresult : ∀ q r, w'.base.result q = some r → w.base.result q = some r)
    (htrap : ∀ q, (w'.trap q).moved = 0 ∨
      (w'.trap q).moved = (w.trap q).moved ∧
        ((w'.trap q).phase = .fresh → (w.trap q).phase = .fresh)) :
    Counted w' := by
  have hmoved : ∀ q, (w.trap q).moved = 0 → (w'.trap q).moved = 0 := by
    intro q h0
    rcases htrap q with h | h
    · exact h
    · exact h.1.trans h0
  refine ⟨fun q hphase => ?_, fun q io hq => ?_, fun q r hq hv => ?_⟩
  · rcases htrap q with h' | h'
    · exact h'
    · exact h'.1.trans (h.fresh q (h'.2 hphase))
  · rw [hio] at hq
    obtain ⟨h1, h2⟩ := h.asleep q io hq
    refine ⟨?_, fun hi => hmoved q (h2 hi)⟩
    rcases hr : w'.base.result q with _ | r
    · rfl
    · exact absurd ((hresult q r hr).symm.trans h1) nofun
  · obtain ⟨h1, h2⟩ := h.done q r (hresult q r hq) hv
    exact ⟨h1, hmoved q h2⟩

theorem kern_io {w b : Pipe.World} {l : Proc.Label} (h : Pipe.Step w (.kern l) b) :
    b.io = w.io ∧ ∀ q r, b.result q = some r → w.result q = some r := by
  cases h with
  | kern _ _ =>
    have hcases : w.resultsAfter l = w.result ∨
        ∃ pid, w.resultsAfter l = Pipe.setPid w.result pid none := by
      unfold Pipe.World.resultsAfter
      split
      · exact .inr ⟨_, rfl⟩
      · exact .inl rfl
    refine ⟨rfl, fun q r hq => ?_⟩
    have hq : w.resultsAfter l q = some r := hq
    rcases hcases with he | ⟨pid, he⟩
    · rwa [he] at hq
    · rw [he] at hq
      by_cases hpid : q = pid
      · rw [hpid, setPid_same] at hq
        cases hq
      · rwa [setPid_ne _ _ hpid] at hq

theorem beside_counts (w : World) (p : Pcb) (l : Pipe.Label) (q : ℤ) :
    ((w.beside p l).trap q).moved = 0 ∨ (w.beside p l).trap q = w.trap q := by
  unfold World.beside
  split
  · simp only [World.spawn]
    split
    · exact .inl rfl
    · exact .inr rfl
  · split <;> exact .inr rfl
  · exact .inr rfl

theorem after_kern (t : Trap) (n : ℕ) (l : Proc.Label) : (t.after n (.kern l)).moved = t.moved ∧
    ((t.after n (.kern l)).phase = .fresh → t.phase = .fresh) := by
  unfold Trap.after
  split
  · split
    · exact ⟨rfl, nofun⟩
    · exact ⟨rfl, id⟩
  · exact ⟨rfl, id⟩
  all_goals contradiction

theorem Counted.kern {l : Proc.Label} (h : Counted w) (hstep : Pipe.Step w.base (.kern l) b) :
    Counted (w.step (.kern l) b) := by
  obtain ⟨hio, hresult⟩ := kern_io hstep
  unfold World.step
  split
  · exact h.of_trap hio hresult fun q => .inr ⟨rfl, id⟩
  · next p hp =>
    refine h.of_trap hio hresult fun q => ?_
    by_cases hq : q = p.pid
    · rw [hq, setTrap_self]
      exact .inr (after_kern _ _ l)
    · rw [setTrap_ne _ _ hq]
      rcases beside_counts w p (.kern l) q with h0 | h0
      · exact .inl h0
      · rw [h0]
        exact .inr ⟨rfl, id⟩

theorem allows_pipe {t : Trap} {p : Pcb} {l : Pipe.Label} (hl : ∀ l', l ≠ .kern l')
    (h : t.allows p l = true) (n : ℕ) :
    (t.after n l).moved = t.moved + n ∧ (t.after n l).phase ≠ .fresh := by
  cases l with
  | kern l => exact absurd rfl (hl l)
  | read fd len copyout | write fd len buf copyin => exact ⟨rfl, nofun⟩
  | resume =>
    refine ⟨rfl, fun hphase => ?_⟩
    have hphase : t.phase = .fresh := hphase
    unfold Trap.allows at h
    simp [hphase] at h

theorem Counted.pipe {l : Pipe.Label} (h : Counted w) (hl : ∀ l', l ≠ .kern l')
    (hallow : w.allows l = true)
    (hbegin : ∀ p, w.k.currentProc = some p → w.base.io p.pid = none → (w.trap p.pid).begins = true)
    (hp : ∃ p, w.k.currentProc = some p) (hstep : Pipe.Step w.base l b) : Counted (w.step l b) := by
  obtain ⟨pid, hcur, hnone, hout⟩ := Pipe.step_outcome hl hstep
  obtain ⟨p, hp⟩ := hp
  cases hcur.symm.trans (currentProc_mem hp).2
  simp only [World.allows, hp] at hallow
  obtain ⟨hmoved, hphase⟩ := allows_pipe hl hallow (bytesMoved w.base b)
  -- a call that had moved nothing and moves nothing
  have hzero : (∀ io, w.base.io p.pid = some io → io.idle) → Pipe.Unmoved w.base b →
      ((w.step l b).trap p.pid).moved = 0 := by
    intro hidle hun
    rw [step_trap_self hp, hmoved, bytesMoved_eq_zero hun]
    rcases hio : w.base.io p.pid with _ | io
    · exact h.fresh _ (begins_phase (hbegin p hp hio)).1
    · exact (h.asleep _ io hio).2 (hidle io hio)
  have hresult : w.base.result p.pid = none := by
    rcases hio : w.base.io p.pid with _ | io
    · exact hnone hio
    · exact (h.asleep _ io hio).1
  have hbeside : w.beside p l = w := by
    cases l with
    | kern l => exact absurd rfl (hl l)
    | _ => rfl
  have htrap : ∀ q, q ≠ p.pid → (w.step l b).trap q = w.trap q := by
    intro q hq
    simp only [World.step, hp, World.setTrap, hbeside]
    exact setPid_ne _ _ hq
  have hbase : (w.step l b).base = b := by
    simp only [World.step, hp]
  refine ⟨fun q hq => ?_, fun q io hq => ?_, fun q r hq hv => ?_⟩
  · by_cases hne : q = p.pid
    · rw [hne, step_trap_self hp] at hq
      exact absurd hq hphase
    · rw [htrap q hne] at hq ⊢
      exact h.fresh q hq
  · rw [hbase] at hq ⊢
    by_cases hne : q = p.pid
    · subst hne
      rcases hout.ends with ⟨io', h1, h2, h3⟩ | ⟨h1, -⟩
      · cases h1.symm.trans hq
        exact ⟨h2.trans hresult, fun hi => hzero (h3 hi).1 (h3 hi).2⟩
      · cases h1.symm.trans hq
    · rw [(hout.others q hne).1] at hq
      rw [(hout.others q hne).2, htrap q hne]
      exact h.asleep q io hq
  · rw [hbase] at hq
    by_cases hne : q = p.pid
    · subst hne
      rcases hout.ends with ⟨io', h1, h2, h3⟩ | ⟨h1, r', h2, h3⟩
      · cases (h2.trans hresult).symm.trans hq
      · cases h2.symm.trans hq
        obtain ⟨hbytes, hidle, hun⟩ := h3 hv
        exact ⟨hbytes, hzero hidle hun⟩
    · rw [(hout.others q hne).2] at hq
      rw [htrap q hne]
      exact h.done q r hq hv

theorem Counted.base {l : Pipe.Label} (h : Counted w) (hallow : w.allows l = true)
    (hstep : Pipe.Step w.base l b) : Counted (w.step l b) := by
  have hbegins : ∀ {l : Pipe.Label}, (∀ t : Trap, ∀ p, t.allows p l = t.begins) →
    w.allows l = true →
      ∀ p, w.k.currentProc = some p → w.base.io p.pid = none → (w.trap p.pid).begins = true := by
    intro l ht hallow p hp _
    simp only [World.allows, hp, ht] at hallow
    exact hallow
  have hasleep : ∀ {p : Pcb} {io : Io}, w.k.currentProc = some p → w.base.io p.pid = some io →
      ∀ p, w.k.currentProc = some p → w.base.io p.pid = none → (w.trap p.pid).begins = true := by
    intro p io hp hio p' hp' hnone
    obtain rfl : p' = p := Option.some.inj (hp'.symm.trans hp)
    cases hnone.symm.trans hio
  cases hstep with
  | kern hl hk => exact h.kern (.kern hl hk)
  | read hcall hfd =>
    obtain ⟨p, hp, -⟩ := hcall.1
    exact h.pipe (by simp) hallow (hbegins (fun _ _ => rfl) hallow) ⟨p, hp⟩ (.read hcall hfd)
  | write hcall hfd =>
    obtain ⟨p, hp, -⟩ := hcall.1
    exact h.pipe (by simp) hallow (hbegins (fun _ _ => rfl) hallow) ⟨p, hp⟩ (.write hcall hfd)
  | resumeRead hr hp hio =>
    exact h.pipe (by simp) hallow (hasleep hp hio) ⟨_, hp⟩ (.resumeRead hr hp hio)
  | resumeWrite hr hp hio =>
    exact h.pipe (by simp) hallow (hasleep hp hio) ⟨_, hp⟩ (.resumeWrite hr hp hio)

theorem Counted.step {l : Label} (h : Counted w) (hstep : Step w l w') : Counted w' := by
  -- a step that gives one process a trap that counts as before, or starts again
  have hset : ∀ {l : Proc.Label} {b : Pipe.World} {pid : ℤ} {t : Trap} {w' : World},
      Pipe.Step w.base (.kern l) b → w'.base = b → w'.trap = Pipe.setPid w.trap pid t →
      (t.moved = 0 ∨ t.moved = (w.trap pid).moved ∧ t.phase ≠ .fresh) → Counted w' := by
    intro l b pid t w' hstep hbase htrap ht
    obtain ⟨hio, hresult⟩ := kern_io hstep
    subst hbase
    refine h.of_trap hio hresult fun q => ?_
    rw [htrap]
    by_cases hq : q = pid
    · rw [hq, setPid_same]
      exact ht.imp_right fun h => ⟨h.1, fun he => absurd he h.2⟩
    · rw [setPid_ne _ _ hq]
      exact .inr ⟨rfl, id⟩
  cases hstep with
  | base hallow hstep => exact h.base hallow hstep
  | enter hp hstep => exact hset hstep rfl rfl (.inl rfl)
  | sigreturn hp _ hstep => exact hset hstep rfl rfl (.inr ⟨rfl, nofun⟩)
  | @sigsuspend p mask b hp _ hstep =>
    refine hset hstep rfl rfl (.inr ⟨rfl, ?_⟩)
    rcases mask with _ | _ | m <;> nofun
  | @wait4 p pid options ustatus r b hp _ hstep _ =>
    refine hset hstep rfl rfl (.inr ⟨rfl, ?_⟩)
    cases r <;> nofun
  | @ret p path copied b hp _ hstep =>
    obtain ⟨hio, hresult⟩ := kern_io hstep
    refine h.of_trap hio hresult fun q => ?_
    refine .inr ?_
    dsimp only
    rw [leave_trap]
    exact ⟨rfl, id⟩
  | store => exact h.of_trap rfl (fun _ _ => id) fun q => .inr ⟨rfl, id⟩

theorem Counted.boot (pid : ℤ) (entry sp : BitVec 64) : Counted (bootWorld pid entry sp) where
  fresh _ _ := rfl
  asleep _ _ h := absurd h nofun
  done _ _ h := absurd h nofun

/-! ### Restarts -/

/-- What a step does to calls that a signal interrupts. -/
structure Restarts (w : World) (l : Label) (w' : World) : Prop where
  -- the signal that decides about the restart is the one that is delivered
  consulted : ∀ origA0 copied, l = .ret (.ecall (-ERESTARTSYS) origA0) copied →
    ∀ p, w.k.currentProc = some p →
    pickActionable (p.atCheck (.ecall (-ERESTARTSYS) origA0)) = pickActionable p
  -- a handler with `SA_RESTART` is to return to the `ecall`, with its registers
  caught : ∀ origA0 copied, l = .ret (.ecall (-ERESTARTSYS) origA0) copied →
    ∀ p, w.k.currentProc = some p →
    ∀ sig, (p.atCheck (.ecall (-ERESTARTSYS) origA0)).handles copied = some sig →
    (p.sigHandlers sig).flags &&& SA_RESTART ≠ 0 → (w.trap p.pid).popped = none →
    ((w.trap p.pid).phase = .piped ∨ ∃ r, (w.trap p.pid).phase = .returned r) →
      ∃ e, w'.frames p.pid = e :: w.frames p.pid ∧ e.context.tf = (w.trap p.pid).regs ∧
        e.restart = some (w.trap p.pid).regs
  -- and so it does, through whatever handlers come next
  replayed : ∀ p ∈ w.k.procs, Inside p → ∀ e, (w.trap p.pid).popped = some e →
    ∀ regs, e.restart = some regs → ∀ q ∈ w'.k.procs, q.pid = p.pid → Outside q →
      w'.frames p.pid = w.frames p.pid ∧ SameRegs q.tf regs ∨
      ∃ e', w'.frames p.pid = e' :: w.frames p.pid ∧ SameRegs e'.context.tf regs ∧
        e'.restart = some regs
  -- a call on a pipe that was interrupted has moved no byte since its process entered the kernel
  bytes : ∀ q r, w'.base.result q = some r → r.value = -ERESTARTSYS → r.bytes = [] ∧
    (w'.trap q).moved = 0
  -- a `wait4` that sleeps or was interrupted has left all other processes alone
  children : ∀ pid options ustatus, l = .wait4 pid options ustatus → ∀ p, w.k.currentProc = some p →
    ((w'.trap p.pid).phase = .waiting pid options ustatus ∨
      (w'.trap p.pid).phase = .returned (-ERESTARTSYS)) →
    ∀ z ∈ w.k.procs, z.pid ≠ p.pid → z ∈ w'.k.procs

variable {l : Label} {p q : Pcb} {e : Entry}

theorem atCheck_consulted (p : Pcb) (origA0 : BitVec 64) :
    pickActionable (p.atCheck (.ecall (-ERESTARTSYS) origA0)) = pickActionable p := by
  unfold Pcb.atCheck
  dsimp only
  split
  · exact restarted_pick _ _
  · rfl

theorem restart_some {t : Trap} {c : Pcb} (origA0 : BitVec 64) (sig : ℕ) (hpop : t.popped = none)
    (hphase : t.phase = .piped ∨ ∃ r, t.phase = .returned r)
    (hflag : (c.sigHandlers sig).flags &&& SA_RESTART ≠ 0) :
    t.restart (.ecall (-ERESTARTSYS) origA0) c sig = some t.regs := by
  unfold Trap.restart
  rcases hphase with hphase | ⟨r, hphase⟩
  · rw [hpop, hphase]
    exact if_pos ⟨rfl, hflag⟩
  · rw [hpop, hphase]
    exact if_pos ⟨rfl, hflag⟩

theorem wait4_nothing {k k' : Kernel} {pid : ℤ} {options : BitVec 32} (ustatus : Option Bool)
    {r : WaitResult} (hk : Sound k) (hp : k.currentProc = some p)
    (he : wait4Pass pid options k = (some r, k'))
    (hr : r = .slept ∨ (wait4Return ustatus r).1 = -ERESTARTSYS) :
    ∀ z ∈ k.procs, z.pid ≠ p.pid → z ∈ k'.procs := by
  have hpos : ∀ z ∈ k.procs, z.pid ≠ -ERESTARTSYS := by
    intro z hz h
    have := hk.positive z hz
    unfold ERESTARTSYS at h
    omega
  -- what `wait4` returns for a status is a pid or `-EFAULT`
  have hstatus : ∀ {z : Pcb}, z ∈ k.procs → ∀ s, (wait4Return ustatus (.reported z.pid s)).1 ≠
      -ERESTARTSYS := by
    intro z hz s
    rcases ustatus with _ | _ | _
    · exact hpos z hz
    · exact (by decide : -EFAULT ≠ -ERESTARTSYS)
    · exact hpos z hz
  cases wait4Pass_run he with
  | failed _ => exact fun z hz _ => hz
  | @slept me hme _ =>
    cases hp.symm.trans hme
    exact fun z hz hne => Kernel.mem_modify.mpr ⟨z, hz, if_neg hne⟩
  | stopReported hz | continueReported hz => exact absurd (hr.resolve_left (by simp)) (hstatus hz _)
  | reaped _ hz _ _ => exact absurd (hr.resolve_left (by simp)) (hstatus hz.1 _)

theorem Inv.replayed (h : Inv False True w) (hstep : Step w l w') (hp : p ∈ w.k.procs)
    (hin : Inside p)
    (hpop : (w.trap p.pid).popped = some e) {regs : TrapFrame} (hregs : e.restart = some regs)
    (hq : q ∈ w'.k.procs) (hpid : q.pid = p.pid) (hout : Outside q) :
    w'.frames p.pid = w.frames p.pid ∧ SameRegs q.tf regs ∨
      ∃ e', w'.frames p.pid = e' :: w.frames p.pid ∧ SameRegs e'.context.tf regs ∧
        e'.restart = some regs := by
  obtain ⟨hgood, hentry, hphase⟩ := h.popped hp hin hpop
  have hsame := hentry.restart trivial regs hregs
  cases arrival h hstep hp hin (hphase ▸ trivial) hq hpid hout with
  | @ret path copied hat hres hleaves hleft =>
    have hcheck := (hgood.atCheck_popped hres hleaves hpop hentry trivial).trans hsame
    rcases h.left hat hres hleft hout hstep with ⟨hframes, htf, -⟩ | ⟨sig, -, e', hframes,
      hcontext, hrest, -⟩
    · refine .inl ⟨hframes, ?_⟩
      rw [htf]
      exact hcheck
    · refine .inr ⟨e', hframes, ?_, ?_⟩
      · rw [hcontext]
        exact hcheck
      · have hkept : (w.trap p.pid).restart path (p.atCheck path) sig = e.restart := by
          unfold Trap.restart
          rw [hpop]
        exact (hrest.trans hkept).trans hregs
  | continued _ hq =>
    subst hq
    rw [dispatch_frames hstep]
    exact .inl ⟨rfl, ((hgood.popped hin.2 e hpop).2.2.1 trivial).trans hsame⟩

theorem Inv.restarts (h : Inv False True w) (hc : Counted w) (hstep : Step w l w') :
    Restarts w l w' where
  consulted origA0 copied _ p _ := atCheck_consulted p origA0
  caught origA0 copied hl p hp sig hsig hflag hpop hphase := by
    subst hl
    have hhandlers : (p.atCheck (.ecall (-ERESTARTSYS) origA0)).sigHandlers = p.sigHandlers := by
      rw [atCheck_eq]
    rw [← hhandlers] at hflag
    have hrestart := restart_some origA0 sig hpop hphase hflag
    obtain ⟨e, hpushed, hcontext, hrest, -⟩ := pushed_some (w := w) hsig
    refine ⟨e, by rw [ret_frames hp hstep, leave_frames_some hpushed], ?_, hrest.trans hrestart⟩
    cases hstep with
    | @ret p' _ _ b hp' hleaves hstep =>
      cases hp.symm.trans hp'
      obtain ⟨-, hres, -, -, hgood⟩ := h.settled.at hp (kern_step hstep).1
      rw [hcontext]
      exact hgood.replayed hres hleaves hpop hsig hrestart
  replayed p hp hin e hpop regs hregs q hq hpid hout :=
    h.replayed hstep hp hin hpop hregs hq hpid hout
  bytes q r hq hv := (hc.step hstep).done q r hq hv
  children pid options ustatus hl p hp hphase := by
    subst hl
    cases hstep with
    | @wait4 p' _ _ _ r b hp' _ _ hpass =>
      cases hp.symm.trans hp'
      refine wait4_nothing ustatus h.settled.toSound hp hpass ?_
      simp only [World.waited, setTrap_self] at hphase
      cases r with
      | slept => exact .inl rfl
      | _ =>
        refine .inr ?_
        rcases hphase with hphase | hphase
        · cases hphase
        · exact Phase.returned.inj hphase

/-- In every run from boot in which handlers return at their frames and leave them
alone, new frames do not overlap old ones and interrupted contexts are plain, every
step treats interrupted calls as it should. -/
theorem interrupted_calls_restart {pid : ℤ} (hpid : 0 < pid) (entry sp : BitVec 64)
    {w w' : World} {l : Label}
    (h : Reaches Step (Ok False True) (bootWorld pid entry sp) w) (hstep : Step w l w') :
    Restarts w l w' := by
  have hc : Counted w := h.invariant (Counted.boot pid entry sp) fun _ _ _ hc _ hstep =>
    hc.step hstep
  exact (Inv.reaches hpid h).restarts hc hstep

/-- A process catches `SIGALRM` with `SA_RESTART`, its child leads a group of its own,
and the process waits for that group until the alarm. -/
def groupAwaited (pid : ℤ) : List Label :=
  let regs := userRegs 0x10000 0x20000
  let group := BitVec.ofInt 64 (-(pid + 1))
  [.base (.kern (.dispatch pid)), .enter true (regs 14),
    .base (.kern (.call (.sigaction SIGALRM (some (some ⟨0x11000, 0, SA_RESTART, 0x12000⟩)) true))),
    .ret (.ecall 0 14) true,
    .enter true (regs 0),
    .base (.kern (.call (.fork .ok))),
    .ret (.ecall (pid + 1) 0) true,
    .enter true (regs 1),
    .base (.kern (.call (.alarm 1))),
    .ret (.ecall 0 1) true,
    .enter false (regs 0),
    .base (.kern (.call .yield)),
    .base (.kern (.dispatch (pid + 1))),
    .enter true (regs 0),
    .base (.kern (.call (.setpgid 0 0))),
    .ret (.ecall 0 0) true,
    .enter false (regs 0),
    .base (.kern (.call .yield)),
    .base (.kern (.dispatch pid)),
    .ret .checked true,
    .enter true (regs group),
    .wait4 (-(pid + 1)) 0 none,
    .base (.kern (.tick false)),
    .base (.kern (.dispatch pid)),
    .wait4 (-(pid + 1)) 0 none]

theorem interrupted_calls_restart_wait4 : ∃ w w',
    run (fun w l => Ok False True w l) (groupAwaited 1) (bootWorld 1 0x10000 0x20000) = some w ∧
      Step w (.ret (.ecall (-512) (BitVec.ofInt 64 (-2))) true) w' ∧
      Restarts w (.ret (.ecall (-512) (BitVec.ofInt 64 (-2))) true) w' := by
  have hrun : (run (fun w l => Ok False True w l) (groupAwaited 1)
    (bootWorld 1 0x10000 0x20000)).any
      (fun w => (exec w (.ret (.ecall (-512) (BitVec.ofInt 64 (-2))) true)).isSome) = true := by
    decide +kernel
  obtain ⟨w, hw, hsome⟩ := (Option.any_eq_true _ _).mp hrun
  obtain ⟨w', hw'⟩ := Option.isSome_iff_exists.mp hsome
  have hreach : Reaches Step (Ok False True) (bootWorld 1 0x10000 0x20000) w :=
    (run_reaches hw).mono fun _ _ h => of_decide_eq_true h
  exact ⟨w, w', hw, exec_step hw', interrupted_calls_restart (by decide) _ _ hreach (exec_step hw')⟩

/-- A `wait4` for the group 512 is made again for the group 4. -/
theorem restarted_wait4_argument_lost : ∃ w w' p e regs q,
    Reaches Step AnyContext (bootWorld 511 0x10000 0x20000) w ∧
      AnyContext w (.ret (.ecall (-512) 14) true) ∧
      Step w (.ret (.ecall (-512) 14) true) w' ∧ p ∈ w.k.procs ∧ Inside p ∧
        (w.trap p.pid).popped = some e ∧
      e.restart = some regs ∧ q ∈ w'.k.procs ∧ q.pid = p.pid ∧ Outside q ∧ w'.frames p.pid = [] ∧
      q.tf TF_SEPC = regs TF_SEPC ∧ regs TF_A0 = BitVec.ofInt 64 (-512) ∧
      q.tf TF_A0 = BitVec.ofInt 64 (-4) := by
  obtain ⟨w, w', -, hreach, hok, hstep, hlast⟩ := run_step AnyContext (groupAwaited 511 ++
      [.ret (.ecall (-512) (BitVec.ofInt 64 (-512))) true,
        .enter true (userRegs 0x12000 0x1fec0 14), .sigreturn])
    (bootWorld 511 0x10000 0x20000) (.ret (.ecall (-512) 14) true)
    (fun w w' => w.k.procs.any fun p => (w.trap p.pid).popped.any fun e => e.restart.any fun regs =>
      w'.k.procs.any fun q =>
        (p.state ≠ .zombie ∧ p.resume = .trap) ∧ q.pid = p.pid ∧
          (q.state ≠ .zombie ∧ q.resume = .user) ∧
          (w'.frames p.pid).isEmpty ∧ q.tf TF_SEPC = regs TF_SEPC ∧
          regs TF_A0 = BitVec.ofInt 64 (-512) ∧ q.tf TF_A0 = BitVec.ofInt 64 (-4))
            (by decide +kernel)
  simp only [Option.any_eq_true, List.any_eq_true, decide_eq_true_eq] at hlast
  obtain ⟨p, hp, e, he, regs, hregs, q, hq, hin, hpid, hout, hframes, h1, h2, h3⟩ := hlast
  exact ⟨w, w', p, e, regs, q, hreach, hok, hstep, hp, ⟨hin.1, inKernel_trap hin.2⟩, he,
    hregs, hq, hpid,
    hout, List.isEmpty_iff.mp hframes, h1, h2, h3⟩

end Sbunix.Signal
