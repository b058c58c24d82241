import Sbunix.Proc.SignalSpec

/-!
# The process table along a run

The table stays well formed, and a property of single processes that looks only
at signals and at the place where the process continues is kept by every call
of a running process.
-/

namespace Sbunix.Proc

open List Lib.Kern Lib

/-! ### What an exit does, stage by stage -/

/-- The ways `proc_exit_current` can return: not at all for a process that is not
running, or with the caller gone. -/
inductive ExitRun (k : Kernel) (status : ℤ) : Bool → Kernel → Prop
  | idle : ¬ Running k → ExitRun k status false k
  | gone {p : Pcb} {k₁ : Kernel} : k.currentProc = some p → p.state = .running →
    closeFds p.pid (fun _ => true)
      (reparent (k.modify p.pid (Pcb.exiting status)) p.pid) = (some (), k₁) →
    ExitRun k status true (becomeZombie k₁ p)

variable {k k' : Kernel} {status pid : ℤ} {gone copied fromUser : Bool} {options : BitVec 32}
  {r : WaitResult} {u : Unit} {D : Prop} {g : Pcb → Pcb} {c : Call} {path : RetPath}
  {Good : Kernel → Prop} {l : Label}

theorem procExitCurrent_run
    (he : procExitCurrent status k = (some gone, k')) : ExitRun k status gone k' := by
  unfold procExitCurrent at he
  rw [get_bind] at he
  rcases hp : k.currentProc with _ | p
  · simp only [hp] at he
    cases he
    refine .idle ?_
    rintro ⟨p, hp', _⟩
    rw [hp] at hp'
    cases hp'
  simp only [hp] at he
  rw [Kern.ite_apply] at he
  split at he
  · next hs =>
    cases he
    refine .idle ?_
    rintro ⟨p', hp', hs'⟩
    rw [hp] at hp'
    exact hs (Option.some.inj hp' ▸ hs')
  · next hs =>
    rw [modify_bind] at he
    obtain ⟨⟨⟩, k₁, hclose, he⟩ := bind_eq_some.mp he
    rw [modify_bind] at he
    cases he
    exact .gone hp (by simpa using hs) hclose

/-- The ways one pass of `proc_wait4_current` can end. -/
inductive Wait4Run (k : Kernel) (pid : ℤ) (options : BitVec 32) : WaitResult → Kernel → Prop
  | failed (r : ℤ) : Wait4Run k pid options (.failed r) k
  | slept {me : Pcb} : k.currentProc = some me →
    (∀ p ∈ k.procs, waitable me pid p = true → p.state ≠ .zombie) →
    Wait4Run k pid options .slept (k.modify me.pid Pcb.asleep)
  | stopReported {p : Pcb} : p ∈ k.procs →
    Wait4Run k pid options (.reported p.pid ((p.lastSignal % 256 * 256 + 127 : ℕ) : ℤ))
      (k.modify p.pid Pcb.stopSeen)
  | continueReported {p : Pcb} : p ∈ k.procs →
    Wait4Run k pid options (.reported p.pid 65535) (k.modify p.pid Pcb.continueSeen)
  | reaped {me p : Pcb} {k₁ : Kernel} : k.currentProc = some me →
    (p ∈ k.procs ∧ waitable me pid p = true) → p.state = .zombie →
    procDestroy p (k.modify me.pid (Pcb.absorb p)) = (some (), k₁) →
    Wait4Run k pid options (.reaped p) k₁

theorem wait4Pass_cases (he : wait4Pass pid options k = (some r, k')) :
    (∃ e, r = .failed e ∧ k' = k) ∨
      (∃ me, k.currentProc = some me ∧
        (∀ p ∈ k.procs, waitable me pid p = true → p.state ≠ .zombie) ∧
        r = .slept ∧ k' = k.modify me.pid Pcb.asleep) ∨
      ∃ me p, k.currentProc = some me ∧ p ∈ k.procs ∧ waitable me pid p = true ∧
        reportable options p = true ∧
        wait4Take me options p k = (some r, k') := by
  unfold wait4Pass at he
  rw [get_bind] at he
  rcases hme : k.currentProc with _ | me
  · simp only [hme] at he
    cases he
    exact .inl ⟨_, rfl, rfl⟩
  simp only [hme] at he
  rcases hfind : k.procs.find? (fun p => waitable me pid p && reportable options p) with _ | p
  · simp only [hfind] at he
    split_ifs at he
    · cases he
      exact .inl ⟨_, rfl, rfl⟩
    · cases he
      exact .inl ⟨_, rfl, rfl⟩
    · cases he
      exact .inl ⟨_, rfl, rfl⟩
    · rw [modify_bind] at he
      cases he
      refine .inr (.inl ⟨me, rfl, fun p hp hw hz => ?_, rfl, rfl⟩)
      have := find?_eq_none.mp hfind p hp
      simp [hw, reportable, hz] at this
  · simp only [hfind] at he
    have hfound := find?_some hfind
    simp only [Bool.and_eq_true] at hfound
    exact .inr (.inr ⟨me, p, rfl, mem_of_find?_eq_some hfind, hfound.1, hfound.2, he⟩)

theorem wait4Pass_run
    (he : wait4Pass pid options k = (some r, k')) : Wait4Run k pid options r k' := by
  rcases wait4Pass_cases he with ⟨e, rfl, rfl⟩ | ⟨me, hme, hnone, rfl, rfl⟩ | ⟨me, p, hme,
    hp, hw, -, he⟩
  · exact .failed e
  · exact .slept hme hnone
  · unfold wait4Take at he
    split_ifs at he with hz
    · rw [modify_bind] at he
      obtain ⟨⟨⟩, k₁, hdestroy, he⟩ := bind_eq_some.mp he
      cases he
      exact .reaped hme ⟨hp, hw⟩ hz hdestroy
    · rw [modify_bind] at he
      cases he
      exact .stopReported hp
    · rw [modify_bind] at he
      cases he
      exact .continueReported hp

theorem procDestroy_run {p : Pcb} (he : procDestroy p k = (some u, k')) :
    closeOrphan p.ofile { k with procs := k.procs.filter (·.pid ≠ p.pid) } = (some u, k') := by
  unfold procDestroy at he
  rw [get_bind, Kern.ite_apply] at he
  split at he
  · cases he
  · rwa [modify_bind] at he

theorem hangup_quiet (k : Kernel) (p : Pcb) : QuietAll D k (hangup k p) := by
  unfold hangup
  split
  · have hs : Sends NotKill k (sendEach (fun q => q.pid ≠ p.pid ∧ q.state ≠ .unused ∧ q.sid = p.sid)
        [SIGHUP, SIGCONT] k) := by
      refine sendEach_sends k (by decide) _ ?_
      simp [NotKill, SIGHUP, SIGCONT, SIGKILL]
    have hq : QuietAll D k _ := QuietAll.of_sends hs
    exact ⟨hq.current, hq.nextPid, hq.initPid, hq.generationSeq, hq.files, hq.procs⟩
  · exact QuietAll.refl k

theorem becomeZombie_eq (k : Kernel) (p : Pcb) : ∃ k₁, QuietAll True k k₁ ∧
    becomeZombie k p = k₁.modify p.pid Pcb.dead :=
  ⟨_, (hangup_quiet k p).trans (QuietAll.of_sends (notifyParent_sends _ _)), rfl⟩

theorem reparent_quiet (k : Kernel) (pid : ℤ) :
    QuietAll True (k.modifyAll (Pcb.reparented pid (reparentTo k))) (reparent k pid) := by
  unfold reparent
  dsimp only
  split
  · exact QuietAll.of_sends (procWakeup_sends _ _)
  · exact QuietAll.refl _

/-! ### Properties of single processes -/

/-- What such a property may look at. -/
structure SigView where
  pid : ℤ
  isUser : Bool
  resume : Resume
  sigPending : BitVec 64
  sigBlocked : BitVec 64
  sigSuspendActive : Bool
  sigSuspendSavedMask : BitVec 64
  sigHandlers : ℕ → SigAction

def Pcb.sigView (p : Pcb) : SigView :=
  ⟨p.pid, p.isUser, p.resume, p.sigPending, p.sigBlocked, p.sigSuspendActive, p.sigSuspendSavedMask,
    p.sigHandlers⟩

theorem reparented_pid (pid dst : ℤ) (q : Pcb) : (q.reparented pid dst).pid = q.pid := by
  unfold Pcb.reparented
  split <;> rfl

theorem reparented_state (pid dst : ℤ) (q : Pcb) : (q.reparented pid dst).state = q.state := by
  unfold Pcb.reparented
  split <;> rfl

theorem reparented_sigView (pid dst : ℤ) (q : Pcb) :
    (q.reparented pid dst).sigView = q.sigView := by
  unfold Pcb.reparented
  split <;> rfl

structure LocalQuiet (P : Pcb → Prop) : Prop where
  view : ∀ {p q}, q.sigView = p.sigView → P p → P q
  quiet : ∀ {p q}, Quiet False p q → P p → P q

structure Local (P : Pcb → Prop) : Prop extends LocalQuiet P where
  sent : ∀ {S p q}, Sent S p q → P p → P q
  fork : ∀ {p} pid generation, P p → P (forkChild p pid generation)

/-- The table is well formed, and `P` holds of every process. -/
structure TableAll (P : Pcb → Prop) (k : Kernel) : Prop extends Table k where
  all : k.All P

theorem modifyAll_pids (k : Kernel) (hg : ∀ p, (g p).pid = p.pid) :
    (k.modifyAll g).procs.map Pcb.pid = k.procs.map Pcb.pid := by
  simp only [Kernel.modifyAll, map_map]
  exact map_congr_left fun p _ => hg p

theorem modify_pids (k : Kernel) (pid : ℤ) (hg : ∀ p, (g p).pid = p.pid) :
    (k.modify pid g).procs.map Pcb.pid = k.procs.map Pcb.pid := by
  refine modifyAll_pids k fun p => ?_
  split
  · exact hg p
  · rfl

variable {P : Pcb → Prop}

section

variable (h : TableAll P k)
include h

theorem TableAll.modify (hpid : ∀ p, (g p).pid = p.pid)
    (hused : ∀ p, p.state ≠ .unused → (g p).state ≠ .unused) (hg : ∀ p, P p → P (g p)) :
    TableAll P (k.modify pid g) where
  toTable := h.toTable.modify fun p => ⟨hpid p, hused p⟩
  all := h.all.modify fun p _ _ => hg p

theorem TableAll.modifyAll (hpid : ∀ p, (g p).pid = p.pid)
    (hused : ∀ p, p.state ≠ .unused → (g p).state ≠ .unused) (hg : ∀ p, P p → P (g p)) :
    TableAll P (k.modifyAll g) where
  toTable := h.toTable.modifyAll fun p => ⟨hpid p, hused p⟩
  all := h.all.modifyAll fun p _ => hg p

theorem TableAll.of_procs (he : k'.procs = k.procs) : TableAll P k' :=
  ⟨h.toTable.of_procs he, fun p hp => h.all p (he ▸ hp)⟩

theorem TableAll.filter (f : Pcb → Bool) (he : k'.procs = k.procs.filter f) :
    TableAll P k' := by
  refine ⟨⟨?_, ?_⟩, ?_⟩
  · rw [he]
    exact h.nodup.sublist (filter_sublist.map _)
  · intro p hp
    rw [he] at hp
    exact h.used p (mem_of_mem_filter hp)
  · intro p hp
    rw [he] at hp
    exact h.all p (mem_of_mem_filter hp)

theorem TableAll.append {c : Pcb} (he : k'.procs = k.procs ++ [c])
    (hfresh : ∀ p ∈ k.procs, p.pid ≠ c.pid) (hused : c.state ≠ .unused) (hc : P c) :
    TableAll P k' := by
  refine ⟨⟨?_, ?_⟩, ?_⟩
  · rw [he, map_append, map_singleton, nodup_append]
    refine ⟨h.nodup, nodup_singleton _, ?_⟩
    intro a ha b hb hab
    obtain ⟨p, hp, rfl⟩ := mem_map.mp ha
    exact hfresh p hp (hab.trans (mem_singleton.mp hb))
  · intro p hp
    rw [he] at hp
    rcases mem_append.mp hp with hp | hp
    · exact h.used p hp
    · exact mem_singleton.mp hp ▸ hused
  · intro p hp
    rw [he] at hp
    rcases mem_append.mp hp with hp | hp
    · exact h.all p hp
    · exact mem_singleton.mp hp ▸ hc

end

section

variable (hP : LocalQuiet P)

include hP

theorem TableAll.quiet (h : TableAll P k) (hq : QuietAll D k k') : TableAll P k' where
  toTable := hq.table h.toTable
  all q hqm := by
    obtain ⟨p, hp, hpq⟩ := (hq.mono False False.elim).mem hqm
    exact hP.quiet hpq (h.all p hp)

theorem TableAll.modify_view (h : TableAll P k)
    (hpid : ∀ p, (g p).pid = p.pid) (hused : ∀ p, p.state ≠ .unused → (g p).state ≠ .unused)
    (hview : ∀ p, (g p).sigView = p.sigView) : TableAll P (k.modify pid g) :=
  h.modify hpid hused fun p => hP.view (hview p)

theorem TableAll.reparent (h : TableAll P k) (pid : ℤ) : TableAll P (reparent k pid) := by
  have h1 : TableAll P (k.modifyAll (Pcb.reparented pid (reparentTo k))) :=
    h.modifyAll (reparented_pid pid _) (fun q hu => (reparented_state pid _ q).trans_ne hu)
      fun q => hP.view (reparented_sigView pid _ q)
  exact TableAll.quiet hP h1 (reparent_quiet k pid)

theorem exit_keeps (h : TableAll P k)
    (he : procExitCurrent status k = (some gone, k')) : TableAll P k' := by
  cases procExitCurrent_run he with
  | idle _ => exact h
  | @gone p k₁ _ _ hclose =>
    have h1 : TableAll P (k.modify p.pid (Pcb.exiting status)) :=
      h.modify_view hP (fun _ => rfl) (fun _ => id) fun _ => rfl
    have h3 := TableAll.quiet hP (h1.reparent hP p.pid)
      (closeFds_rel quiet_fds trivial _ _ _ _ hclose)
    obtain ⟨k₃, hq₃, hz⟩ := becomeZombie_eq k₁ p
    rw [hz]
    exact (TableAll.quiet hP h3 hq₃).modify_view hP (fun _ => rfl) (fun _ _ => nofun) fun _ => rfl

theorem tableAll_robust : Robust (TableAll P) where
  quiet hq h := TableAll.quiet hP h hq
  stop h _ _ _ := h.modify_view hP (fun _ => rfl) (fun _ _ => nofun) fun _ => rfl
  exit h _ he := exit_keeps hP h he

end

/-! ### What a call does, by kind -/

def Call.waits : Call → Bool
  | .wait4 _ _ _ => true
  | _ => false

structure Rests (p q : Pcb) : Prop where
  core : q.core = p.core
  view : q.sigView = p.sigView
  state : q.state = .sleeping ∨ q.state = .ready

inductive CallRun (k k' : Kernel) : Call → Prop
  | quiet {c : Call} : c.waits = false → QuietAll False k k' → CallRun k k' c
  | sends {c : Call} : c.waits = false → Sends (fun _ => True) k k' → CallRun k k' c
  | rests {c : Call} {g : Pcb → Pcb} : c.waits = false → modifyCurrent g k = (some (), k') →
    (∀ p, Rests p (g p)) → CallRun k k' c
  | fork {env : ForkEnv} {r : ℤ} : procForkCurrent env k = (some r, k') → CallRun k k' (.fork env)
  | exit {status : ℤ} {gone : Bool} : procExitCurrent status k = (some gone, k') →
    CallRun k k' (.exit status)
  | wait4 {pid : ℤ} {options : BitVec 32} {r : WaitResult} (ustatus : Option Bool) :
    wait4Pass pid options k = (some r, k') → CallRun k k' (.wait4 pid options ustatus)
  | sigreturn {frame : Option Sigframe} {r : Option ℤ} : sysSigreturn frame k = (some r, k') →
    CallRun k k' (.sigreturn frame)

theorem call_run (he : call c k = (some (), k')) : CallRun k k' c := by
  have hwithin : ∀ {c : Call} {α : Type} {x : Kern Kernel α}, c.waits = false →
      Within (QuietAll False) (fun _ => True) x → (do let _ ← x) k = (some (), k') →
      CallRun k k' c := by
    intro c α x hc hx he
    obtain ⟨a, hxk⟩ := discard_eq_some he
    exact .quiet hc (hx k a k' (fun _ _ => trivial) hxk)
  have hquiet : ∀ {c : Call} {α : Type} {x : Kern Kernel α}, c.waits = false →
      Kern.Rel (QuietAll False) x → (do let _ ← x) k = (some (), k') → CallRun k k' c :=
    fun hc hx => hwithin hc fun k a k' _ => hx k a k'
  have hfield : ∀ {c : Call} {g : Pcb → Pcb}, c.waits = false →
      modifyCurrent g k = (some (), k') → (∀ p, Quiet False p (g p)) → CallRun k k' c :=
    fun hc he hg => .quiet hc (modifyCurrent_quiet hg k () k' he)
  cases c with
  | openFile res flags => exact hwithin rfl (doOpen_within quiet_fds _ _) he
  | close fd => exact hwithin rfl (sysClose_within quiet_fds _) he
  | dup fd => exact hwithin rfl (sysDup_within quiet_fds _) he
  | dup2 oldfd newfd => exact hwithin rfl (sysDup2_within quiet_fds _ _) he
  | setfd fd arg => exact hwithin rfl (sysFcntlSetfd_within quiet_fds _ _) he
  | pipe fds => exact hwithin rfl (sysPipe_within quiet_fds _) he
  | fork env =>
    obtain ⟨r, hrun⟩ := discard_eq_some he
    exact .fork hrun
  | exec image => exact hwithin rfl (doExec_within quiet_fds _) he
  | exit status =>
    obtain ⟨gone, hrun⟩ := discard_eq_some he
    exact .exit hrun
  | wait4 pid options ustatus =>
    obtain ⟨r, hrun⟩ := discard_eq_some he
    exact .wait4 ustatus hrun
  | kill pid sig =>
    obtain ⟨r, hrun⟩ := discard_eq_some he
    exact .sends rfl (sysKill_sends pid sig k r k' hrun)
  | sigaction sig act oldOk => exact hquiet rfl (quiet_of_sets (sysSigaction_sets _ _ _)) he
  | sigprocmask how set oldOk => exact hquiet rfl (quiet_of_sets (sysSigprocmask_sets _ _ _)) he
  | sigsuspend mask => exact hquiet rfl (sysSigsuspend_quiet _) he
  | sigreturn frame =>
    obtain ⟨r, hrun⟩ := discard_eq_some he
    exact .sigreturn hrun
  | sigaltstack ss ossOk => exact hquiet rfl (quiet_of_sets (sysSigaltstack_sets _ _)) he
  | setpgid pid pgid => exact hquiet rfl (sysSetpgid_quiet _ _) he
  | setsid => exact hquiet rfl sysSetsid_quiet he
  | raiseGroup pgid sig =>
    cases he
    exact .sends rfl (sendEach_sends k trivial _ fun _ _ => trivial)
  | setNofile lim | setNproc lim
  | alarm deadline => exact hfield rfl he fun _ => .of_sig rfl rfl rfl id ⟨rfl, rfl⟩
  | sleep wakeTick chan => exact .rests rfl he fun _ => ⟨rfl, rfl, .inl rfl⟩
  | yield => exact .rests rfl he fun _ => ⟨rfl, rfl, .inr rfl⟩

section

variable (hP : Local P)

include hP

theorem TableAll.sends {S : ℕ → Prop} (h : TableAll P k) (hs : Sends S k k') : TableAll P k' where
  toTable := h.toTable.sends hs
  all q hq := by
    obtain ⟨p, hp, hpq⟩ := hs.mem hq
    exact hP.sent hpq (h.all p hp)

/-! ### The calls -/

omit hP in
theorem pickPid_free {n : ℕ} {c d : ℤ} (h : pickPid k n c = some d) : pidTaken k d = false := by
  induction n generalizing c with
  | zero => cases h
  | succ n ih =>
    rw [pickPid] at h
    generalize (if c ≤ 0 then 1 else c) = c' at h
    split at h
    · exact ih h
    · next hfree =>
      cases h
      simpa using hfree

omit hP in
theorem allocPid_fresh {generation : ℕ} {k₀ : Kernel} (ht : Table k)
    (h : allocPid k = (some (pid, generation), k₀)) : ∀ p ∈ k.procs, p.pid ≠ pid := by
  unfold allocPid at h
  split at h
  · cases h
  next c hc =>
  cases h
  intro p hp he
  have hfree := pickPid_free hc
  simp only [pidTaken, any_eq_false] at hfree
  exact hfree p hp (by simp [ht.used p hp, he])

theorem fork_keeps {env : ForkEnv} {r : ℤ} (h : TableAll P k)
    (he : procForkCurrent env k = (some r, k')) : TableAll P k' := by
  cases procForkCurrent_run he with
  | refused _ => exact h
  | failed halloc => exact h.of_procs (allocPid_procs halloc)
  | unwound _ halloc hdup hclose =>
    have hwakes := (dupFds_rel wakes_files _ _ _ _ hdup).trans
      (closeOrphan_rel wakes_files _ _ _ _ hclose)
    exact TableAll.quiet hP.toLocalQuiet (h.of_procs (allocPid_procs halloc)) hwakes.quiet
  | @forked parent _ generation k₀ k₁ hparent halloc hdup =>
    have hq := (dupFds_rel wakes_files _ _ _ _ hdup).quiet
    have h1 : TableAll P k₁ :=
      TableAll.quiet hP.toLocalQuiet (h.of_procs (allocPid_procs halloc)) hq
    refine h1.append rfl ?_ nofun (hP.fork r generation (h.all parent (currentProc_mem hparent).1))
    intro p hp
    obtain ⟨p₀, hp₀, hs⟩ := hq.mem hp
    rw [hs.pid]
    exact allocPid_fresh h.toTable halloc p₀ (allocPid_procs halloc ▸ hp₀)

theorem destroy_keeps {p : Pcb} (h : TableAll P k)
    (he : procDestroy p k = (some u, k')) : TableAll P k' := by
  have hclose := procDestroy_run he
  exact TableAll.quiet hP.toLocalQuiet (h.filter _ rfl)
    (closeOrphan_rel wakes_files _ _ _ _ hclose).quiet

theorem wait4_keeps (h : TableAll P k)
    (he : wait4Pass pid options k = (some r, k')) : TableAll P k' := by
  cases wait4Pass_run he with
  | failed _ => exact h
  | slept _ _ => exact h.modify_view hP.toLocalQuiet (fun _ => rfl) (fun _ _ => nofun) fun _ => rfl
  | stopReported _
  | continueReported _ =>
    exact h.modify_view hP.toLocalQuiet (fun _ => rfl) (fun _ => id) fun _ => rfl
  | reaped _ _ _ hdestroy =>
    refine destroy_keeps hP ?_ hdestroy
    exact h.modify_view hP.toLocalQuiet (fun _ => rfl) (fun _ => id) fun _ => rfl

theorem call_keeps (h : TableAll P k) (hr : Running k)
    (he : call c k = (some (), k')) : TableAll P k' := by
  cases call_run he with
  | quiet _ hq => exact TableAll.quiet hP.toLocalQuiet h hq
  | sends _ hs => exact TableAll.sends hP h hs
  | rests _ he hg =>
    rcases modifyCurrent_run he with rfl | ⟨pid, -, rfl⟩
    · exact h
    · refine h.modify_view hP.toLocalQuiet (fun p => congrArg SigView.pid (hg p).view)
        (fun p _ hu => ?_)
        fun p => (hg p).view
      rcases (hg p).state with hs | hs <;> cases hs.symm.trans hu
  | fork hrun => exact fork_keeps hP h hrun
  | exit hrun => exact exit_keeps hP.toLocalQuiet h hrun
  | wait4 _ hrun => exact wait4_keeps hP h hrun
  | sigreturn hrun => exact sysSigreturn_keeps (tableAll_robust hP.toLocalQuiet) h hr hrun

end

/-! ### Interrupts and the scheduler -/

theorem timerScan_quiet (k : Kernel) : QuietAll D k (timerScan k) := by
  unfold timerScan
  generalize k.procs.map Pcb.pid = pids
  induction pids generalizing k with
  | nil => exact QuietAll.refl k
  | cons pid pids ih =>
    refine QuietAll.trans ?_ (ih _)
    have hwake : QuietAll D k (k.modify pid fun p =>
        if p.state = .sleeping ∧ p.wakeTick ≠ 0 ∧
          p.wakeTick ≤ k.ticks then p.makeReady else p) := by
      refine QuietAll.modify fun p => ?_
      split
      · next h => exact (Sent.toReady (S := NotKill) _ _ (.inl h.1)).quiet
      · exact Quiet.refl p
    dsimp only
    split
    · refine hwake.trans (QuietAll.trans (QuietAll.modify fun p => ?_)
        (QuietAll.of_sends (sendSignal_sends _ (by decide) _ (by decide))))
      exact Quiet.of_sig rfl rfl rfl id ⟨rfl, rfl⟩
    · exact hwake

theorem tty_quiet (k : Kernel) {sig : ℕ} (h : sig = 2 ∨ sig = 3 ∨ sig = SIGTSTP) :
    QuietAll D k (sendSignalPgrp k k.termFgPgid sig) := by
  refine QuietAll.of_sends (sendEach_sends k (by decide) _ ?_)
  intro s hs
  rw [mem_singleton.mp hs]
  rcases h with rfl | rfl | rfl <;> decide

theorem trapReturn_run (he : trapReturn path copied k = (some (), k')) : ∃ f k₁ f' k₂,
      trapCheck path copied k = (some f, k₁) ∧ userCheck path.check f k₁ = (some f', k₂) ∧
      settle path.check f' k₂ = (some (), k') := by
  obtain ⟨f, k₁, h1, he⟩ := bind_eq_some.mp he
  obtain ⟨f', k₂, h2, h3⟩ := bind_eq_some.mp he
  exact ⟨f, k₁, f', k₂, h1, h2, h3⟩

theorem currentProc_of_current (hr : Running k) : ∃ pid, k.current = some pid := by
  obtain ⟨p, hp, _⟩ := hr
  exact ⟨p.pid, (currentProc_mem hp).2⟩

/-- The checks of the return path keep what is robust, and the process runs on
if they return. -/
theorem trapChecks_lead (hG : Robust Good)
    {k₁ k₂ : Kernel} {f f' : Flow} (hk : Good k) (hr : Running k)
    (hc : k.current = some pid) (h1 : trapCheck path copied k = (some f, k₁))
    (h2 : userCheck path.check f k₁ = (some f', k₂)) :
    Good k₂ ∧ (f' = .back → Running k₂ ∧ k₂.current = some pid) := by
  obtain ⟨hk₁, hback⟩ := trapCheck_leads hG path copied k f k₁ hk hr hc h1
  by_cases hf : f = .back
  · obtain ⟨hr₁, hc₁⟩ := hback hf
    exact userCheck_leads hG path.check f k₁ f' k₂ hk₁ hr₁ hc₁ h2
  · unfold userCheck at h2
    rw [if_neg fun h => hf h.1] at h2
    cases h2
    exact ⟨hk₁, fun h => absurd h hf⟩

/-! ### What a step does, by kind -/

section

/-- `q` is `p` with its registers, its times and the place where it continues set. -/
def Continues (p q : Pcb) : Prop :=
  ∃ r tf u s, q = { p with resume := r, tf := tf, utimeTicks := u, stimeTicks := s }

/-- A robust property that looks neither at where a process continues nor at its
times. -/
structure Sturdy (Good : Kernel → Prop) : Prop extends Robust Good where
  continues : ∀ {k pid g}, (∀ p, Continues p (g p)) → Good k → Good (k.modify pid g)

section

variable (hG : Sturdy Good)

include hG

theorem Sturdy.modifyCurrent (hg : ∀ p, Continues p (g p)) (hk : Good k)
    (he : modifyCurrent g k = (some (), k')) : Good k' := by
  rcases modifyCurrent_run he with rfl | ⟨pid, -, rfl⟩
  · exact hk
  · exact hG.continues hg hk

theorem Sturdy.settle {check : Bool} {f : Flow} (hk : Good k)
    (he : settle check f k = (some (), k')) : Good k' := by
  cases f with
  | gone =>
    cases he
    exact hk
  | back | stopped => exact hG.modifyCurrent (fun _ => ⟨_, _, _, _, rfl⟩) hk he

theorem Sturdy.resumeRun {r : Resume} (hk : Good k) (hr : Running k)
    (he : resumeRun r k = (some (), k')) : Good k' := by
  cases r with
  | forkret | forkChildReturn => exact hG.modifyCurrent (fun _ => ⟨_, _, _, _, rfl⟩) hk he
  | trap | user =>
    cases he
    exact hk
  | stop check =>
    obtain ⟨pid, hc⟩ := currentProc_of_current hr
    obtain ⟨f, k₁, h1, h2⟩ := bind_eq_some.mp he
    exact hG.settle (userCheck_leads hG.toRobust check .back k f k₁ hk hr hc h1).1 h2

theorem Sturdy.trapReturn (hk : Good k) (hr : Running k)
    (he : trapReturn path copied k = (some (), k')) : Good k' := by
  obtain ⟨f, k₁, f', k₂, h1, h2, h3⟩ := trapReturn_run he
  obtain ⟨pid, hc⟩ := currentProc_of_current hr
  exact hG.settle (trapChecks_lead hG.toRobust hk hr hc h1 h2).1 h3

end

theorem timerHandler_run (he : timerHandler fromUser k = (some (), k')) :
    ∃ k₁, modifyCurrent (Pcb.billed fromUser) { k with ticks := k.ticks + 1 } = (some (), k₁) ∧
      k' = timerScan k₁ := by
  unfold timerHandler at he
  rw [modify_bind] at he
  obtain ⟨⟨⟩, k₁, hbill, he⟩ := bind_eq_some.mp he
  exact ⟨k₁, hbill, (modify_eq_some.mp he).symm⟩

theorem billed_continues (fromUser : Bool) (p : Pcb) : Continues p (p.billed fromUser) := by
  unfold Pcb.billed
  split_ifs <;> exact ⟨_, _, _, _, rfl⟩

theorem ticks_quiet (n : ℕ) : QuietAll D k { k with ticks := n } :=
  ⟨rfl, rfl, rfl, rfl, fun _ => ⟨rfl, rfl⟩, forall₂_same.mpr fun p _ => Quiet.refl p⟩

theorem Sturdy.timerHandler (hG : Sturdy Good) (hk : Good k)
    (he : timerHandler fromUser k = (some (), k')) : Good k' := by
  obtain ⟨k₁, hbill, rfl⟩ := timerHandler_run he
  refine hG.quiet (timerScan_quiet k₁) ?_
  exact hG.modifyCurrent (billed_continues fromUser) (hG.quiet (ticks_quiet _) hk) hbill

/-- The scheduler's choice, before it switches to the process. -/
def runNext (k : Kernel) (pid : ℤ) : Kernel :=
  { k.modify pid fun q => { q with state := .running } with current := some pid }

theorem dispatch_run (hen : enabled k (.dispatch pid))
    (he : dispatch pid k = (some (), k')) : ∃ p, k.find pid = some p ∧ p.state = .ready ∧
      resumeRun p.resume (runNext k pid) = (some (), k') := by
  obtain ⟨-, p, hp, hs⟩ := hen
  unfold dispatch at he
  rw [get_bind] at he
  simp only [hp] at he
  rw [modify_bind] at he
  exact ⟨p, hp, hs, he⟩

theorem modify_find {p : Pcb} (hg : ∀ p, (g p).pid = p.pid)
    (hp : k.find pid = some p) : (k.modify pid g).find pid = some (g p) := by
  unfold Kernel.find Kernel.modify at *
  dsimp only
  generalize k.procs = l at hp
  induction l with
  | nil => simp at hp
  | cons a l ih =>
    rw [find?_cons] at hp
    rw [map_cons, find?_cons]
    by_cases ha : a.pid = pid
    · simp only [ha, decide_true, Option.some.injEq] at hp
      subst hp
      have hga : (g a).pid = pid := (hg a).trans ha
      simp only [ha, if_true, hga, decide_true]
    · simp only [ha, decide_false] at hp
      simp only [ha, if_false, decide_false]
      exact ih hp

theorem runNext_running {p : Pcb} (hp : k.find pid = some p) : Running (runNext k pid) :=
  ⟨{ p with state := .running }, modify_find (fun _ => rfl) hp, rfl⟩

theorem reapOrphan_run {z : Pcb} (hz : k.currentProc = some z) (he : reapOrphan k = (some (), k')) :
    procDestroy z { k with current := none } = (some (), k') := by
  unfold reapOrphan at he
  rw [get_bind] at he
  simp only [hz] at he
  rwa [modify_bind] at he

def Label.passing : Label → Bool
  | .call _ | .dispatch _ | .reapOrphan => false
  | _ => true

/-- The kinds of steps. -/
inductive StepRun (k k' : Kernel) : Label → Prop
  | call {c : Call} : Running k → call c k = (some (), k') → StepRun k k' (.call c)
  | dispatch {pid : ℤ} {p : Pcb} : k.find pid = some p → p.state = .ready →
    (∀ {Good}, Sturdy Good → Good (runNext k pid) → Good k') → StepRun k k' (.dispatch pid)
  | reapOrphan {z : Pcb} : k.currentProc = some z → z.state = .zombie → z.parentPid = 0 →
    Proc.reapOrphan k = (some (), k') → StepRun k k' .reapOrphan
  | passing {l : Label} : l.passing = true → (∀ {Good}, Sturdy Good → Good k → Good k') →
    StepRun k k' l

theorem step_run (hstep : Step k l k') : StepRun k k' l := by
  obtain ⟨hen, he⟩ := hstep
  cases l with
  | call c => exact .call (runsAt.running hen) he
  | enter tf => exact .passing rfl fun hG hk => hG.modifyCurrent (fun _ => ⟨_, _, _, _, rfl⟩) hk he
  | ret path copied => exact .passing rfl fun hG hk => hG.trapReturn hk (runsAt.running hen) he
  | dispatch pid =>
    obtain ⟨p, hp, hready, hrun⟩ := dispatch_run hen he
    exact .dispatch hp hready fun hG hk => hG.resumeRun hk (runNext_running hp) hrun
  | reapOrphan =>
    obtain ⟨z, hz, hzombie, hparent⟩ := hen
    exact .reapOrphan hz hzombie hparent he
  | tick fromUser => exact .passing rfl fun hG hk => hG.timerHandler hk he
  | tty sig =>
    cases he
    exact .passing rfl fun hG hk => hG.quiet (tty_quiet k hen) hk
  | wake pid =>
    cases he
    exact .passing rfl fun hG hk => hG.quiet (QuietAll.of_sends (procWakeup_sends k pid)) hk
  | wakeChan chan =>
    cases he
    exact .passing rfl fun hG hk => hG.quiet (QuietAll.of_sends (procWakeupChan_sends k chan)) hk

variable (hP : Local P) (hres : ∀ p r, P p → P { p with resume := r })

include hP hres

theorem tableAll_sturdy : Sturdy (TableAll P) where
  toRobust := tableAll_robust hP.toLocalQuiet
  continues {k pid g} hg h := by
    refine h.modify (fun p => ?_) (fun p hu => ?_) fun p hp => ?_ <;>
      obtain ⟨r, tf, u, s, hq⟩ := hg p <;> rw [hq]
    · exact hu
    · exact hP.view (p := { p with resume := r }) rfl (hres p r hp)

/-- Every step keeps the table, and `P` if it does not look at where a process
continues. -/
theorem step_keeps (h : TableAll P k) (hstep : Step k l k') : TableAll P k' := by
  cases step_run hstep with
  | call hr he => exact call_keeps hP h hr he
  | @dispatch pid _ _ _ hrun =>
    have h1 : TableAll P (k.modify pid fun q => { q with state := .running }) :=
      h.modify_view hP.toLocalQuiet (fun _ => rfl) (fun _ _ => nofun) fun _ => rfl
    exact hrun (tableAll_sturdy hP hres) (h1.of_procs rfl)
  | reapOrphan hz _ _ he =>
    refine destroy_keeps hP ?_ (reapOrphan_run hz he)
    exact h.of_procs rfl
  | passing _ hrun => exact hrun (tableAll_sturdy hP hres) h

end

end Sbunix.Proc
