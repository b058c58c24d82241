import Sbunix.Proc.Atoms

/-!
# Steps as moves

Which signals a step sends, and to whom, can be read off its label and the
state before it. Every step is a sequence of the moves that its label allows.
-/

namespace Sbunix.Proc

open List Lib.Kern Lib

/-- The processes that `sys_kill` selects. -/
def killTarget (k : Kernel) (pid : ℤ) (t : Pcb) : Prop :=
  if 0 < pid then t.pid = pid
  else if pid = -1 then t.state ≠ .zombie ∧ some t.pid ≠ k.current ∧ t.pid ≠ 1 ∧ t.isUser = true
  else if pid = 0 then k.currentProc.map Pcb.pgid = some t.pgid
  else t.pgid = -pid

/-- The exit of the process `pid` hangs up the session of `t`. -/
def hangsUp (k : Kernel) (pid : ℤ) (t : Pcb) : Prop :=
  ∃ p ∈ k.procs, p.pid = pid ∧ p.pid = p.sid ∧ k.termSession = p.sid ∧ t.pid ≠ p.pid ∧ t.sid = p.sid

/-- The signals other than `SIGCHLD` that a step sends to the process `t`. -/
def sendsTo (k : Kernel) (t : Pcb) (sig : ℕ) : Label → Prop
  | .call (.kill pid s) => 0 < s ∧ s < NSIG ∧ sig = s.toNat ∧ killTarget k pid t
  | .call (.raiseGroup pgid s) => sig = s ∧ t.pgid = pgid
  | .call (.exit _) =>
    (sig = SIGHUP ∨ sig = SIGCONT) ∧ ∃ pid, k.current = some pid ∧ hangsUp k pid t
  | .call (.sigreturn _) =>
    (sig = SIGHUP ∨ sig = SIGCONT) ∧ ∃ pid, k.current = some pid ∧ hangsUp k pid t
  | .ret path _ =>
    sig = SIGSEGV ∧ (match path with
      | .fault => True
      | _ => False) ∧ k.current = some t.pid ∨
    (sig = SIGHUP ∨ sig = SIGCONT) ∧ ∃ pid, k.current = some pid ∧ hangsUp k pid t
  | .dispatch pid => (sig = SIGHUP ∨ sig = SIGCONT) ∧ hangsUp k pid t
  | .tick _ => sig = SIGALRM ∧ t.alarmTick ≠ 0 ∧ t.alarmTick ≤ k.ticks + 1 ∧ t.state ≠ .zombie
  | .tty s => sig = s ∧ t.pgid = k.termFgPgid
  | _ => False

def sends (k : Kernel) (l : Label) (pid : ℤ) (sig : ℕ) : Prop :=
  ∃ t ∈ k.procs, t.pid = pid ∧ sendsTo k t sig l

/-- The process on whose behalf a step is made. -/
def actor (k : Kernel) (l : Label) (pid : ℤ) : Prop :=
  match l with
  | .call _ => k.current = some pid
  | .enter _ => k.current = some pid
  | .ret _ _ => k.current = some pid
  | .dispatch pid' => pid = pid'
  | _ => False

def Call.exits : Call → Prop
  | .exit _ => True
  | .sigreturn _ => True
  | _ => False

def Label.exits : Label → Prop
  | .call c => c.exits
  | .ret _ _ => True
  | .dispatch _ => True
  | _ => False

/-- Only the signal check of the return path stops a process. -/
def Label.stops : Label → Prop
  | .ret _ _ => True
  | _ => False

/-- Only `sigsuspend` starts a `sigsuspend`. -/
def Call.suspends : Call → Prop
  | .sigsuspend _ => True
  | _ => False

def Label.suspends : Label → Prop
  | .call c => c.suspends
  | _ => False

/-- The calls that fork, or move a process to another group. -/
def Call.regroups : Call → Prop
  | .fork _ => True
  | .setpgid _ _ => True
  | .setsid => True
  | _ => False

def Label.regroups : Label → Prop
  | .call c => c.regroups
  | _ => False

def powers (k : Kernel) (l : Label) : Powers :=
  ⟨sends k l, actor k l, l.stops, l.exits, l.suspends, l.regroups⟩

variable {pgid pid : ℤ} {p : Pcb} {k₁ : Kernel} {W : Powers} {k k' : Kernel}

theorem sendSignalTo_eq (ht : Table k) {t : Pcb} (hmem : t ∈ k.procs) (sig : ℕ) :
    sendSignalTo k t sig = sendSignal k t.pid sig := by
  unfold sendSignal
  rw [ht.find_eq hmem]

theorem sendSignalPgrp_does {sig : ℕ} (hA : ∀ t ∈ k.procs, t.pgid = pgid → W.sends t.pid sig) :
    Does W k (sendSignalPgrp k pgid sig) := by
  refine sendEach_does k (fun t ht hw s hs => ?_) fun q r hs hw => ?_
  · simp only [decide_eq_true_eq] at hw
    exact mem_singleton.mp hs ▸ hA t ht hw.2
  · simp only [decide_eq_true_eq] at hw ⊢
    have hpgid : r.pgid = q.pgid := by
      rw [hs.frame]
    have hwoken : Woken q.state r.state := hs.state
    exact ⟨fun he => hw.1 (hwoken.unused.mpr he), hpgid ▸ hw.2⟩

variable {r : ℤ} {g : Pcb → Pcb} {l : Label}

theorem sysKill_does (ht : Table k) {sig : ℤ} (he : sysKill pid sig k = (some r, k'))
    (hA : ∀ t ∈ k.procs, 0 < sig → sig < NSIG → killTarget k pid t → W.sends t.pid sig.toNat) :
    Does W k k' := by
  unfold sysKill at he
  dsimp only at he
  split at he
  · cases he
    exact .refl k
  next hrange =>
  have hpos : sig ≠ 0 → 0 < sig ∧ sig < NSIG := by omega
  split at he
  · next hpid =>
    split at he <;> cases he
    · exact .refl k
    next t hfind =>
    split
    · next h0 =>
      obtain ⟨hmem, htpid⟩ := Kernel.find_mem hfind
      rw [sendSignalTo_eq ht hmem]
      refine .one (.send k t.pid _ (hA t hmem (hpos h0).1 (hpos h0).2 ?_))
      rw [killTarget, if_pos hpid]
      exact htpid
    · exact .refl k
  next hpid =>
  split at he
  · next hall =>
    cases he
    split
    · next h0 =>
      refine sendEach_does k (fun t htm hw s hs => ?_) fun q r hs hw => ?_
      · rw [mem_singleton.mp hs]
        refine hA t htm (hpos h0).1 (hpos h0).2 ?_
        rw [killTarget, if_neg hpid, if_pos hall]
        simp only [Bool.and_eq_true, decide_eq_true_eq] at hw
        exact ⟨hw.1.2.1, hw.1.2.2.1, hw.1.2.2.2, hw.2⟩
      · simp only [Bool.and_eq_true, decide_eq_true_eq] at hw ⊢
        have huser : r.isUser = q.isUser := by
          rw [hs.frame]
        have hwoken : Woken q.state r.state := hs.state
        rw [hs.pid, huser] at hw
        exact ⟨⟨fun he => hw.1.1 (hwoken.unused.mpr he), fun he => hw.1.2.1 (hwoken.zombie.mpr he),
          hw.1.2.2⟩, hw.2⟩
    · exact .refl k
  next hall =>
  split at he <;> cases he
  · exact .refl k
  next pgid hpgid =>
  split
  · next h0 =>
    refine sendSignalPgrp_does fun t htm hg => hA t htm (hpos h0).1 (hpos h0).2 ?_
    rw [killTarget, if_neg hpid, if_neg hall, hg]
    split at hpgid
    · next hz => rwa [if_pos hz]
    · next hz =>
      rw [if_neg hz]
      exact (Option.some.inj hpgid).symm
  · exact .refl k

theorem allocPid_does {r : ℤ × ℕ} {k₀ : Kernel} (h : allocPid k = (some r, k₀)) : Does W k k₀ := by
  unfold allocPid at h
  split at h <;> cases h
  exact .one (.globals rfl rfl rfl (.inl rfl) le_rfl)

def SameProcs (k k' : Kernel) : Prop := k'.procs = k.procs

instance : Std.Refl SameProcs := ⟨fun _ => rfl⟩

instance : IsTrans Kernel SameProcs := ⟨fun _ _ _ h h' => h'.trans h⟩

theorem dupFds_procs (ofile : ℕ → Option ℕ) : Kern.Rel SameProcs (dupFds ofile) := by
  refine Kern.Rel.loop (fun fd => ?_) 0 NOFILE
  split
  · exact Kern.Rel.pure ()
  · intro k a k' he
    unfold filedup at he
    split at he <;> cases he
    exact rfl

theorem fork_moves (ht : Table k) (hr : W.regroups) {env : ForkEnv}
    (he : procForkCurrent env k = (some r, k')) : Moves W k k' := by
  cases procForkCurrent_run he with
  | refused _ => exact (Does.refl k).moves
  | failed halloc => exact (allocPid_does halloc).moves
  | unwound _ halloc hdup hclose =>
    exact (((allocPid_does halloc).trans (dupFds_rel does_fds.toFileEffects _ _ _ _ hdup)).trans
      (closeOrphan_rel does_fds.toFileEffects _ _ _ _ hclose)).moves
  | @forked parent _ generation k₀ k₁ hparent halloc hdup =>
    have hd : Does W k k₁ :=
      (allocPid_does halloc).trans (dupFds_rel does_fds.toFileEffects _ _ _ _ hdup)
    have hprocs : k₁.procs = k.procs := (dupFds_procs _ _ _ _ hdup).trans (allocPid_procs halloc)
    refine hd.moves.trans (.one (.fork k₁ parent r generation ?_ ((allocPid_run halloc).1) ?_ hr))
    · exact hprocs ▸ (currentProc_mem hparent).1
    · exact hprocs ▸ allocPid_fresh ht halloc

theorem destroy_does {u : Unit} (hz : ∀ q ∈ k.procs, q.pid = p.pid → q.state = .zombie)
    (he : procDestroy p k = (some u, k')) : Does W k k' :=
  (Does.one (.destroy k p.pid hz)).trans
    (closeOrphan_rel does_fds.toFileEffects _ _ _ _ (procDestroy_run he))

theorem wait4_does (ht : Table k) (hc : Ctx W k)
    {options : BitVec 32} {r : WaitResult} (he : wait4Pass pid options k = (some r, k')) :
    Does W k k' := by
  cases wait4Pass_run he with
  | failed _ => exact .refl k
  | slept hme _ => exact .one (.sleep k _ _ (hc.actor _ (currentProc_mem hme).2) fun p => rfl)
  | stopReported _ => exact .one (.stopSeen k _)
  | continueReported _ => exact .one (.continueSeen k _)
  | @reaped me p _ hme hp hz hdestroy =>
    have habsorb : Does W k (k.modify me.pid (Pcb.absorb p)) := family_does fun q => rfl
    refine habsorb.trans (destroy_does ?_ hdestroy)
    intro q hq hpid
    obtain ⟨q₀, hq₀, rfl⟩ := Kernel.mem_modify.mp hq
    have hpid₀ : q₀.pid = p.pid := by
      split at hpid <;> exact hpid
    have hstate : q₀.state = .zombie := ht.eq_of_pid hq₀ hp.1 hpid₀ ▸ hz
    split <;> exact hstate

theorem job_moves (hr : W.regroups)
    (hg : ∀ p, g p = { p with pgid := (g p).pgid, sid := (g p).sid }) :
    Moves W k (k.modify pid g) :=
  .one (.job k pid g hg hr)

theorem sysSetpgid_moves (hr : W.regroups) (he : sysSetpgid pid pgid k = (some r, k')) :
    Moves W k k' := by
  unfold sysSetpgid at he
  dsimp only at he
  repeat' split at he
  all_goals
    cases he
    first
      | exact (Does.refl k).moves
      | exact job_moves hr fun p => rfl

theorem sysSetsid_moves (hr : W.regroups) (he : sysSetsid k = (some r, k')) : Moves W k k' := by
  unfold sysSetsid at he
  dsimp only at he
  split at he
  · cases he
    exact (Does.refl k).moves
  split at he
  · cases he
    exact (Does.refl k).moves
  next mine _ _ =>
  have hmine : Moves W k (k.modify mine.pid fun q => { q with sid := mine.pid, pgid :=
    mine.pid }) :=
    job_moves hr fun p => rfl
  cases he
  split
  · exact hmine.trans (.one (.atom (.globals rfl rfl rfl (.inr rfl) le_rfl)))
  · exact hmine

theorem call_moves (ht : Table k) {c : Call} (hc : Ctx W k) (hx : c.exits → W.exits)
    (hs : c.suspends → W.suspends) (hr : c.regroups → W.regroups)
    (hA : ∀ t ∈ k.procs, ∀ sig, sendsTo k t sig (.call c) → W.sends t.pid sig)
    (he : call c k = (some (), k')) : Moves W k k' := by
  have hacts : ∀ {α : Type} {x : Kern Kernel α}, Acts W x →
      (do let _ ← x) k = (some (), k') → Moves W k k' := by
    intro α x hx he
    obtain ⟨a, hxk⟩ := discard_eq_some he
    exact (hx k a k' hc hxk).moves
  have hown : ∀ {g : Pcb → Pcb}, (∀ p, Own p (g p)) → modifyCurrent g k = (some (), k') →
      Moves W k k' := fun hg he => (modifyCurrent_acts hg k () k' hc he).moves
  cases c with
  | openFile res flags => exact hacts (.within (doOpen_within does_fds _ _)) he
  | close fd => exact hacts (.within (sysClose_within does_fds _)) he
  | dup fd => exact hacts (.within (sysDup_within does_fds _)) he
  | dup2 oldfd newfd => exact hacts (.within (sysDup2_within does_fds _ _)) he
  | setfd fd arg => exact hacts (.within (sysFcntlSetfd_within does_fds _ _)) he
  | pipe fds => exact hacts (.within (sysPipe_within does_fds _)) he
  | fork env =>
    obtain ⟨r, hrun⟩ := discard_eq_some he
    exact fork_moves ht (hr trivial) hrun
  | exec image => exact hacts (.within (doExec_within does_fds _)) he
  | exit status => exact hacts (procExitCurrent_acts (hx trivial) _) he
  | wait4 pid options ustatus =>
    obtain ⟨r, hrun⟩ := discard_eq_some he
    exact (wait4_does ht hc hrun).moves
  | kill pid sig =>
    obtain ⟨r, hrun⟩ := discard_eq_some he
    refine (sysKill_does ht hrun fun t htm hpos hlt hk => ?_).moves
    exact hA t htm _ ⟨hpos, hlt, rfl, hk⟩
  | sigaction sig act oldOk => exact hacts (.sets (sysSigaction_sets _ _ _)) he
  | sigprocmask how set oldOk => exact hacts (.sets (sysSigprocmask_sets _ _ _)) he
  | sigsuspend mask => exact hacts (sysSigsuspend_acts (hs trivial) _) he
  | sigreturn frame => exact hacts (sysSigreturn_acts (hx trivial) _) he
  | sigaltstack ss ossOk => exact hacts (.sets (sysSigaltstack_sets _ _)) he
  | setpgid pid pgid =>
    obtain ⟨r, hrun⟩ := discard_eq_some he
    exact sysSetpgid_moves (hr trivial) hrun
  | setsid =>
    obtain ⟨r, hrun⟩ := discard_eq_some he
    exact sysSetsid_moves (hr trivial) hrun
  | raiseGroup pgid sig =>
    cases he
    exact (sendSignalPgrp_does fun t htm hg => hA t htm sig ⟨rfl, hg⟩).moves
  | setNofile lim | setNproc lim | alarm deadline => exact hown (fun p => .of_frame rfl) he
  | sleep wakeTick chan =>
    rcases modifyCurrent_run he with rfl | ⟨pid, hpid, rfl⟩
    · exact (Does.refl k').moves
    · exact .one (.atom (.sleep k pid _ (hc.actor pid hpid) fun p => rfl))
  | yield =>
    rcases modifyCurrent_run he with rfl | ⟨pid, hpid, rfl⟩
    · exact (Does.refl k').moves
    · exact .one (.atom (.yield k pid (hc.actor pid hpid)))

/-- The processes of the timer's loop: an alarm is as it was or has gone off. -/
structure Timed (k k₁ : Kernel) : Prop where
  ticks : k₁.ticks = k.ticks
  mem : ∀ q ∈ k₁.procs, ∃ p ∈ k.procs, p.pid = q.pid ∧
    (q.alarmTick ≠ 0 → p.alarmTick = q.alarmTick) ∧ (p.state = .zombie ↔ q.state = .zombie)

theorem Timed.modify (h : Timed k k₁)
    (hg : ∀ p, (g p).pid = p.pid ∧ ((g p).alarmTick ≠ 0 → (g p).alarmTick = p.alarmTick) ∧
      (p.state = .zombie ↔ (g p).state = .zombie)) : Timed k (k₁.modify pid g) where
  ticks := h.ticks
  mem q hq := by
    obtain ⟨q₁, hq₁, rfl⟩ := Kernel.mem_modify.mp hq
    obtain ⟨p, hp, h1, h2, h3⟩ := h.mem q₁ hq₁
    refine ⟨p, hp, ?_⟩
    split
    · obtain ⟨g1, g2, g3⟩ := hg q₁
      exact ⟨h1.trans g1.symm, fun h0 => by rw [h2 (g2 h0 ▸ h0), g2 h0], h3.trans g3⟩
    · exact ⟨h1, h2, h3⟩

theorem Timed.sends {k₂ : Kernel} {S : ℕ → Prop} (h : Timed k k₁) (hs : Sends S k₁ k₂) :
    Timed k k₂ where
  ticks := by
    rw [hs.frame]
    exact h.ticks
  mem q hq := by
    obtain ⟨q₁, hq₁, hpq⟩ := hs.mem hq
    obtain ⟨p, hp, h1, h2, h3⟩ := h.mem q₁ hq₁
    have halarm : q.alarmTick = q₁.alarmTick := by
      rw [hpq.frame]
    have hwoken : Woken q₁.state q.state := hpq.state
    exact ⟨p, hp, h1.trans hpq.pid.symm, fun h0 => by rw [halarm] at h0 ⊢; exact h2 h0,
      h3.trans hwoken.zombie.symm⟩

theorem timerScan_does (hA : ∀ t ∈ k.procs, t.alarmTick ≠ 0 → t.alarmTick ≤ k.ticks →
    t.state ≠ .zombie →
      W.sends t.pid SIGALRM) : Does W k (timerScan k) := by
  unfold timerScan
  have hloop : ∀ (pids : List ℤ) (k₁ : Kernel), Timed k k₁ → Does W k₁ (pids.foldl (fun k pid =>
      let k := k.modify pid fun p =>
        if p.state = .sleeping ∧ p.wakeTick ≠ 0 ∧ p.wakeTick ≤ k.ticks then p.makeReady else p
      if (k.find pid).any fun p =>
          p.alarmTick ≠ 0 ∧ p.alarmTick ≤ k.ticks ∧ p.state ≠ .unused ∧ p.state ≠ .zombie then
        sendSignal (k.modify pid fun p => { p with alarmTick := 0 }) pid SIGALRM
      else k) k₁) := by
    intro pids
    induction pids with
    | nil => exact fun k₁ _ => .refl k₁
    | cons pid pids ih =>
      intro k₁ hk₁
      rw [foldl_cons]
      dsimp only
      have hwake : Does W k₁ (k₁.modify pid fun p =>
          if p.state = .sleeping ∧ p.wakeTick ≠ 0 ∧
            p.wakeTick ≤ k₁.ticks then p.makeReady else p) := by
        refine rouse_does fun p => ?_
        split
        · next h => exact .inr ⟨h.1, rfl⟩
        · exact .refl p
      have hk₂ : Timed k (k₁.modify pid fun p =>
          if p.state = .sleeping ∧ p.wakeTick ≠ 0 ∧
            p.wakeTick ≤ k₁.ticks then p.makeReady else p) := by
        refine hk₁.modify fun p => ?_
        split
        · next h => simp [Pcb.makeReady, h.1]
        · exact ⟨rfl, fun _ => rfl, Iff.rfl⟩
      generalize (k₁.modify pid fun p =>
          if p.state = .sleeping ∧ p.wakeTick ≠ 0 ∧ p.wakeTick ≤ k₁.ticks then p.makeReady else p) =
            k₂
        at hwake hk₂ ⊢
      refine hwake.trans ?_
      split
      · next hany =>
        obtain ⟨q, hq, hw⟩ := (Option.any_eq_true _ _).mp hany
        obtain ⟨hmem, rfl⟩ := Kernel.find_mem hq
        simp only [decide_eq_true_eq] at hw
        obtain ⟨t, ht, h1, h2, h3⟩ := hk₂.mem q hmem
        have hsend : W.sends q.pid SIGALRM := by
          rw [← h1]
          refine hA t ht ?_ ?_ fun hz => hw.2.2.2 (h3.mp hz)
          · rw [h2 hw.1]
            exact hw.1
          · rw [h2 hw.1, ← hk₂.ticks]
            exact hw.2.1
        have hclear : Does W k₂ (k₂.modify q.pid fun p => { p with alarmTick := 0 }) :=
          family_does fun p => rfl
        refine (hclear.trans (.one (.send _ _ _ hsend))).trans (ih _ ?_)
        have hk₃ : Timed k (k₂.modify q.pid fun p => { p with alarmTick := 0 }) :=
          hk₂.modify fun p => ⟨rfl, fun h => absurd rfl h, Iff.rfl⟩
        exact hk₃.sends (S := NotKill) (sendSignal_sends _ (by decide) _ (by decide))
      · exact ih k₂ hk₂
  exact hloop _ k ⟨rfl, fun q hq => ⟨q, hq, rfl, fun _ => rfl, Iff.rfl⟩⟩

/-- Pids are positive, as `alloc_proc` makes them. -/
def Positive (k : Kernel) : Prop := ∀ p ∈ k.procs, 0 < p.pid

/-! ### The table along the moves -/

theorem Atom.table (ht : Table k) (h : Atom W k k') : Table k' := by
  cases h with
  | globals hprocs _ _ _ _ => exact ht.of_procs hprocs
  | pipeClose i w =>
    have hset : Table (k.setPipe i (if w then { k.pipes i with writeopen := false }
      else { k.pipes i with readopen := false })) := ht.of_procs rfl
    exact hset.sends (S := NotKill) (procWakeupChan_sends _ i)
  | pipeOpen i _ _ => exact ht.of_procs rfl
  | rouse g hg =>
    refine ht.modifyAll fun p => ?_
    rcases hg p with e | ⟨_, e⟩ <;> rw [e]
    · exact ⟨rfl, id⟩
    · exact ⟨rfl, fun _ => nofun⟩
  | family g hg =>
    refine ht.modifyAll fun p => ?_
    rw [hg p]
    exact ⟨rfl, id⟩
  | own pid g _ hg =>
    refine ht.modify fun p => ?_
    rw [(hg p).frame]
    exact ⟨rfl, id⟩
  | suspend pid mask _ _ | stopSeen pid | continueSeen pid => exact ht.modify fun p => ⟨rfl, id⟩
  | chld pid => exact ht.sends (S := NotKill) (sendChld_sends k (by decide) pid)
  | send pid sig _ => exact ht.sends (S := fun _ => True) (sendSignal_sends k trivial pid trivial)
  | stop pid sig _ _ | yield pid _ | die pid _ => exact ht.modify fun p => ⟨rfl, fun _ => nofun⟩
  | sleep pid g _ hg =>
    refine ht.modify fun p => ?_
    rw [hg p]
    exact ⟨rfl, fun _ => nofun⟩
  | destroy pid _ =>
    exact ⟨ht.nodup.sublist (filter_sublist.map _), fun p hp => ht.used p (mem_of_mem_filter hp)⟩

theorem Move.table (ht : Table k) (h : Move W k k') : Table k' := by
  cases h with
  | atom h => exact h.table ht
  | job pid g hg =>
    refine ht.modify fun p => ?_
    rw [hg p]
    exact ⟨rfl, id⟩
  | fork parent pid generation _ _ hfresh =>
    have h : TableAll (fun _ => True) k := ⟨ht, fun _ _ => trivial⟩
    exact (h.append (c := forkChild parent pid generation) rfl hfresh nofun trivial).toTable
  | dispatch pid _ _ _ =>
    have h : Table (k.modify pid fun q => { q with state := .running }) :=
      ht.modify fun p => ⟨rfl, fun _ => nofun⟩
    exact h.of_procs rfl
  | release => exact ht.of_procs rfl

theorem Moves.table (ht : Table k) (h : Moves W k k') : Table k' :=
  h.invariant ht fun _ _ h => Move.table h

theorem Moves.table_invariant {I : Kernel → Prop} (ht : Table k) (h : Moves W k k') (hk : I k)
    (hmove : ∀ k k', Table k → I k → Move W k k' → I k') : I k' :=
  (h.invariant (I := fun k => Table k ∧ I k) ⟨ht, hk⟩ fun k k' hi hm =>
    ⟨hm.table hi.1, hmove k k' hi.1 hi.2 hm⟩).2

theorem Move.positive (hpos : Positive k) (h : Move W k k') : Positive k' := by
  cases h with
  | atom h =>
    intro q hq
    obtain ⟨p, hp, hpid, -⟩ := h.steady.mem q hq
    exact hpid ▸ hpos p hp
  | job pid g hg =>
    intro q hq
    obtain ⟨p, hp, rfl⟩ := Kernel.mem_modify.mp hq
    split
    · rw [hg p]
      exact hpos p hp
    · exact hpos p hp
  | fork parent pid generation _ h0 _ =>
    intro q hq
    rcases mem_append.mp hq with hq | hq
    · exact hpos q hq
    · rw [mem_singleton.mp hq]
      exact h0
  | dispatch pid _ _ _ =>
    intro q hq
    obtain ⟨p, hp, rfl⟩ := Kernel.mem_modify.mp hq
    split <;> exact hpos p hp
  | release => exact hpos

theorem ctx_of_label (hpos : Positive k) (hme : ∀ pid, k.current = some pid → actor k l pid)
    (hA : l.exits → ∀ t ∈ k.procs, ∀ sig, sig = SIGHUP ∨ sig = SIGCONT →
      (∃ pid, k.current = some pid ∧ hangsUp k pid t) → sendsTo k t sig l) :
    Ctx (powers k l) k where
  actor := hme
  leader hx p hp hcur := by
    refine ⟨hpos p hp, fun hl ht t htm hne hts => ?_⟩
    have hhang : ∃ pid, k.current = some pid ∧ hangsUp k pid t :=
      ⟨p.pid, hcur, p, hp, rfl, hl, ht, hne, hts⟩
    exact ⟨⟨t, htm, rfl, hA hx t htm _ (.inl rfl) hhang⟩,
      ⟨t, htm, rfl, hA hx t htm _ (.inr rfl) hhang⟩⟩

theorem billed_keeps (fromUser : Bool) (p : Pcb) : (p.billed fromUser).pid = p.pid ∧
    (p.billed fromUser).alarmTick = p.alarmTick ∧ (p.billed fromUser).state = p.state := by
  unfold Pcb.billed
  split_ifs <;> exact ⟨rfl, rfl, rfl⟩

/-- Every step is made of moves: signals go where its label says, and a process
other than the acting one changes only by what others may do to it. -/
theorem step_moves (ht : Table k) (hpos : Positive k) (hstep : Step k l k') :
    Moves (powers k l) k k' := by
  obtain ⟨hen, he⟩ := hstep
  cases l with
  | call c =>
    refine call_moves ht (ctx_of_label hpos (fun _ h => h) fun hx t htm sig hsig hhang => ?_) id id
      id
      (fun t htm sig hs => ⟨t, htm, rfl, hs⟩) he
    cases c with
    | exit status | sigreturn frame => exact ⟨hsig, hhang⟩
    | _ => exact hx.elim
  | enter tf =>
    rcases modifyCurrent_run he with rfl | ⟨pid, hpid, rfl⟩
    · exact (Does.refl k').moves
    · exact (own_does (W := powers k (.enter tf)) hpid
        fun p => .of_frame rfl).moves
  | ret path copied =>
    have hc : Ctx (powers k (.ret path copied)) k :=
      ctx_of_label hpos (fun _ h => h) fun _ t htm sig hsig hhang => .inr ⟨hsig, hhang⟩
    refine (trapReturn_acts trivial trivial path copied ?_ k () k' hc he).moves
    rintro pid rfl hpid
    obtain ⟨p, hp, -, -⟩ := hen
    obtain ⟨hmem, hcur⟩ := currentProc_mem hp
    have hpp : p.pid = pid := Option.some.inj (hcur.symm.trans hpid)
    exact ⟨p, hmem, hpp, .inl ⟨rfl, trivial, hcur⟩⟩
  | dispatch pid =>
    obtain ⟨p, hp, hs, hrun⟩ := dispatch_run hen he
    have hmove : Move (powers k (.dispatch pid)) k (runNext k pid) :=
      .dispatch k pid rfl hen.1 ⟨p, hp, hs⟩
    refine (Moves.one hmove).trans (resumeRun_acts trivial p.resume _ () k' ?_ hrun).moves
    have hmem : ∀ q ∈ (runNext k pid).procs, ∃ q₀ ∈ k.procs, q₀.pid = q.pid ∧ q₀.sid = q.sid := by
      intro q hq
      obtain ⟨q₀, hq₀, rfl⟩ := Kernel.mem_modify.mp hq
      refine ⟨q₀, hq₀, ?_⟩
      split <;> exact ⟨rfl, rfl⟩
    refine ⟨fun pid' h => (Option.some.inj h).symm, fun _ q hq hcur => ?_⟩
    obtain ⟨q₀, hq₀, h1, h2⟩ := hmem q hq
    refine ⟨h1 ▸ hpos q₀ hq₀, fun hl hterm t htm hne hts => ?_⟩
    obtain ⟨t₀, ht₀, e1, e2⟩ := hmem t htm
    have hhang : hangsUp k pid t₀ := by
      refine ⟨q₀, hq₀, h1.trans (Option.some.inj hcur).symm, ?_, ?_, ?_, ?_⟩
      · rw [h1, h2, hl]
      · rw [h2]
        exact hterm
      · rw [e1, h1]
        exact hne
      · rw [e2, h2]
        exact hts
    exact ⟨⟨t₀, ht₀, e1, .inl rfl, hhang⟩, ⟨t₀, ht₀, e1, .inr rfl, hhang⟩⟩
  | reapOrphan =>
    obtain ⟨z, hz, hzombie, -⟩ := hen
    refine (Moves.one (.release k)).trans
      (destroy_does (fun q hq hpid => ?_) (reapOrphan_run hz he)).moves
    rw [ht.eq_current hz hq hpid]
    exact hzombie
  | tick fromUser =>
    obtain ⟨k₁, hbill, rfl⟩ := timerHandler_run he
    have hticks : Does (powers k (.tick fromUser)) k
        { k with ticks := k.ticks + 1 } :=
      .one (.globals rfl rfl rfl (.inl rfl) (Nat.le_succ _))
    refine (hticks.trans ?_).moves
    have hbilled : ∀ p, Family p (p.billed fromUser) := by
      intro p
      unfold Pcb.billed
      split_ifs <;> rfl
    rcases modifyCurrent_run hbill with rfl | ⟨pid, -, rfl⟩
    · exact timerScan_does fun t htm h1 h2 h3 => ⟨t, htm, rfl, rfl, h1, h2, h3⟩
    · refine (family_does hbilled).trans (timerScan_does fun t htm h1 h2 h3 => ?_)
      obtain ⟨t₀, ht₀, rfl⟩ := Kernel.mem_modify.mp htm
      refine ⟨t₀, ht₀, ?_⟩
      obtain ⟨e1, e2, e3⟩ := billed_keeps fromUser t₀
      split_ifs at h1 h2 h3 ⊢
      · rw [e2] at h1 h2
        rw [e3] at h3
        exact ⟨e1.symm, rfl, h1, h2, h3⟩
      · exact ⟨rfl, rfl, h1, h2, h3⟩
  | tty sig =>
    cases he
    exact (sendSignalPgrp_does (W := powers k (.tty sig)) fun t htm hg =>
      ⟨t, htm, rfl, rfl, hg⟩).moves
  | wake pid =>
    cases he
    exact (procWakeup_does k pid).moves
  | wakeChan chan =>
    cases he
    exact (procWakeupChan_does k chan).moves

structure Sound (k : Kernel) : Prop extends Table k where
  positive : Positive k

theorem Step.moves (hk : Sound k) (hstep : Step k l k') : Moves (powers k l) k k' :=
  step_moves hk.toTable hk.positive hstep

theorem Sound.moves {W : Powers} (hk : Sound k) (h : Moves W k k') : Sound k' :=
  ⟨h.table hk.toTable, h.invariant hk.positive fun _ _ => Move.positive⟩

theorem Sound.step (hk : Sound k) (hstep : Step k l k') : Sound k' :=
  hk.moves (hstep.moves hk)

theorem Sound.modify (hk : Sound k)
    (hg : ∀ p, (g p).pid = p.pid ∧ (p.state ≠ .unused → (g p).state ≠ .unused)) :
    Sound (k.modify pid g) := by
  refine ⟨hk.toTable.modify hg, fun q hq => ?_⟩
  obtain ⟨p, hp, rfl⟩ := Kernel.mem_modify.mp hq
  split
  · rw [(hg p).1]
    exact hk.positive p hp
  · exact hk.positive p hp

theorem Sound.boot (hpid : 0 < pid) (entry sp : BitVec 64) : Sound (bootKernel pid entry sp) where
  nodup := nodup_singleton _
  used p hp := by
    rw [mem_singleton.mp hp]
    exact nofun
  positive p hp := by
    rw [mem_singleton.mp hp]
    exact hpid

theorem actor_not_stopped (ht : Table k) (hen : enabled k l) (hp : p ∈ k.procs)
    (hs : p.state = .stopped) : ¬ actor k l p.pid := by
  have hruns : ∀ {r : Resume}, runsAt k r → k.current ≠ some p.pid := by
    rintro r ⟨c, hc, hrun, -⟩ hcur
    obtain ⟨-, hpid⟩ := currentProc_mem hc
    have hpc : p = c := ht.eq_current hc hp (Option.some.inj (hcur.symm.trans hpid))
    rw [← hpc, hs] at hrun
    cases hrun
  cases l with
  | call c | enter tf | ret path copied => exact hruns hen
  | dispatch pid =>
    rintro rfl
    obtain ⟨-, q, hq, hready⟩ := hen
    rw [ht.find_eq hp] at hq
    cases hq
    rw [hs] at hready
    cases hready
  | reapOrphan | tick fromUser | tty sig | wake pid | wakeChan chan => exact id

end Sbunix.Proc
