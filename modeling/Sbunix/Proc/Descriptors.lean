import Sbunix.Proc.FdSpec
import Sbunix.Proc.Unblockable

/-!
# Descriptor tables along a run

Between two steps of the machine the reference count of every open file is the
number of descriptor slots that point at it, and close-on-exec bits belong to
open descriptors. `fork` and `proc_destroy` move all slots of a process at
once; an exit and an `exec` close them one by one, with the bits of the process
itself out of step until its last store.
-/

namespace Sbunix.Proc

open List Lib.Kern Lib

variable {g : Pcb → Pcb} {r : ℤ} {b : ℕ → ℤ} {x : Option ℤ} {k k' : Kernel} {pid : ℤ} {p : Pcb}

/-! ### All slots of a process -/

variable {ofile : ℕ → Option ℕ} {i n : ℕ} {u : Unit}

theorem slotsLoop_fd {op : ℕ → Kern Kernel Unit} {s : ℤ}
    (hop : ∀ {b k k' f}, FdInv b x k → op f k = (some (), k') →
    FdInv (b + s • points (some f)) x k')
    (h : FdInv b x k)
    (he : Kern.loop (fun fd => match ofile fd with
      | none => pure ()
      | some f => op f) i n k = (some u, k')) :
    FdInv (b + s • fun f => (slotsAt ofile f i n : ℤ)) x k' := by
  induction n generalizing i b k with
  | zero =>
    cases he
    have hzero : (b + s • fun f => (slotsAt ofile f i 0 : ℤ)) = b := by
      funext f
      simp [slotsAt]
    rwa [hzero]
  | succ n ih =>
    obtain ⟨⟨⟩, k₁, h1, h2⟩ := bind_eq_some.mp he
    have hone : FdInv (b + s • points (ofile i)) x k₁ := by
      rcases ho : ofile i with _ | f
      · simp only [ho] at h1
        cases h1
        rwa [points_none, smul_zero, add_zero]
      · simp only [ho] at h1
        exact hop h h1
    have hsum : (b + s • fun f => (slotsAt ofile f i (n + 1) : ℤ)) =
        b + s • points (ofile i) + s • fun f => (slotsAt ofile f (i + 1) n : ℤ) := by
      funext f
      simp only [Pi.add_apply, Pi.smul_apply, slotsAt_succ, smul_eq_mul]
      ring
    rw [hsum]
    exact ih hone h2

theorem dupLoop_fd (h : FdInv b x k) (he : Kern.loop (fun fd => match ofile fd with
      | none => pure ()
      | some f => filedup f) i n k = (some u, k')) :
    FdInv (b + fun f => (slotsAt ofile f i n : ℤ)) x k' := by
  have := slotsLoop_fd (s := 1) (fun h he => by simpa using filedup_fd h he) h he
  rwa [one_smul] at this

theorem closeLoop_fd (h : FdInv b x k) (he : Kern.loop (fun fd => match ofile fd with
      | none => pure ()
      | some f => fileclose f) i n k = (some u, k')) :
    FdInv (b - fun f => (slotsAt ofile f i n : ℤ)) x k' := by
  have := slotsLoop_fd (s := -1) (fun h he => by simpa [sub_eq_add_neg] using fileclose_fd h he) h
    he
  rwa [neg_one_smul, ← sub_eq_add_neg] at this

theorem closeFd_fd {fd : ℕ} (h : FdInv b (some pid) k) (hlt : fd < NOFILE)
    (he : closeFd pid fd k = (some u, k')) : FdInv b (some pid) k' := by
  unfold closeFd at he
  rw [get_bind] at he
  rcases hopen : (k.find pid).bind (·.ofile fd) with _ | f
  · simp only [hopen] at he
    cases he
    exact h
  simp only [hopen] at he
  obtain ⟨p, hp, hf⟩ := Option.bind_eq_some_iff.mp hopen
  obtain ⟨⟨⟩, k₁, hclose, he⟩ := bind_eq_some.mp he
  obtain rfl := modify_eq_some.mp he
  obtain ⟨p₁, hp₁, hsame⟩ := (fileclose_rel wakes_files f k _ k₁ hclose).find hp
  have h2 := (fileclose_fd h hclose).setFd (v := none) (g := fun p => p.setFd fd none) hp₁ hlt
    (fun _ => rfl) (fun _ => id) rfl (.inl rfl)
  rw [hsame.ofile, hf] at h2
  simpa using h2

theorem closeFds_fd {sel : ℕ → Bool} (h : FdInv b (some pid) k)
    (he : closeFds pid sel k = (some u, k')) : FdInv b (some pid) k' := by
  have hloop : ∀ n i k, i + n ≤ NOFILE → FdInv b (some pid) k →
      Kern.loop (fun fd => if sel fd then closeFd pid fd else pure ()) i n k = (some u, k') →
      FdInv b (some pid) k' := by
    intro n
    induction n with
    | zero =>
      intro i k _ h he
      cases he
      exact h
    | succ n ih =>
      intro i k hi h he
      obtain ⟨⟨⟩, k₁, h1, h2⟩ := bind_eq_some.mp he
      refine ih (i + 1) k₁ (by omega) ?_ h2
      dsimp only at h1
      rw [Kern.ite_apply] at h1
      split at h1
      · exact closeFd_fd h (by omega) h1
      · cases h1
        exact h
  exact hloop NOFILE 0 k le_rfl h he

/-! ### Processes come and go -/

theorem FdInv.exempt (h : FdInv b none k) (x : Option ℤ) : FdInv b x k :=
  ⟨h.toTable, h.balance, h.free, fun p hp _ => h.cloexec p hp nofun⟩

theorem FdInv.unexempt (h : FdInv b (some pid) k) (hpid : ∀ q, (g q).pid = q.pid)
    (hofile : ∀ q, (g q).ofile = q.ofile) (hused : ∀ q, q.state ≠ .unused → (g q).state ≠ .unused)
    (hok : ∀ q, CloexecOk (g q)) : FdInv b none (k.modify pid g) := by
  refine ⟨h.toTable.modify fun q => ⟨hpid q, hused q⟩, fun f => ?_, h.free, ?_⟩
  · have hrefs : refs (k.modify pid g) f = refs k f := by
      unfold refs Kernel.modify
      rw [map_map]
      refine congrArg List.sum (map_congr_left fun q _ => ?_)
      simp only [Function.comp_apply, Pcb.slots]
      split
      · rw [hofile]
      · rfl
    rw [hrefs]
    exact h.balance f
  · intro q hq _
    obtain ⟨r, hr, rfl⟩ := Kernel.mem_modify.mp hq
    split
    · exact hok r
    · next hne => exact h.cloexec r hr fun he => hne (Option.some.inj he)

theorem FdInv.append {c : Pcb} (h : FdInv (b + fun f => (c.slots f : ℤ)) none k)
    (hprocs : k'.procs = k.procs ++ [c]) (hfiles : k'.ftable = k.ftable)
    (hfresh : ∀ p ∈ k.procs, p.pid ≠ c.pid) (hused : c.state ≠ .unused) (hc : CloexecOk c) :
    FdInv b none k' := by
  have htable : TableAll (fun _ => True) k := ⟨h.toTable, fun _ _ => trivial⟩
  refine ⟨(htable.append hprocs hfresh hused trivial).toTable, fun f => ?_, ?_, ?_⟩
  · have hrefs : refs k' f = refs k f + c.slots f := by
      simp [refs, hprocs]
    have := h.balance f
    rw [hfiles, hrefs, this, Pi.add_apply]
    push_cast
    ring
  · intro f
    rw [hfiles]
    exact h.free f
  · intro p hp hx
    rw [hprocs] at hp
    rcases mem_append.mp hp with hp | hp
    · exact h.cloexec p hp hx
    · exact mem_singleton.mp hp ▸ hc

theorem FdInv.remove (h : FdInv b none k) (hp : p ∈ k.procs)
    (hprocs : k'.procs = k.procs.filter (·.pid ≠ p.pid)) (hfiles : k'.ftable = k.ftable) :
    FdInv (b + fun f => (p.slots f : ℤ)) none k' := by
  have htable : TableAll (fun _ => True) k := ⟨h.toTable, fun _ _ => trivial⟩
  refine ⟨(htable.filter _ hprocs).toTable, fun f => ?_, ?_, ?_⟩
  · have hsum := sum_map_remove (Pcb.slots f) h.nodup hp
    have hrefs : refs k' f + p.slots f = refs k f := by
      unfold refs
      rw [hprocs]
      exact hsum
    have := h.balance f
    rw [hfiles, this, Pi.add_apply, ← hrefs]
    push_cast
    ring
  · intro f
    rw [hfiles]
    exact h.free f
  · intro q hq hx
    rw [hprocs] at hq
    exact h.cloexec q (mem_of_mem_filter hq) hx

theorem allocPid_ftable {k₀ : Kernel} {r : ℤ × ℕ} (h : allocPid k = (some r, k₀)) :
    k₀.ftable = k.ftable := by
  unfold allocPid at h
  split at h <;> cases h
  rfl

theorem fork_fd {env : ForkEnv} (h : FdInv 0 none k) (hr : Running k)
    (he : procForkCurrent env k = (some r, k')) : FdInv 0 none k' := by
  have halloced : ∀ {k₀ : Kernel} {a : ℤ × ℕ}, allocPid k = (some a, k₀) → FdInv 0 none k₀ := by
    intro k₀ a halloc
    refine h.same ?_ (allocPid_ftable halloc)
    rw [allocPid_procs halloc]
    exact same_refl _
  cases procForkCurrent_run he with
  | refused _ => exact h
  | failed halloc => exact halloced halloc
  | unwound _ halloc hdup hclose =>
    have := closeLoop_fd (dupLoop_fd (halloced halloc) hdup) hclose
    rwa [add_sub_cancel_right] at this
  | @forked parent _ generation k₀ k₁ hparent halloc hdup =>
    have h1 := dupLoop_fd (halloced halloc) hdup
    refine FdInv.append (c := forkChild parent r generation) h1 rfl rfl ?_ nofun ?_
    · intro p hp
      obtain ⟨p₀, hp₀, hs⟩ := (dupFds_rel wakes_files _ _ _ _ hdup).mem hp
      rw [hs.pid]
      exact allocPid_fresh h.toTable halloc p₀ (allocPid_procs halloc ▸ hp₀)
    · -- the child is not a zombie, and neither is the parent its bits come from
      obtain ⟨p, hp, hs⟩ := hr
      cases hp.symm.trans hparent
      have hok := h.cloexec_find (currentProc_find hp)
      exact fun _ => hok (by rw [hs]; nofun)

theorem destroy_fd (h : FdInv 0 none k) (hp : p ∈ k.procs)
    (he : procDestroy p k = (some u, k')) : FdInv 0 none k' := by
  have h1 : FdInv (0 + fun f => (p.slots f : ℤ)) none
      { k with procs := k.procs.filter (·.pid ≠ p.pid) } := h.remove hp rfl rfl
  have h2 := closeLoop_fd h1 (procDestroy_run he)
  unfold Pcb.slots at h2
  rwa [add_sub_cancel_right] at h2

theorem exec_fd {image : Except ℤ (BitVec 64 × BitVec 64)} (h : FdInv 0 none k)
    (he : doExec image k = (some r, k')) : FdInv 0 none k' := by
  unfold doExec at he
  rw [get_bind] at he
  rcases hp : k.currentProc with _ | p
  · simp only [hp] at he
    cases he
    exact h
  simp only [hp] at he
  rw [Kern.ite_apply] at he
  split at he
  · cases he
    exact h
  rcases image with e | ⟨entry, sp⟩
  · cases he
    exact h
  · dsimp only at he
    obtain ⟨⟨⟩, k₁, hclose, he⟩ := bind_eq_some.mp he
    rw [modify_bind] at he
    cases he
    refine (closeFds_fd (h.exempt _) hclose).unexempt (fun _ => rfl) (fun _ => rfl) (fun _ => id) ?_
    intro q _ fd hb
    simp [Pcb.execed] at hb

theorem FdInv.reparent (h : FdInv b x k) (pid : ℤ) : FdInv b x (reparent k pid) := by
  have h1 : FdInv b x (k.modifyAll (Pcb.reparented pid (reparentTo k))) := by
    refine h.same (forall₂_map_right_iff.mpr (forall₂_same.mpr fun q _ => ?_)) rfl
    unfold Pcb.reparented
    split <;> exact SameFd.of_state rfl rfl rfl rfl
  exact h1.quiet (reparent_quiet k pid)

theorem exit_fd {status : ℤ} {gone : Bool} (h : FdInv 0 none k)
    (he : procExitCurrent status k = (some gone, k')) : FdInv 0 none k' := by
  cases procExitCurrent_run he with
  | idle _ => exact h
  | @gone p k₁ _ _ hclose =>
    have h1 : FdInv 0 none (k.modify p.pid (Pcb.exiting status)) :=
      h.modify_same fun q => SameFd.of_state rfl rfl rfl rfl
    have h2 := (h1.reparent p.pid).exempt (some p.pid)
    have h3 := closeFds_fd h2 hclose
    obtain ⟨k₃, hq₃, hz⟩ := becomeZombie_eq k₁ p
    rw [hz]
    exact (h3.quiet hq₃).unexempt (fun _ => rfl) (fun _ => rfl) (fun _ _ => nofun)
      fun q hnz => absurd rfl hnz

theorem running_find (hr : Running k) : ∃ p, k.current = some p.pid ∧ k.find p.pid = some p ∧
    p.state = .running := by
  obtain ⟨p, hp, hs⟩ := hr
  exact ⟨p, (currentProc_mem hp).2, currentProc_find hp, hs⟩

theorem FdInv.modify_state (h : FdInv b x k) (hp : k.find pid = some p) (hs : p.state ≠ .zombie)
    (hpid : (g p).pid = p.pid) (hofile : (g p).ofile = p.ofile)
    (hmask : (g p).cloexecMask = p.cloexecMask) (hused : (g p).state ≠ .unused) :
    FdInv b x (k.modify pid g) :=
  h.modify_find hp ⟨hpid, hofile, hmask, fun hz => absurd hz hs, fun _ => hused⟩

theorem wait4_fd {options : BitVec 32} {r : WaitResult} (h : FdInv 0 none k) (hr : Running k)
    (he : wait4Pass pid options k = (some r, k')) : FdInv 0 none k' := by
  have hsame : ∀ {q : ℤ} {g : Pcb → Pcb}, (∀ p, SameFd p (g p)) → FdInv 0 none (k.modify q g) :=
    fun hg => h.modify_same hg
  cases wait4Pass_run he with
  | failed _ => exact h
  | stopReported _ | continueReported _ => exact hsame fun _ => SameFd.of_state rfl rfl rfl rfl
  | slept hme _ =>
    obtain ⟨p, hp, hs⟩ := hr
    cases hme.symm.trans hp
    exact h.modify_state (currentProc_find hp) (by rw [hs]; nofun) rfl rfl rfl nofun
  | @reaped me p k₁ hme hp hz hdestroy =>
    obtain ⟨q, hq, hs⟩ := hr
    cases hme.symm.trans hq
    refine destroy_fd (hsame (g := Pcb.absorb p) fun _ => SameFd.of_state rfl rfl rfl rfl) ?_
      hdestroy
    -- the parent is running, so it is not the child
    have hne : p.pid ≠ me.pid := by
      intro hpid
      rw [h.toTable.eq_current hme hp.1 hpid, hs] at hz
      cases hz
    exact Kernel.mem_modify.mpr ⟨p, hp.1, if_neg hne⟩

theorem fdInv_robust : Robust (FdInv 0 none) where
  quiet hq h := h.quiet hq
  stop h hp hs _ := h.modify_state (currentProc_find hp) (by rw [hs]; nofun) rfl rfl rfl nofun
  exit h _ he := exit_fd h he

/-! ### Steps -/

theorem call_fd {c : Call} (h : FdInv 0 none k) (hr : Running k) (he : call c k = (some (), k')) :
    FdInv 0 none k' := by
  have hdo : ∀ {α : Type} {x : Kern Kernel α}, (∀ r, x k = (some r, k') → FdInv 0 none k') →
      (do let _ ← x) k = (some (), k') → FdInv 0 none k' := by
    intro α x hx he
    obtain ⟨r, hrun⟩ := discard_eq_some he
    exact hx r hrun
  have hquiet : ∀ {α : Type} {x : Kern Kernel α}, Kern.Rel (QuietAll True) x →
      (do let _ ← x) k = (some (), k') → FdInv 0 none k' :=
    fun hx => hdo fun r hrun => h.quiet (hx k r k' hrun)
  have hfield : ∀ g : Pcb → Pcb, modifyCurrent g k = (some (), k') → (∀ p, SameFd p (g p)) →
      FdInv 0 none k' := by
    intro g he hg
    rcases modifyCurrent_run he with rfl | ⟨pid, -, rfl⟩
    · exact h
    · exact h.modify_same hg
  have hstate : ∀ g : Pcb → Pcb, modifyCurrent g k = (some (), k') → (∀ p, (g p).pid = p.pid) →
      (∀ p, (g p).ofile = p.ofile) → (∀ p, (g p).cloexecMask = p.cloexecMask) →
      (∀ p, (g p).state ≠ .unused) → FdInv 0 none k' := by
    intro g he h1 h2 h3 h4
    obtain ⟨p, hc, hp, hs⟩ := running_find hr
    unfold modifyCurrent at he
    rw [hc] at he
    cases he
    exact h.modify_state hp (by rw [hs]; nofun) (h1 p) (h2 p) (h3 p) (h4 p)
  cases c with
  | openFile res flags => exact hdo (fun _ hrun => (doOpen_spec h hrun).1) he
  | close fd => exact hdo (fun _ hrun => sysClose_fd h hrun) he
  | dup fd => exact hdo (fun _ hrun => (sysDup_spec h hrun).1) he
  | dup2 oldfd newfd => exact hdo (fun _ hrun => sysDup2_fd h hrun) he
  | setfd fd arg => exact hdo (fun _ hrun => sysFcntlSetfd_fd h hrun) he
  | pipe fds => exact hdo (fun _ hrun => (sysPipe_spec h hrun).1) he
  | fork env => exact hdo (fun _ hrun => fork_fd h hr hrun) he
  | exec image => exact hdo (fun _ hrun => exec_fd h hrun) he
  | exit status => exact hdo (fun _ hrun => exit_fd h hrun) he
  | wait4 pid options ustatus => exact hdo (fun _ hrun => wait4_fd h hr hrun) he
  | kill pid sig => exact hdo (fun r hrun => h.sends (sysKill_sends pid sig k r k' hrun)) he
  | sigaction sig act oldOk => exact hquiet (quiet_of_sets (sysSigaction_sets _ _ _)) he
  | sigprocmask how set oldOk => exact hquiet (quiet_of_sets (sysSigprocmask_sets _ _ _)) he
  | sigsuspend mask => exact hquiet (sysSigsuspend_quiet _) he
  | sigreturn frame => exact hdo (fun _ hrun => sysSigreturn_keeps fdInv_robust h hr hrun) he
  | sigaltstack ss ossOk => exact hquiet (quiet_of_sets (sysSigaltstack_sets _ _)) he
  | setpgid pid pgid => exact hquiet (sysSetpgid_quiet _ _) he
  | setsid => exact hquiet sysSetsid_quiet he
  | raiseGroup pgid sig =>
    cases he
    exact h.sends (sendEach_sends (S := fun _ => True) k trivial _ fun _ _ => trivial)
  | setNofile lim | setNproc lim
  | alarm deadline => exact hfield _ he fun _ => SameFd.of_state rfl rfl rfl rfl
  | sleep wakeTick chan =>
    exact hstate _ he (fun _ => rfl) (fun _ => rfl) (fun _ => rfl) fun _ => nofun
  | yield => exact hstate _ he (fun _ => rfl) (fun _ => rfl) (fun _ => rfl) fun _ => nofun

theorem fdInv_sturdy : Sturdy (FdInv 0 none) where
  toRobust := fdInv_robust
  continues hg h := by
    refine h.modify_same fun p => ?_
    obtain ⟨_, _, _, _, hq⟩ := hg p
    rw [hq]
    exact SameFd.of_state rfl rfl rfl rfl

theorem step_fd {l : Label} (h : FdInv 0 none k) (hstep : Step k l k') : FdInv 0 none k' := by
  cases step_run hstep with
  | call hr he => exact call_fd h hr he
  | @dispatch pid p hp hready hrun =>
    have h1 : FdInv 0 none (k.modify pid fun q => { q with state := .running }) :=
      h.modify_state hp (by rw [hready]; nofun) rfl rfl rfl nofun
    exact hrun fdInv_sturdy (h1.same (same_refl _) rfl)
  | reapOrphan hz _ _ he =>
    have h0 : FdInv 0 none { k with current := none } := h.same (same_refl _) rfl
    exact destroy_fd h0 (currentProc_mem hz).1 (reapOrphan_run hz he)
  | passing _ hrun => exact hrun fdInv_sturdy h

theorem boot_fd (pid : ℤ) (entry sp : BitVec 64) : FdInv 0 none (bootKernel pid entry sp) where
  toTable := (boot_sigOk pid entry sp).toTable
  balance f := by
    have hslots : slotsAt (fun fd => if fd < 3 then some fd else none) f 0 NOFILE =
        if f < 3 then 1 else 0 := by
      by_cases hf : f < 3
      · interval_cases f <;> decide
      · rw [if_neg hf]
        refine countP_eq_zero.mpr fun fd _ => ?_
        by_cases h : fd < 3
        · simp only [h, if_true, Option.some.injEq, decide_eq_true_eq]
          omega
        · simp [h]
    have hrefs : refs (bootKernel pid entry sp) f = if f < 3 then 1 else 0 := by
      simp only [refs, bootKernel, map_cons, map_nil, sum_singleton]
      exact hslots
    rw [hrefs]
    simp only [bootKernel]
    split <;> rfl
  free f hf := by
    simp only [bootKernel] at hf ⊢
    split at hf
    · cases hf
    · next h => rw [if_neg h]
  cloexec p hp _ _ fd hb := by
    obtain rfl := mem_singleton.mp hp
    simp [newPcb] at hb

/-- In every state of every run from boot the reference count of each open file is
the number of descriptor slots that point at it, close-on-exec bits of processes
that are not zombies belong to open descriptors, and `open`, `dup` and `pipe`
return the lowest free descriptors of the caller. -/
theorem descriptors_consistent (pid : ℤ) (entry sp : BitVec 64) (k : Kernel)
    (h : Reaches Step (fun _ _ => True) (bootKernel pid entry sp) k) :
    (∀ f, (k.ftable f).refcnt = refs k f) ∧
    (∀ p ∈ k.procs, p.state ≠ .zombie →
      ∀ fd, p.cloexecMask.getLsbD fd = true → (p.ofile fd).isSome = true) ∧
    ∀ p, k.currentProc = some p →
      (∀ flags (r : ℤ) k', doOpen (.ok ()) flags k = (some r, k') → 0 ≤ r →
        ∃ fd : ℕ, r = fd ∧ LowestFree p fd) ∧
      (∀ oldfd (r : ℤ) k', sysDup oldfd k = (some r, k') → 0 ≤ r →
        ∃ fd : ℕ, r = fd ∧ LowestFree p fd) ∧
      ∀ fds r fd0 fd1 k', sysPipe fds k = (some (r, some (fd0, fd1)), k') →
        LowestFree p fd0 ∧ ∃ f, LowestFree (p.setFd fd0 (some f)) fd1 := by
  have hinv : FdInv 0 none k := by
    refine h.invariant (boot_fd pid entry sp) ?_
    intro k l k' hk _ hstep
    exact step_fd hk hstep
  refine ⟨fun f => ?_, fun p hp => hinv.cloexec p hp nofun, fun p hp => ⟨?_, ?_, ?_⟩⟩
  · have := hinv.balance f
    simp only [Pi.zero_apply, add_zero, Nat.cast_inj] at this
    exact this
  · exact fun flags r k' he hr => (doOpen_spec hinv he).2 rfl hr p hp
  · exact fun oldfd r k' he hr => (sysDup_spec hinv he).2 hr p hp
  · exact fun fds r fd0 fd1 k' he => (sysPipe_spec hinv he).2 p hp fd0 fd1 rfl

/-- Init makes a pipe, moves one end onto descriptor 0, marks the other
close-on-exec, forks, and the child executes another image. -/
def pipeForkExec : List Label :=
  [.dispatch 1, .enter fun _ => 0x10000, .call (.pipe (some true)), .call (.dup2 3 0),
    .call (.setfd 4 1), .call (.fork .ok), .call .yield, .dispatch 2, .enter fun _ => 0x10000,
    .call (.exec (.ok (0x10000, 0x20000)))]

theorem descriptors_consistent_pipe_fork_exec :
    ∃ k, runLabels pipeForkExec (bootKernel 1 0x10000 0x20000) = some k ∧
      (k.ftable 3).refcnt = 4 ∧ refs k 3 = 4 ∧ (k.ftable 4).refcnt = 1 ∧ refs k 4 = 1 := by
  refine exists_end (P := fun k => (k.ftable 3).refcnt = 4 ∧ (k.ftable 4).refcnt = 1)
    (by decide +kernel) ?_
  rintro k hk ⟨h3, h4⟩
  have hall := (descriptors_consistent 1 0x10000 0x20000 k (runLabels_reaches hk)).1
  exact ⟨h3, hall 3 ▸ h3, h4, hall 4 ▸ h4⟩

end Sbunix.Proc
