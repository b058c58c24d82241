import Sbunix.Proc.Unblockable

/-!
# When SIGKILL is final

A process with `SIGKILL` pending should not execute another user instruction.
The signal check picks the lowest-numbered signal that has an effect, so a
caught signal below 9 goes first; and two ways into user mode, behind a stop and
in a newly forked child, do not check at all. Where none of the three happens,
the next return to user mode ends the process.
-/

namespace Sbunix.Proc

open List Lib.Kern Lib

/-! ### The signal that is picked -/

def actionable (p : Pcb) (i : ℕ) : Bool := deliverable p i && !sigIsNoOp p i

theorem pickFold_found (p : Pcb) (l : List ℕ) (acc : BitVec 64 × ℕ) (hl : ∀ i ∈ l, i ≠ 0) :
    (l.foldl (pickStep p) acc).2 =
      if acc.2 = 0 then (l.find? (actionable p)).getD 0 else acc.2 := by
  induction l generalizing acc with
  | nil =>
    simp only [foldl_nil, find?_nil, Option.getD_none]
    split
    · assumption
    · rfl
  | cons i l ih =>
    have hi : i ≠ 0 := hl i mem_cons_self
    rw [foldl_cons, ih _ fun j hj => hl j (mem_cons_of_mem _ hj), find?_cons]
    unfold pickStep actionable
    cases hd : deliverable p i
    · simp
    cases hn : sigIsNoOp p i
    · by_cases h0 : acc.2 = 0
      · simp [h0, hi]
      · simp [h0]
    · simp

theorem pickActionable_eq (p : Pcb) :
    pickActionable p = ((List.range' 1 (NSIG - 1)).find? (actionable p)).getD 0 := by
  have := pickFold_found p (List.range' 1 (NSIG - 1)) (p.sigPending, 0) (by
    intro i hi
    have := (mem_range'_1.mp hi).1
    omega)
  simpa [pickActionable, pickLoop] using this

variable {p : Pcb} {k' : Kernel}

theorem pick_of_kill (h : actionable p SIGKILL = true) :
    ∃ i, 1 ≤ i ∧ i ≤ SIGKILL ∧ actionable p i = true ∧ pickActionable p = i ∧
      (List.range' 1 SIGKILL).find? (actionable p) = some i := by
  have hsplit : List.range' 1 (NSIG - 1) = List.range' 1 SIGKILL ++ List.range' 10 22 := by decide
  rcases hf : (List.range' 1 SIGKILL).find? (actionable p) with _ | i
  · have := find?_eq_none.mp hf SIGKILL (by decide)
    exact absurd h this
  · have hmem := mem_range'_1.mp (mem_of_find?_eq_some hf)
    refine ⟨i, hmem.1, ?_, find?_some hf, ?_, rfl⟩
    · have := hmem.2
      unfold SIGKILL at *
      omega
    · rw [pickActionable_eq, hsplit, find?_append, hf]
      rfl

theorem pick_congr {q : Pcb} (h : actionable p SIGKILL = true)
    (hpq : ∀ i, 1 ≤ i → i ≤ SIGKILL → actionable q i = actionable p i) :
    pickActionable q = pickActionable p := by
  have hq : actionable q SIGKILL = true := (hpq SIGKILL (by decide) le_rfl).trans h
  obtain ⟨i, -, -, -, hi, hfi⟩ := pick_of_kill h
  obtain ⟨j, -, -, -, hj, hfj⟩ := pick_of_kill hq
  have hfind : (List.range' 1 SIGKILL).find? (actionable q) =
      (List.range' 1 SIGKILL).find? (actionable p) := by
    refine find?_congr fun i hi => ?_
    have hmem := mem_range'_1.mp hi
    refine hpq i hmem.1 ?_
    have := hmem.2
    unfold SIGKILL at *
    omega
  rw [hi, hj]
  rw [hfi, hfj] at hfind
  exact Option.some.inj hfind

theorem actionable_kill (hs : SigOk p) (hk : killPending p = true) :
    actionable p SIGKILL = true := by
  obtain ⟨hb, -, hh⟩ := hs SIGKILL (.inl rfl)
  have hd : deliverable p SIGKILL = true := by
    unfold deliverable
    unfold killPending at hk
    simp only [BitVec.getLsbD_and, BitVec.getLsbD_not, hk, hb]
    decide
  have hn : sigIsNoOp p SIGKILL = false := by
    unfold sigIsNoOp
    rw [hh]
    decide
  rw [actionable, hd, hn]
  rfl

/-! ### The check ends a process with SIGKILL pending -/

def ZombieAt (k : Kernel) (pid : ℤ) : Prop := ∃ q ∈ k.procs, q.pid = pid ∧ q.state = .zombie

variable {k : Kernel} {i : ℕ} {copied : Bool} {f : Flow} {pid : ℤ} {path : RetPath}

theorem exit_zombie {status : ℤ} {gone : Bool} (hp : k.currentProc = some p)
    (hs : p.state = .running) (he : procExitCurrent status k = (some gone, k')) :
    ZombieAt k' p.pid := by
  cases procExitCurrent_run he with
  | idle hr => exact absurd ⟨p, hp, hs⟩ hr
  | @gone p' k₁ hp' _ hclose =>
    cases hp.symm.trans hp'
    -- no stage of the exit removes a process or changes a pid
    obtain ⟨k₂, hq₂, hz⟩ := becomeZombie_eq k₁ p
    have hpids : k₂.procs.map Pcb.pid = k.procs.map Pcb.pid := by
      rw [hq₂.pids, (closeFds_rel quiet_fds trivial _ _ _ _ hclose).pids, (reparent_quiet _ _).pids,
        modifyAll_pids _ (reparented_pid p.pid _), modify_pids k p.pid]
      exact fun _ => rfl
    have hmem : p.pid ∈ k₂.procs.map Pcb.pid :=
      hpids ▸ mem_map_of_mem (currentProc_mem hp).1
    obtain ⟨q, hq, hqp⟩ := mem_map.mp hmem
    refine ⟨q.dead, ?_, hqp, rfl⟩
    rw [hz]
    exact Kernel.mem_modify.mpr ⟨q, hq, if_pos hqp⟩

/-- A process with an effective `SIGKILL` whose next signal is not caught. -/
structure Doomed (k : Kernel) (p : Pcb) : Prop where
  current : k.currentProc = some p
  running : p.state = .running
  user : p.isUser = true
  kill : actionable p SIGKILL = true
  uncaught : (p.sigHandlers (pickActionable p)).handler = SIG_DFL

theorem defaultAction_ne_stop (h1 : 1 ≤ i) (h2 : i ≤ SIGKILL) : defaultAction i ≠ .stop := by
  unfold SIGKILL at h2
  interval_cases i <;> decide

theorem checkSignals_doomed (hd : Doomed k p)
    (he : checkSignals copied k = (some f, k')) : f = .gone ∧ ZombieAt k' p.pid := by
  obtain ⟨i, hi1, hi9, -, hpick, -⟩ := pick_of_kill hd.kill
  have huncaught := hd.uncaught
  rw [hpick] at huncaught
  -- the process after the loop and the drop of the picked signal
  have hend : ∀ (y : Kern Kernel Flow) (k₂ : Kernel), QuietAll True k k₂ →
      (do if ← procExitCurrent i then pure Flow.gone else y) k₂ = (some f, k') →
      f = .gone ∧ ZombieAt k' p.pid := by
    intro y k₂ hq he
    obtain ⟨gone, k₃, h1, h2⟩ := bind_eq_some.mp he
    have hr₂ : Running k₂ := hq.running ⟨p, hd.current, hd.running⟩
    obtain ⟨q, hqcur, hpq⟩ := hq.currentProc hd.current
    have hgone := procExitCurrent_gone hr₂ h1
    subst hgone
    cases h2
    exact ⟨rfl, hpq.pid ▸ exit_zombie hqcur (hpq.state.running.mpr hd.running) h1⟩
  unfold checkSignals at he
  rw [get_bind] at he
  simp only [hd.current, hd.user, hpick] at he
  rw [if_neg (by simp), modify_bind, if_neg (by omega), modify_bind] at he
  have hq : QuietAll True k ((k.modify p.pid Pcb.picked).modify p.pid (Pcb.drop i)) :=
    (QuietAll.modify Quiet.picked).trans (QuietAll.modify (Quiet.drop i))
  by_cases hkill : i = SIGKILL
  · rw [if_pos hkill] at he
    exact hend _ _ hq he
  · rw [if_neg hkill] at he
    unfold deliver at he
    have hstop : i ≠ SIGSTOP := by
      unfold SIGKILL at hi9
      unfold SIGSTOP
      omega
    simp only [huncaught, if_true, if_neg hstop, if_neg (defaultAction_ne_stop hi1 hi9)] at he
    exact hend _ _ hq he

theorem Doomed.modify (hd : Doomed k p) (hp : p.pid = pid)
    {g : Pcb → Pcb} (hpid : ∀ q, (g q).pid = q.pid) (hstate : (g p).state = p.state)
    (huser : (g p).isUser = p.isUser) (hhandlers : (g p).sigHandlers = p.sigHandlers)
    (hact : ∀ i, 1 ≤ i → i ≤ SIGKILL → actionable (g p) i = actionable p i) :
    Doomed (k.modify pid g) (g p) where
  current := by
    subst hp
    unfold Kernel.currentProc
    rw [Kernel.modify_current, (currentProc_mem hd.current).2]
    exact modify_find hpid (currentProc_find hd.current)
  running := hstate.trans hd.running
  user := huser.trans hd.user
  kill := (hact SIGKILL (by decide) le_rfl).trans hd.kill
  uncaught := by
    rw [hhandlers, pick_congr hd.kill hact]
    exact hd.uncaught

theorem pickFold_bit (p : Pcb) (l : List ℕ) (acc : BitVec 64 × ℕ) {j : ℕ} (hj : j < 64) :
    (l.foldl (pickStep p) acc).1.getLsbD j =
      (acc.1.getLsbD j && !(decide (j ∈ l) && (deliverable p j && sigIsNoOp p j))) := by
  induction l generalizing acc with
  | nil => simp
  | cons i l ih =>
    rw [foldl_cons, ih]
    unfold pickStep
    by_cases hij : j = i
    · subst hij
      cases hd : deliverable p j <;> cases hn : sigIsNoOp p j <;>
        simp [dropBit_getLsbD _ _ hj, apply_ite Prod.fst]
    · cases hd : deliverable p i <;> cases hn : sigIsNoOp p i <;>
        simp [hij, dropBit_getLsbD _ _ hj, apply_ite Prod.fst]

theorem actionable_picked (p : Pcb) (h1 : 1 ≤ i) (h2 : i < NSIG) :
    actionable p.picked i = actionable p i := by
  have hlt : i < 64 := by
    unfold NSIG at h2
    omega
  have hmem : i ∈ List.range' 1 (NSIG - 1) := by
    rw [mem_range'_1]
    omega
  have hbit := pickFold_bit p (List.range' 1 (NSIG - 1)) (p.sigPending, 0) hlt
  have hnoop : sigIsNoOp p.picked i = sigIsNoOp p i := rfl
  unfold actionable
  rw [hnoop]
  unfold deliverable at *
  simp only [Pcb.picked, pickLoop, BitVec.getLsbD_and, hbit, hmem, decide_true, Bool.true_and]
  cases sigIsNoOp p i <;> simp

theorem doomed_setTf (hd : Doomed k p) (t : TrapFrame → TrapFrame) :
    Doomed (k.modify p.pid fun q => { q with tf := t q.tf }) { p with tf := t p.tf } :=
  hd.modify (g := fun q => { q with tf := t q.tf }) rfl (fun _ => rfl) rfl rfl rfl fun _ _ _ => rfl

theorem restarted_picked_pid (p : Pcb) (origA0 : BitVec 64) :
    (p.restarted origA0).picked.pid = p.pid := by
  unfold Pcb.restarted
  dsimp only
  split <;> rfl

theorem doomed_restarted (hd : Doomed k p) (hp : p.pid = pid) (origA0 : BitVec 64) :
    Doomed (k.modify pid fun q => (q.restarted origA0).picked) (p.restarted origA0).picked := by
  have hview : ∀ q : Pcb, (q.restarted origA0).pid = q.pid ∧ (q.restarted origA0).state = q.state ∧
      (q.restarted origA0).isUser = q.isUser ∧ (q.restarted origA0).sigHandlers = q.sigHandlers ∧
      ∀ i, actionable (q.restarted origA0) i = actionable q i := by
    intro q
    unfold Pcb.restarted
    dsimp only
    split <;> exact ⟨rfl, rfl, rfl, rfl, fun _ => rfl⟩
  refine hd.modify (g := fun q => (q.restarted origA0).picked) hp (fun q => (hview q).1)
    (hview p).2.1
    (hview p).2.2.1 (hview p).2.2.2.1 fun i h1 h9 => ?_
  rw [actionable_picked _ h1 (lt_of_le_of_lt h9 (by decide))]
  exact (hview p).2.2.2.2 i

theorem sendSegv_eq (hp : k.find p.pid = some p) (huser : p.isUser = true) :
    sendSignal k p.pid SIGSEGV =
      (k.modify p.pid (Pcb.raise SIGSEGV)).modify p.pid Pcb.wakeDeliverable := by
  unfold sendSignal
  rw [hp]
  have h0 : SIGSEGV ≠ 0 := by decide
  have hn : ¬ NSIG ≤ SIGSEGV := by decide
  have hk : SIGSEGV ≠ SIGKILL := by decide
  have hs : SIGSEGV ≠ SIGSTOP := by decide
  have hc : SIGSEGV ≠ SIGCONT := by decide
  have hm : SIGSEGV ∉ stopSignals := by decide
  simp only [sendSignalTo, sendPost, huser, h0, hn, hk, hs, hc, hm, Bool.true_eq_false,
    false_and, or_self, if_false]

theorem doomed_segv (hd : Doomed k p) :
    ∃ q, Doomed (sendSignal k p.pid SIGSEGV) q ∧ q.pid = p.pid := by
  have hsend := sendSegv_eq (currentProc_find hd.current) hd.user
  have h1 : Doomed (k.modify p.pid (Pcb.raise SIGSEGV)) (p.raise SIGSEGV) := by
    refine hd.modify rfl (fun _ => rfl) rfl rfl rfl fun i h1 h9 => ?_
    have hlt : i < 64 := lt_of_le_of_lt h9 (by decide)
    have hne : i ≠ SIGSEGV := ne_of_lt (lt_of_le_of_lt h9 (by decide))
    have hnoop : sigIsNoOp (p.raise SIGSEGV) i = sigIsNoOp p i := rfl
    unfold actionable
    rw [hnoop]
    simp [deliverable, Pcb.raise, sigBit_getLsbD hlt, hne]
  have hawake : (p.raise SIGSEGV).wakeDeliverable = p.raise SIGSEGV := by
    unfold Pcb.wakeDeliverable
    rw [if_neg]
    rw [h1.running]
    simp
  have hpidw : ∀ q : Pcb, q.wakeDeliverable.pid = q.pid := by
    intro q
    unfold Pcb.wakeDeliverable
    split <;> rfl
  refine ⟨(p.raise SIGSEGV).wakeDeliverable, ?_, hpidw _⟩
  rw [hsend]
  exact h1.modify rfl hpidw (by rw [hawake]) (by rw [hawake]) (by rw [hawake])
    fun i _ _ => by rw [hawake]

theorem trapCheck_doomed (hd : Doomed k p) (he : trapCheck path copied k = (some f, k')) :
    f = .gone ∧ ZombieAt k' p.pid := by
  have hcur := (currentProc_mem hd.current).2
  cases path with
  | checked => exact checkSignals_doomed hd he
  | ecall ret origA0 =>
    change (modifyCurrent _ >>= fun _ => checkSignalsAfterSyscall ret origA0 copied) k = _ at he
    obtain ⟨⟨⟩, k₁, h1, he⟩ := bind_eq_some.mp he
    unfold modifyCurrent at h1
    rw [hcur] at h1
    cases h1
    have hd₁ := doomed_setTf hd fun tf => setAt tf TF_A0 (BitVec.ofInt 64 ret)
    unfold checkSignalsAfterSyscall at he
    rw [get_bind] at he
    simp only [hd₁.current] at he
    rw [Kern.ite_apply] at he
    split at he
    · rw [modify_bind] at he
      have hz := checkSignals_doomed (doomed_restarted hd₁ rfl origA0) he
      rw [restarted_picked_pid] at hz
      exact hz
    · have hz := checkSignals_doomed hd₁ he
      exact hz
  | fault =>
    change (sendCurrent SIGSEGV >>= fun _ => checkSignals copied) k = _ at he
    obtain ⟨⟨⟩, k₁, h1, he⟩ := bind_eq_some.mp he
    unfold sendCurrent at h1
    rw [hcur] at h1
    cases h1
    obtain ⟨q, hdq, hpid⟩ := doomed_segv hd
    exact hpid ▸ checkSignals_doomed hdq he

/-! ### Runs -/

/-- The process is in the kernel, and its unblockable signals are not blocked. -/
def KernelSide (p : Pcb) : Prop := SigOk p ∧ p.isUser = true ∧ p.resume ≠ .user

theorem kernelSide_local : Local KernelSide where
  view h hp := by
    have hu := congrArg SigView.isUser h
    have hr := congrArg SigView.resume h
    simp only [Pcb.sigView] at hu hr
    exact ⟨SigOk.of_view h hp.1, hu.trans hp.2.1, hr.trans_ne hp.2.2⟩
  quiet hq hp := ⟨hq.sig hp.1, hq.isUser.trans hp.2.1, hq.resume.trans_ne hp.2.2⟩
  sent hs hp := by
    have hu := congrArg Core.isUser hs.core
    have hr := congrArg Core.resume hs.core
    exact ⟨SigOk.sent hs hp.1, hu.trans hp.2.1, hr.trans_ne hp.2.2⟩
  fork pid generation hp := ⟨hp.1.forkChild pid generation, rfl, nofun⟩

/-- As `KernelSide`, and `SIGKILL` is not pending for the process `pid`. -/
def KernelSideSafe (pid : ℤ) (p : Pcb) : Prop :=
  KernelSide p ∧ (p.pid = pid → killPending p = false)

theorem kernelSideSafe_local (pid : ℤ) : LocalQuiet (KernelSideSafe pid) where
  view h hp := by
    have hpid := congrArg SigView.pid h
    have hs := congrArg SigView.sigPending h
    simp only [Pcb.sigView] at hpid hs
    refine ⟨kernelSide_local.view h hp.1, fun he => ?_⟩
    unfold killPending
    rw [hs]
    exact hp.2 (hpid.symm.trans he)
  quiet hq hp := ⟨kernelSide_local.quiet hq hp.1, fun he => hq.kill (hp.2 (hq.pid.symm.trans he))⟩

/-- At most the running process is in user mode, and `SIGKILL` is not pending for it. -/
structure KillInv (k : Kernel) : Prop extends TableAll (fun p => SigOk p ∧ p.isUser = true) k where
  user : ∀ p ∈ k.procs, p.resume = .user →
    p.state = .running ∧ k.current = some p.pid ∧ killPending p = false

theorem KillInv.of_kernelSide (h : TableAll KernelSide k) : KillInv k where
  toTable := h.toTable
  all p hp := ⟨(h.all p hp).1, (h.all p hp).2.1⟩
  user p hp hu := absurd hu (h.all p hp).2.2

theorem KillInv.kernelSide (h : KillInv k) (hno : ∀ p ∈ k.procs, p.resume ≠ .user) :
    TableAll KernelSide k where
  toTable := h.toTable
  all p hp := ⟨(h.all p hp).1, (h.all p hp).2, hno p hp⟩

theorem KillInv.kernelSide_of_trap (h : KillInv k) (hr : runsAt k .trap) :
    TableAll KernelSide k := by
  obtain ⟨c, hc, -, hres⟩ := hr
  refine h.kernelSide fun p hp hu => ?_
  have hcur := (h.user p hp hu).2.1
  rw [(currentProc_mem hc).2] at hcur
  obtain rfl := h.toTable.eq_current hc hp (Option.some.inj hcur).symm
  rw [hres] at hu
  cases hu

theorem KillInv.quiet {D : Prop} (h : KillInv k) (hq : QuietAll D k k') : KillInv k' where
  toTable := hq.table h.toTable
  all q hqm := by
    obtain ⟨p, hp, hpq⟩ := hq.mem hqm
    exact ⟨hpq.sig (h.all p hp).1, hpq.isUser.trans (h.all p hp).2⟩
  user q hqm hu := by
    obtain ⟨p, hp, hpq⟩ := hq.mem hqm
    obtain ⟨hs, hc, hk⟩ := h.user p hp (hpq.resume.symm.trans hu)
    exact ⟨hpq.state.running.mpr hs, hq.current.trans (hpq.pid ▸ hc), hpq.kill hk⟩

theorem settle_killInv (check : Bool) (h : TableAll (KernelSideSafe pid) k)
    (hback : f = .back → Running k ∧ k.current = some pid)
    (he : settle check f k = (some (), k')) : KillInv k' := by
  have hside : TableAll KernelSide k := ⟨h.toTable, fun p hp => (h.all p hp).1⟩
  cases f with
  | gone =>
    cases he
    exact .of_kernelSide hside
  | stopped =>
    rcases modifyCurrent_run he with rfl | ⟨pid, -, rfl⟩
    · exact .of_kernelSide hside
    · exact .of_kernelSide (hside.modify (fun _ => rfl) (fun _ => id) fun p hp =>
        ⟨hp.1, hp.2.1, nofun⟩)
  | back =>
    obtain ⟨⟨c, hc, hrun⟩, hcur⟩ := hback rfl
    change modifyCurrent _ k = _ at he
    unfold modifyCurrent at he
    rw [hcur] at he
    cases he
    have hcpid : c.pid = pid := Option.some.inj ((currentProc_mem hc).2.symm.trans hcur)
    have hmod : TableAll (fun p => SigOk p ∧ p.isUser = true)
        (k.modify pid fun q => { q with resume := .user }) :=
      TableAll.modify ⟨h.toTable, fun p hp => ⟨(h.all p hp).1.1, (h.all p hp).1.2.1⟩⟩ (fun _ => rfl)
        (fun _ => id) fun _ hp => hp
    refine ⟨hmod, fun q hq hu => ?_⟩
    obtain ⟨p, hp, rfl⟩ := Kernel.mem_modify.mp hq
    by_cases hpid : p.pid = pid
    · obtain rfl := h.toTable.eq_current hc hp (hpid.trans hcpid.symm)
      rw [if_pos hpid]
      exact ⟨hrun, hcur.trans (congrArg some hpid.symm), (h.all p hp).2 hpid⟩
    · rw [if_neg hpid] at hu
      exact absurd hu (h.all p hp).1.2.2

/-- What keeps `SIGKILL` final: a process it is pending for returns from a trap
only when the signal picked has its default action, and is dispatched only into
the middle of a trap. -/
def KillOk (k : Kernel) : Label → Prop
  | .ret _ _ => ∀ p, k.currentProc = some p → killPending p = true →
      (p.sigHandlers (pickActionable p)).handler = SIG_DFL
  | .dispatch pid => ∀ p, k.find pid = some p → killPending p = true → p.resume = .trap
  | _ => True

instance (k : Kernel) : (l : Label) → Decidable (KillOk k l)
  | .ret _ _ =>
    decidable_of_iff (k.currentProc.all fun p => killPending p = true →
      (p.sigHandlers (pickActionable p)).handler = SIG_DFL) (by
        simp only [KillOk, Option.all_eq_true, decide_eq_true_eq])
  | .dispatch pid =>
    decidable_of_iff ((k.find pid).all fun p => killPending p = true → p.resume = .trap) (by
      simp only [KillOk, Option.all_eq_true, decide_eq_true_eq])
  | .call _ | .enter _ | .reapOrphan | .tick _ | .tty _ | .wake _ | .wakeChan _ => .isTrue trivial

theorem ret_doomed {p : Pcb} (h : TableAll KernelSide k)
    (hr : Running k) (hok : KillOk k (.ret path copied)) (hp : k.currentProc = some p)
    (hk : killPending p = true) (he : trapReturn path copied k = (some (), k')) :
    TableAll KernelSide k' ∧ ZombieAt k' p.pid := by
  obtain ⟨f, k₁, f', k₂, h1, h2, h3⟩ := trapReturn_run he
  have hside := h.all p (currentProc_mem hp).1
  have hrun : p.state = .running := by
    obtain ⟨p', hp', hs⟩ := hr
    rw [hp] at hp'
    cases hp'
    exact hs
  have hd : Doomed k p := ⟨hp, hrun, hside.2.1, actionable_kill hside.1 hk, hok p hp hk⟩
  obtain ⟨rfl, hz⟩ := trapCheck_doomed hd h1
  have hk₁ := (trapCheck_leads (tableAll_robust kernelSide_local.toLocalQuiet) path
    copied k .gone k₁
    h hr (currentProc_mem hp).2 h1).1
  -- nothing follows for a process that is gone
  cases h2
  cases h3
  exact ⟨hk₁, hz⟩

theorem KernelSideSafe.table (h : TableAll KernelSide k)
    (hsafe : ∀ p ∈ k.procs, p.pid = pid → killPending p = false) :
    TableAll (KernelSideSafe pid) k :=
  ⟨h.toTable, fun p hp => ⟨h.all p hp, hsafe p hp⟩⟩

theorem ret_killInv (h : TableAll KernelSide k) (hr : Running k) (hok : KillOk k (.ret path copied))
    (he : trapReturn path copied k = (some (), k')) : KillInv k' := by
  obtain ⟨p, hp, -⟩ := id hr
  cases hk : killPending p with
  | true => exact .of_kernelSide (ret_doomed h hr hok hp hk he).1
  | false =>
    obtain ⟨f, k₁, f', k₂, h1, h2, h3⟩ := trapReturn_run he
    have hsafe : TableAll (KernelSideSafe p.pid) k := by
      refine KernelSideSafe.table h fun q hq hpid => ?_
      rw [h.toTable.eq_current hp hq hpid]
      exact hk
    obtain ⟨hk₂, hback⟩ := trapChecks_lead (tableAll_robust (kernelSideSafe_local p.pid)) hsafe hr
      (currentProc_mem hp).2 h1 h2
    exact settle_killInv _ hk₂ hback h3

theorem resumeRun_killInv {r : Resume} (h : TableAll (KernelSideSafe pid) k)
    (hr : Running k) (hc : k.current = some pid) (he : resumeRun r k = (some (), k')) :
    KillInv k' := by
  have hside : TableAll KernelSide k := ⟨h.toTable, fun p hp => (h.all p hp).1⟩
  cases r with
  | forkret | forkChildReturn => exact settle_killInv true (f := .back) h (fun _ => ⟨hr, hc⟩) he
  | trap | user =>
    cases he
    exact .of_kernelSide hside
  | stop check =>
    obtain ⟨f', k₂, h2, h3⟩ := bind_eq_some.mp he
    obtain ⟨hk₂, hback⟩ :=
      userCheck_leads (tableAll_robust (kernelSideSafe_local pid)) check .back k
      f' k₂ h hr hc h2
    exact settle_killInv _ hk₂ hback h3

theorem dispatch_killInv (h : KillInv k) (hen : enabled k (.dispatch pid))
    (hok : KillOk k (.dispatch pid)) (he : dispatch pid k = (some (), k')) : KillInv k' := by
  obtain ⟨p, hp, -, hrun⟩ := dispatch_run hen he
  have hside : TableAll KernelSide k := h.kernelSide fun q hq hu => hen.1 q hq (h.user q hq hu).1
  have hnext : TableAll KernelSide (runNext k pid) := by
    have h1 : TableAll KernelSide (k.modify pid fun q => { q with state := .running }) :=
      hside.modify (fun _ => rfl) (fun _ _ => nofun) fun _ hq => hq
    exact h1.of_procs rfl
  cases hk : killPending p with
  | true =>
    rw [hok p hp hk] at hrun
    cases hrun
    exact .of_kernelSide hnext
  | false =>
    refine resumeRun_killInv (KernelSideSafe.table hnext ?_) (runNext_running hp) rfl hrun
    intro q hq hpid
    have hq' : q = { p with state := .running } :=
      hnext.toTable.eq_current (modify_find (fun _ => rfl) hp) hq
        (hpid.trans (Kernel.find_mem hp).2.symm)
    rw [hq']
    exact hk

theorem enter_killInv {tf : TrapFrame} (h : KillInv k) (he : act (.enter tf) k = (some (), k')) :
    KillInv k' := by
  rcases modifyCurrent_run he with rfl | ⟨pid, hc, rfl⟩
  · exact h
  have hall : TableAll (fun p => SigOk p ∧ p.isUser = true)
      (k.modify pid fun p => { p with resume := .trap, tf := tf }) :=
    h.toTableAll.modify (fun _ => rfl) (fun _ => id) fun _ hp => hp
  refine ⟨hall, fun q hq hu => ?_⟩
  obtain ⟨p, hp, rfl⟩ := Kernel.mem_modify.mp hq
  by_cases hpid : p.pid = pid
  · rw [if_pos hpid] at hu
    cases hu
  · rw [if_neg hpid] at hu
    have := (h.user p hp hu).2.1
    rw [hc] at this
    exact absurd (Option.some.inj this).symm hpid

theorem tick_killInv {fromUser : Bool} (h : KillInv k)
    (he : timerHandler fromUser k = (some (), k')) : KillInv k' := by
  obtain ⟨k₁, hbill, rfl⟩ := timerHandler_run he
  refine KillInv.quiet (D := True) ?_ (timerScan_quiet k₁)
  have h0 : KillInv { k with ticks := k.ticks + 1 } := ⟨h.toTableAll.of_procs rfl, h.user⟩
  rcases modifyCurrent_run hbill with rfl | ⟨pid, -, rfl⟩
  · exact h0
  have hbilled : ∀ p : Pcb, (p.billed fromUser).sigView = p.sigView ∧
      (p.billed fromUser).state = p.state := by
    intro p
    unfold Pcb.billed
    split_ifs <;> exact ⟨rfl, rfl⟩
  have hpid : ∀ p : Pcb, (p.billed fromUser).pid = p.pid := fun p =>
    congrArg SigView.pid (hbilled p).1
  refine ⟨h0.toTableAll.modify hpid (fun p => (hbilled p).2.trans_ne) fun p hp => ?_, ?_⟩
  · exact ⟨SigOk.of_view (hbilled p).1 hp.1, (congrArg SigView.isUser (hbilled p).1).trans hp.2⟩
  · intro q hq hu
    obtain ⟨p, hp, rfl⟩ := Kernel.mem_modify.mp hq
    by_cases hp' : p.pid = pid
    · rw [if_pos hp'] at hu ⊢
      obtain ⟨h1, h2, h3⟩ := h.user p hp ((congrArg SigView.resume (hbilled p).1).symm.trans hu)
      have hkill : killPending (p.billed fromUser) = killPending p :=
        congrArg (BitVec.getLsbD · SIGKILL) (congrArg SigView.sigPending (hbilled p).1)
      exact ⟨(hbilled p).2.trans h1, h2.trans (congrArg some (hpid p).symm), hkill.trans h3⟩
    · rw [if_neg hp'] at hu ⊢
      exact h.user p hp hu

theorem step_killInv {l : Label} (h : KillInv k) (hok : KillOk k l) (hstep : Step k l k') :
    KillInv k' := by
  obtain ⟨hen, he⟩ := hstep
  cases l with
  | call c =>
    exact .of_kernelSide
      (call_keeps kernelSide_local (h.kernelSide_of_trap hen) (runsAt.running hen) he)
  | enter tf => exact enter_killInv h he
  | ret path copied => exact ret_killInv (h.kernelSide_of_trap hen) (runsAt.running hen) hok he
  | dispatch pid => exact dispatch_killInv h hen hok he
  | reapOrphan =>
    obtain ⟨z, hz, hzs, -⟩ := hen
    have hside : TableAll KernelSide k := by
      refine h.kernelSide fun p hp hu => ?_
      obtain ⟨hs, hc, -⟩ := h.user p hp hu
      rw [(currentProc_mem hz).2] at hc
      obtain rfl := h.toTable.eq_current hz hp (Option.some.inj hc).symm
      rw [hzs] at hs
      cases hs
    refine .of_kernelSide (destroy_keeps kernelSide_local ?_ (reapOrphan_run hz he))
    exact hside.of_procs rfl
  | tick fromUser => exact tick_killInv h he
  | tty sig =>
    cases he
    exact h.quiet (D := True) (tty_quiet k hen)
  | wake pid =>
    cases he
    exact h.quiet (D := True) (QuietAll.of_sends (procWakeup_sends k pid))
  | wakeChan chan =>
    cases he
    exact h.quiet (D := True) (QuietAll.of_sends (procWakeupChan_sends k chan))

theorem boot_killInv (pid : ℤ) (entry sp : BitVec 64) : KillInv (bootKernel pid entry sp) := by
  have hb := boot_sigOk pid entry sp
  refine .of_kernelSide ⟨hb.toTable, fun p hp => ⟨hb.all p hp, ?_⟩⟩
  obtain rfl := mem_singleton.mp hp
  exact ⟨rfl, nofun⟩

/-- In every run whose steps meet the condition, no process with `SIGKILL` pending
is in user mode, and the next return from a trap ends such a process. -/
theorem sigkill_final (pid : ℤ) (entry sp : BitVec 64) (k : Kernel)
    (h : Reaches Step KillOk (bootKernel pid entry sp) k) :
    (∀ p ∈ k.procs, killPending p = true → ¬ (p.state = .running ∧ p.resume = .user)) ∧
    ∀ path copied k' p, KillOk k (.ret path copied) → Step k (.ret path copied) k' →
      k.currentProc = some p → killPending p = true →
      ∃ q ∈ k'.procs, q.pid = p.pid ∧ q.state = .zombie := by
  have hinv : KillInv k := by
    refine h.invariant (boot_killInv pid entry sp) ?_
    intro k l k' hk hok hstep
    exact step_killInv hk hok hstep
  refine ⟨fun p hp hk hu => ?_, fun path copied k' p hok hstep hp hk => ?_⟩
  · have := (hinv.user p hp hu.2).2.2
    rw [hk] at this
    cases this
  · exact (ret_doomed (hinv.kernelSide_of_trap hstep.1) (runsAt.running hstep.1) hok hp
      hk hstep.2).2

/-- Init forks and waits; the child enters the kernel and gives up the processor. -/
def forkAndSleep : List Label :=
  [.dispatch 1, .enter fun _ => 0x10000, .call (.fork .ok), .ret (.ecall 2 0) true,
    .enter fun _ => 0x10000, .call .yield, .dispatch 2, .enter fun _ => 0x10000,
    .call (.sleep 0 none), .dispatch 1]

/-- A sleeping child gets `SIGKILL`, and dies on its way back to user mode. -/
theorem sigkill_final_sleeping_child : ∃ k k' p, runUnder (fun k l => KillOk k l)
        (forkAndSleep ++ [.call (.kill 2 9), .call .yield, .dispatch 2])
        (bootKernel 1 0x10000 0x20000) = some k ∧
      Step k (.ret .checked true) k' ∧ k.currentProc = some p ∧ killPending p = true ∧
      ∃ q ∈ k'.procs, q.pid = p.pid ∧ q.state = .zombie := by
  have hrun : (runUnder (fun k l => KillOk k l)
      (forkAndSleep ++ [.call (.kill 2 9), .call .yield, .dispatch 2])
      (bootKernel 1 0x10000 0x20000)).any (fun k => k.currentProc.any killPending &&
        decide (KillOk k (.ret .checked true)) && (runLabels [.ret .checked true] k).isSome) =
          true := by
    decide +kernel
  obtain ⟨k, hk, hend⟩ := (Option.any_eq_true _ _).mp hrun
  simp only [Bool.and_eq_true, decide_eq_true_eq] at hend
  obtain ⟨⟨hcur, hok⟩, hret⟩ := hend
  obtain ⟨p, hp, hkill⟩ := (Option.any_eq_true _ _).mp hcur
  obtain ⟨k', hk'⟩ := Option.isSome_iff_exists.mp hret
  have hstep : Step k (.ret .checked true) k' := runLabels_single hk'
  have hreach : Reaches Step KillOk (bootKernel 1 0x10000 0x20000) k :=
    (runUnder_reaches hk).mono fun _ _ h => of_decide_eq_true h
  exact ⟨k, k', p, hk, hstep, hp, hkill,
    (sigkill_final 1 0x10000 0x20000 k hreach).2 .checked true k' p hok hstep hp hkill⟩

/-- The child has a handler for signal 1, which is pending as well. -/
def caughtSignalFirst : List Label :=
  [.dispatch 1, .enter fun _ => 0x10000, .call (.fork .ok), .ret (.ecall 2 0) true,
    .enter fun _ => 0x10000, .call .yield, .dispatch 2, .enter fun _ => 0x10000,
    .call (.sigaction 1 (some (some ⟨0x10000, 0, 0, 0x10000⟩)) true), .call (.sleep 0 none),
    .dispatch 1, .call (.kill 2 1), .call (.kill 2 9), .call .yield, .dispatch 2,
      .ret .checked true]

/-- The child is stopped when `SIGKILL` arrives. -/
def killedWhileStopped : List Label :=
  forkAndSleep ++ [.call (.kill 2 19), .call .yield, .dispatch 2, .ret .checked true, .dispatch 1,
    .call (.kill 2 9), .call .yield, .dispatch 2]

/-- The child has not run yet when `SIGKILL` arrives. -/
def killedBeforeFirstRun : List Label :=
  [.dispatch 1, .enter fun _ => 0x10000, .call (.fork .ok), .call (.kill 2 9), .call .yield,
    .dispatch 2]

/-- A process runs in user mode with `SIGKILL` pending. -/
def KillPendingInUser (k : Kernel) : Prop :=
  ∃ p ∈ k.procs, killPending p = true ∧ p.state = .running ∧ p.resume = .user

instance (k : Kernel) : Decidable (KillPendingInUser k) :=
  inferInstanceAs (Decidable (∃ p ∈ k.procs, killPending p = true ∧ p.state = .running ∧
    p.resume = .user))

/-- Each of the three ends in user mode with `SIGKILL` pending. -/
theorem sigkill_pending_in_user_mode :
    (∃ k, runLabels caughtSignalFirst (bootKernel 1 0x10000 0x20000) = some k ∧
    KillPendingInUser k) ∧
    (∃ k, runLabels killedWhileStopped (bootKernel 1 0x10000 0x20000) = some k ∧
    KillPendingInUser k) ∧
    ∃ k, runLabels killedBeforeFirstRun (bootKernel 1 0x10000 0x20000) = some k ∧
      KillPendingInUser k :=
  ⟨runLabels_any (by decide +kernel), runLabels_any (by decide +kernel),
    runLabels_any (by decide +kernel)⟩

end Sbunix.Proc
