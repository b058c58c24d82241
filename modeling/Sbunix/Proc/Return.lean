import Sbunix.Proc.KillFinal

/-!
# How a process leaves the kernel

The return path of `trap_handler`, seen from the process that runs: the signal
check finds it as `atCheck` says, and it goes on in user mode where it was, enters
a handler, is stopped, or ends.
-/

namespace Sbunix.Proc

open Lib.Kern Lib

/-- `p` is the process that runs. -/
structure At (k : Kernel) (p : Pcb) : Prop where
  current : k.currentProc = some p
  running : p.state = .running

variable {status : ℤ} {y : Kern Kernel Flow} {f : Flow} {k : Kernel} {path : RetPath} {c : Pcb}
  {k' : Kernel} {p : Pcb} {g : Pcb → Pcb}

theorem currentProc_modify (hp : k.currentProc = some p)
    (hg : ∀ q, (g q).pid = q.pid) : (k.modify p.pid g).currentProc = some (g p) := by
  have hfind := modify_find hg (currentProc_find hp)
  unfold Kernel.currentProc
  rw [Kernel.modify_current, (currentProc_mem hp).2]
  exact hfind

theorem At.modify (h : At k p) (hg : ∀ q, (g q).pid = q.pid)
    (hs : (g p).state = p.state) : At (k.modify p.pid g) (g p) :=
  ⟨currentProc_modify h.current hg, hs.trans h.running⟩

theorem At.mem (h : At k p) : p ∈ k.procs := (currentProc_mem h.current).1

theorem At.modifyCurrent {u : Unit} (h : At k p)
    (he : modifyCurrent g k = (some u, k')) : k' = k.modify p.pid g := by
  unfold Sbunix.Proc.modifyCurrent at he
  rw [(currentProc_mem h.current).2] at he
  cases he
  rfl

theorem At.exit_bind (h : At k p)
    (he : (do if ← procExitCurrent status then pure Flow.gone else y) k = (some f, k')) :
    f = .gone ∧ ZombieAt k' p.pid := by
  obtain ⟨gone, k₁, h1, h2⟩ := bind_eq_some.mp he
  obtain rfl := procExitCurrent_gone ⟨p, h.current, h.running⟩ h1
  cases h2
  exact ⟨rfl, exit_zombie h.current h.running h1⟩

theorem At.exitIf_bind {c : Bool} (h : At k p)
    (he : (do if ← exitIf c status then pure Flow.gone else y) k = (some f, k')) :
    f = .gone ∧ ZombieAt k' p.pid ∨ c = false ∧ y k = (some f, k') := by
  cases c with
  | false => exact .inr ⟨rfl, he⟩
  | true => exact .inl (h.exit_bind he)

/-! ### Up to the signal check -/

/-- The process as `check_signals` finds it. -/
def Pcb.atCheck (path : RetPath) (p : Pcb) : Pcb :=
  match path with
  | .checked => p
  | .ecall ret origA0 =>
    let q := { p with tf := setAt p.tf TF_A0 (BitVec.ofInt 64 ret) }
    if q.isUser ∧ ret = -ERESTARTSYS then (q.restarted origA0).picked else q
  | .fault => if p.isUser then p.raise SIGSEGV else p

theorem restarted_eq (p : Pcb) (origA0 : BitVec 64) :
    p.restarted origA0 = { p with tf := (p.restarted origA0).tf } := by
  unfold Pcb.restarted
  dsimp only
  split <;> rfl

theorem atCheck_eq (path : RetPath) (p : Pcb) : p.atCheck path =
    { p with tf := (p.atCheck path).tf, sigPending := (p.atCheck path).sigPending } := by
  cases path with
  | checked => rfl
  | ecall ret origA0 =>
    unfold Pcb.atCheck
    dsimp only
    split
    · rw [restarted_eq]
      rfl
    · rfl
  | fault =>
    unfold Pcb.atCheck
    dsimp only
    split <;> rfl

theorem atCheck_pid (path : RetPath) (p : Pcb) : (p.atCheck path).pid = p.pid := by
  rw [atCheck_eq]

theorem atCheck_isUser (path : RetPath) (p : Pcb) : (p.atCheck path).isUser = p.isUser := by
  rw [atCheck_eq]

variable {copied : Bool} {sig : ℕ}

theorem sendSegv_at (h : At k p) : At (sendSignal k p.pid SIGSEGV) (p.atCheck .fault) := by
  cases huser : p.isUser with
  | false =>
    have hnone : sendSignal k p.pid SIGSEGV = k := by
      unfold sendSignal
      rw [currentProc_find h.current]
      exact if_pos (.inl huser)
    rw [hnone, Pcb.atCheck, if_neg (by simp [huser])]
    exact h
  | true =>
    have hraise : At (k.modify p.pid (Pcb.raise SIGSEGV)) (p.raise SIGSEGV) :=
      h.modify (g := Pcb.raise SIGSEGV) (fun _ => rfl) rfl
    have hwake : (p.raise SIGSEGV).wakeDeliverable = p.raise SIGSEGV :=
      if_neg fun hs => absurd (hs.1.symm.trans h.running) nofun
    have hpid : ∀ q : Pcb, q.wakeDeliverable.pid = q.pid := by
      intro q
      unfold Pcb.wakeDeliverable
      split <;> rfl
    have hlast := hraise.modify (g := Pcb.wakeDeliverable) hpid (by rw [hwake])
    rw [hwake] at hlast
    rw [sendSegv_eq (currentProc_find h.current) huser, Pcb.atCheck, if_pos huser]
    exact hlast

theorem trapCheck_at {k' : Kernel} (h : At k p) (he : trapCheck path copied k = (some f, k')) :
    ∃ k₁, At k₁ (p.atCheck path) ∧ checkSignals copied k₁ = (some f, k') := by
  cases path with
  | checked => exact ⟨k, h, he⟩
  | ecall ret origA0 =>
    obtain ⟨⟨⟩, k₁, h1, he⟩ := bind_eq_some.mp he
    rw [h.modifyCurrent h1] at he
    have hstore : At
        (k.modify p.pid fun q => { q with tf := setAt q.tf TF_A0 (BitVec.ofInt 64 ret) })
        { p with tf := setAt p.tf TF_A0 (BitVec.ofInt 64 ret) } := h.modify (fun _ => rfl) rfl
    unfold checkSignalsAfterSyscall at he
    rw [get_bind] at he
    simp only [hstore.current] at he
    unfold Pcb.atCheck
    dsimp only
    by_cases hre : p.isUser = true ∧ ret = -ERESTARTSYS
    · rw [if_pos hre, modify_bind] at he
      rw [if_pos hre]
      refine ⟨_, hstore.modify (g := fun q => (q.restarted origA0).picked) ?_ ?_, he⟩
      · exact fun q => restarted_picked_pid q origA0
      · rw [restarted_eq]
        rfl
    · rw [if_neg hre] at he
      rw [if_neg hre]
      exact ⟨_, hstore, he⟩
  | fault =>
    obtain ⟨⟨⟩, k₁, h1, he⟩ := bind_eq_some.mp he
    unfold sendCurrent at h1
    rw [(currentProc_mem h.current).2] at h1
    cases h1
    exact ⟨_, sendSegv_at h, he⟩

/-! ### The check -/

/-- The signal whose handler the process enters, if it enters one. -/
def Pcb.handles (copied : Bool) (c : Pcb) : Option ℕ :=
  let sig := pickActionable c
  if c.isUser ∧ sig ≠ 0 ∧ sig ≠ SIGKILL ∧ sig ≠ SIGSTOP ∧ (c.sigHandlers sig).handler ≠ SIG_DFL ∧
      frameBad (frameVa c sig) = false ∧ copied then some sig
  else none

theorem handles_pick (h : c.handles copied = some sig) :
    sig = pickActionable c ∧ pickActionable c ≠ 0 := by
  unfold Pcb.handles at h
  dsimp only at h
  split at h
  · next hc =>
    cases h
    exact ⟨rfl, hc.2.1⟩
  · cases h

theorem handles_caught (h : c.handles copied = some sig) :
    c.isUser = true ∧ (c.sigHandlers sig).handler ≠ SIG_DFL := by
  unfold Pcb.handles at h
  dsimp only at h
  split at h
  · next hc =>
    cases h
    exact ⟨hc.1, hc.2.2.2.2.1⟩
  · cases h

theorem pickActionable_picked (p : Pcb) : pickActionable p.picked = pickActionable p := by
  rw [pickActionable_eq, pickActionable_eq]
  congr 1
  refine List.find?_congr fun i hi => ?_
  obtain ⟨h1, h2⟩ := List.mem_range'_1.mp hi
  exact actionable_picked p h1 (by unfold NSIG at *; omega)

theorem pick_actionable (h : pickActionable p ≠ 0) : actionable p (pickActionable p) = true := by
  rw [pickActionable_eq] at h ⊢
  rcases hf : (List.range' 1 (NSIG - 1)).find? (actionable p) with _ | i
  · rw [hf] at h
    exact absurd rfl h
  · exact List.find?_some hf

theorem restarted_pick (p : Pcb) (origA0 : BitVec 64) :
    pickActionable (p.restarted origA0).picked = pickActionable p := by
  rw [pickActionable_picked, restarted_eq]
  rfl

theorem atCheck_restart {origA0 : BitVec 64}
    (h : (p.atCheck (.ecall (-ERESTARTSYS) origA0)).handles copied = some sig)
    (hflag : (p.sigHandlers sig).flags &&& SA_RESTART ≠ 0) :
    (p.atCheck (.ecall (-ERESTARTSYS) origA0)).tf =
      setAt (setAt p.tf TF_SEPC (p.tf TF_SEPC - 4)) TF_A0 origA0 := by
  obtain ⟨hsig, hpick⟩ := handles_pick h
  obtain ⟨huser, hdfl⟩ := handles_caught h
  rw [atCheck_isUser] at huser
  have hcheck : p.atCheck (.ecall (-ERESTARTSYS) origA0) =
      (Pcb.restarted origA0
        { p with tf := setAt p.tf TF_A0 (BitVec.ofInt 64 (-ERESTARTSYS)) }).picked :=
    if_pos ⟨huser, rfl⟩
  rw [hcheck, restarted_pick] at hsig hpick
  have hhandlers : (p.atCheck (.ecall (-ERESTARTSYS) origA0)).sigHandlers = p.sigHandlers := by
    rw [atCheck_eq]
  have hign : (p.sigHandlers sig).handler ≠ SIG_IGN := by
    intro hign
    have hact := pick_actionable hpick
    rw [← hsig, actionable, sigIsNoOp] at hact
    simp [hign] at hact
  rw [hhandlers] at hdfl
  rw [hcheck]
  unfold Pcb.restarted
  dsimp only
  rw [← hsig, if_pos ⟨hsig ▸ hpick, hdfl, hign, hflag⟩]
  funext i
  simp only [Pcb.picked, setAt]
  split_ifs <;> first | rfl | contradiction

/-- The process as it enters the handler of `sig`. -/
def Pcb.entered (sig : ℕ) (c : Pcb) : Pcb :=
  { (c.picked.drop sig) with sigSuspendActive := false }.redirected sig (c.sigHandlers sig).handler

def Pcb.stops (c : Pcb) : Prop :=
  c.isUser = true ∧ (pickActionable c = SIGSTOP ∨
    (c.sigHandlers (pickActionable c)).handler = SIG_DFL ∧ defaultAction (pickActionable c) = .stop)

instance (c : Pcb) : Decidable c.stops := inferInstanceAs (Decidable (_ ∧ _))

/-- The process in front of `proc_stop_current`. -/
def Pcb.halted (c : Pcb) : Pcb := (c.picked.drop (pickActionable c)).stopFor (pickActionable c)

/-- How `check_signals` ends for the process `c`. -/
inductive Checked (copied : Bool) (c : Pcb) (k' : Kernel) : Flow → Prop
  | kernel : c.isUser = false → At k' c → Checked copied c k' .back
  | plain : c.isUser = true → pickActionable c = 0 → At k' c.picked.restoreMask →
    Checked copied c k' .back
  | handler {sig : ℕ} : c.handles copied = some sig → At k' (c.entered sig) →
    Checked copied c k' .back
  | stopped {q : Pcb} : c.stops → k'.current = some c.pid → q ∈ k'.procs → Sent NotKill c.halted q →
    Checked copied c k' .stopped
  | gone : pickActionable c ≠ 0 → ZombieAt k' c.pid → Checked copied c k' .gone

theorem stopCurrent_checked (hstop : c.stops) (h : At k (c.picked.drop (pickActionable c)))
    (he : stopCurrent c (pickActionable c) k = (some f, k')) : Checked copied c k' f := by
  unfold stopCurrent at he
  rw [modify_bind] at he
  cases he
  have hsends := notifyParent_sends (k.modify c.pid (Pcb.stopFor (pickActionable c))) c.parentPid
  have hhalt : c.halted ∈ (k.modify c.pid (Pcb.stopFor (pickActionable c))).procs :=
    Kernel.mem_modify.mpr ⟨_, h.mem, if_pos rfl⟩
  obtain ⟨q, hq, hs⟩ := forall₂_mem_left hsends.procs hhalt
  refine .stopped hstop ?_ hq hs
  rw [hsends.frame]
  exact (currentProc_mem h.current).2

theorem buildSigframe_checked (hpick : pickActionable c ≠ 0)
    (h : At k (c.picked.drop (pickActionable c)))
    (hhandles : frameBad (frameVa c (pickActionable c)) = false → copied = true →
      c.handles copied = some (pickActionable c))
    (he : buildSigframeAndRedirect c (pickActionable c) (c.sigHandlers (pickActionable c)).handler
      copied k = (some f, k')) : Checked copied c k' f := by
  unfold buildSigframeAndRedirect at he
  rcases h.exitIf_bind he with ⟨rfl, hz⟩ | ⟨hbad, he⟩
  · exact .gone hpick hz
  rw [modify_bind] at he
  have hclear : At (k.modify c.pid fun q => { q with sigSuspendActive := false })
      { c.picked.drop (pickActionable c) with sigSuspendActive := false } :=
        h.modify (fun _ => rfl) rfl
  rcases hclear.exitIf_bind he with ⟨rfl, hz⟩ | ⟨hcopied, he⟩
  · exact .gone hpick hz
  rw [modify_bind] at he
  cases he
  refine .handler (hhandles hbad (by simpa using hcopied)) ?_
  exact hclear.modify (g := fun q => q.redirected (pickActionable c) _) (fun _ => rfl) rfl

theorem deliver_checked (huser : c.isUser = true) (hpick : pickActionable c ≠ 0)
    (hkill : pickActionable c ≠ SIGKILL) (h : At k (c.picked.drop (pickActionable c)))
    (he : deliver c (pickActionable c) copied k = (some f, k')) : Checked copied c k' f := by
  unfold deliver at he
  rw [Kern.ite_apply] at he
  split at he
  · next hstop => exact stopCurrent_checked ⟨huser, .inl hstop⟩ h he
  next hstop =>
  rw [Kern.ite_apply] at he
  split at he
  · next hdfl =>
    rw [Kern.ite_apply] at he
    split at he
    · next hact => exact stopCurrent_checked ⟨huser, .inr ⟨hdfl, hact⟩⟩ h he
    · obtain ⟨rfl, hz⟩ := h.exit_bind he
      exact .gone hpick hz
  · next hdfl =>
    refine buildSigframe_checked hpick h (fun hbad hcopied => ?_) he
    exact if_pos ⟨huser, hpick, hkill, hstop, hdfl, hbad, hcopied⟩

theorem checkSignals_checked (h : At k c) (he : checkSignals copied k = (some f, k')) :
    Checked copied c k' f := by
  unfold checkSignals at he
  rw [get_bind] at he
  simp only [h.current] at he
  rw [Kern.ite_apply] at he
  split at he
  · next huser =>
    cases he
    exact .kernel huser h
  next huser =>
  have huser : c.isUser = true := by simpa using huser
  have hpicked : At (k.modify c.pid Pcb.picked) c.picked := h.modify (fun _ => rfl) rfl
  rw [modify_bind, Kern.ite_apply] at he
  split at he
  · next hpick =>
    rw [modify_bind] at he
    cases he
    refine .plain huser hpick (hpicked.modify (fun q => ?_) ?_)
    · exact (Quiet.restoreMask (D := True) q).pid
    · unfold Pcb.restoreMask
      split <;> rfl
  next hpick =>
  have hdrop : At ((k.modify c.pid Pcb.picked).modify c.pid (Pcb.drop (pickActionable c)))
      (c.picked.drop (pickActionable c)) := hpicked.modify (fun _ => rfl) rfl
  rw [modify_bind, Kern.ite_apply] at he
  split at he
  · obtain ⟨rfl, hz⟩ := hdrop.exit_bind he
    exact .gone hpick hz
  · next hkill => exact deliver_checked huser hpick hkill hdrop he

/-! ### Back to user mode -/

/-- How the return path ends for the process `p`: `q` is the process afterwards. -/
inductive Left (path : RetPath) (copied : Bool) (p : Pcb) : Pcb → Prop
  | kernel : p.isUser = false → Left path copied p { p.atCheck path with resume := .user }
  | plain : p.isUser = true → pickActionable (p.atCheck path) = 0 →
    Left path copied p { (p.atCheck path).picked.restoreMask with resume := .user }
  | handler {sig : ℕ} : (p.atCheck path).handles copied = some sig →
    Left path copied p { (p.atCheck path).entered sig with resume := .user }
  | stopped {q : Pcb} : (p.atCheck path).stops → Sent NotKill (p.atCheck path).halted q →
    Left path copied p { q with resume := .stop path.check }
  | dead {q : Pcb} : q.state = .zombie →
    (pickActionable (p.atCheck path) = 0 → badReturn (p.atCheck path).tf = true) →
    Left path copied p q

theorem leaveTrap_back {check : Bool} (h : At k p) (he : leaveTrap check .back k = (some (), k')) :
    ZombieAt k' p.pid ∧ badReturn p.tf = true ∨ At k' { p with resume := .user } := by
  have hsettle : ∀ {k₁ : Kernel}, At k₁ p → settle check .back k₁ = (some (), k') →
      At k' { p with resume := .user } := by
    intro k₁ h₁ he
    rw [h₁.modifyCurrent he]
    exact h₁.modify (fun _ => rfl) rfl
  unfold leaveTrap at he
  obtain ⟨f, k₁, h1, he⟩ := bind_eq_some.mp he
  unfold userCheck at h1
  rw [Kern.ite_apply] at h1
  split at h1
  · unfold checkUserReturn at h1
    rw [get_bind] at h1
    simp only [h.current] at h1
    cases hbad : badReturn p.tf with
    | false =>
      rw [hbad] at h1
      cases h1
      exact .inr (hsettle h he)
    | true =>
      rw [hbad] at h1
      obtain ⟨rfl, hz⟩ := h.exit_bind h1
      cases he
      exact .inl ⟨hz, rfl⟩
  · cases h1
    exact .inr (hsettle h he)

theorem restoreMask_eq (p : Pcb) : p.restoreMask =
    { p with sigBlocked := p.restoreMask.sigBlocked, sigSuspendActive := false } := by
  unfold Pcb.restoreMask
  split
  · rfl
  · next h =>
    have h : p.sigSuspendActive = false := by simpa using h
    rw [← h]

theorem restoreMask_tf (p : Pcb) : p.restoreMask.tf = p.tf := by
  rw [restoreMask_eq]

theorem entered_pid (c : Pcb) (sig : ℕ) : (c.entered sig).pid = c.pid := rfl

theorem trapReturn_left {copied : Bool} (h : At k p)
    (he : trapReturn path copied k = (some (), k')) :
    ∃ q ∈ k'.procs, q.pid = p.pid ∧ Left path copied p q := by
  unfold trapReturn at he
  obtain ⟨f, k₂, h1, h2⟩ := bind_eq_some.mp he
  obtain ⟨k₁, hat, hcheck⟩ := trapCheck_at h h1
  have hpid := atCheck_pid path p
  have hback : ∀ {c : Pcb}, At k₂ c → c.pid = p.pid → f = .back →
      (pickActionable (p.atCheck path) = 0 → c.tf = (p.atCheck path).tf) →
      Left path copied p { c with resume := .user } →
      ∃ q ∈ k'.procs, q.pid = p.pid ∧ Left path copied p q := by
    rintro c hc hcpid rfl htf hleft
    rcases leaveTrap_back hc h2 with ⟨⟨q, hq, hqpid, hz⟩, hbad⟩ | hat
    · exact ⟨q, hq, hqpid.trans hcpid, .dead hz fun hpick => htf hpick ▸ hbad⟩
    · exact ⟨_, hat.mem, hcpid, hleft⟩
  cases checkSignals_checked hat hcheck with
  | kernel huser hc =>
    exact hback hc hpid rfl (fun _ => rfl) (.kernel ((atCheck_isUser path p).symm.trans huser))
  | plain huser hpick hc =>
    refine hback hc ?_ rfl (fun _ => restoreMask_tf _)
      (.plain ((atCheck_isUser path p).symm.trans huser) hpick)
    exact (Quiet.restoreMask (D := True) _).pid.trans hpid
  | handler hsig hc =>
    exact hback hc ((entered_pid _ _).trans hpid) rfl
      (fun hpick => absurd hpick (handles_pick hsig).2) (.handler hsig)
  | @stopped q hstop hcur hq hs =>
    obtain ⟨f', k₃, h3, h4⟩ := bind_eq_some.mp h2
    cases h3
    change modifyCurrent (fun q => { q with resume := .stop path.check }) k₂ = _ at h4
    unfold modifyCurrent at h4
    rw [hcur] at h4
    cases h4
    have hqpid : q.pid = (p.atCheck path).pid := hs.pid
    exact ⟨_, Kernel.mem_modify.mpr ⟨q, hq, if_pos hqpid⟩, hqpid.trans hpid, .stopped hstop hs⟩
  | gone hpick hz =>
    obtain ⟨f', k₃, h3, h4⟩ := bind_eq_some.mp h2
    cases h3
    cases h4
    obtain ⟨q, hq, hqpid, hz⟩ := hz
    exact ⟨q, hq, hqpid.trans hpid, .dead hz fun h => absurd h hpick⟩

end Sbunix.Proc
