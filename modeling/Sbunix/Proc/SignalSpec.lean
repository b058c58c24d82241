import Sbunix.Proc.Effects

/-!
# The signal calls and the return path

The signal calls and job control are quiet. The signal check of the return path
is quiet up to the point where it stops or ends the process; what it keeps is
stated once, for any property of the kernel that quiet steps, a stop and an
exit keep.
-/

namespace Sbunix.Proc

open List Lib.Kern Lib

/-! ### Choosing a signal -/

theorem pickStep_pending (p : Pcb) (acc : BitVec 64 × ℕ) (i j : ℕ)
    (h : (pickStep p acc i).1.getLsbD j = true) : acc.1.getLsbD j = true := by
  unfold pickStep at h
  split at h
  · split at h
    · simp only [BitVec.getLsbD_and, Bool.and_eq_true] at h
      exact h.1
    · split at h <;> exact h
  · exact h

theorem pickLoop_pending (p : Pcb) {j : ℕ} (h : (pickLoop p).1.getLsbD j = true) :
    p.sigPending.getLsbD j = true := by
  have hfold : ∀ (l : List ℕ) (acc : BitVec 64 × ℕ),
      (l.foldl (pickStep p) acc).1.getLsbD j = true → acc.1.getLsbD j = true := by
    intro l
    induction l with
    | nil => exact fun _ h => h
    | cons i l ih => exact fun acc h => pickStep_pending p acc i j (ih _ h)
  exact hfold _ _ h

namespace Quiet

variable {D : Prop} (p : Pcb)

theorem picked : Quiet D p p.picked := Quiet.pending p (pickLoop_pending p)

theorem drop (sig : ℕ) (p : Pcb) : Quiet D p (p.drop sig) := by
  apply Quiet.pending
  intro h
  simp only [BitVec.getLsbD_and, Bool.and_eq_true] at h
  exact h.1

/-! ### Masks and dispositions -/

theorem redirected (sig : ℕ) (h : BitVec 64) (p : Pcb) : Quiet D p (p.redirected sig h) :=
  of_sig rfl rfl rfl (fun hp s hs => ⟨strip_getLsbD _ hs, (hp s hs).2⟩) ⟨rfl, rfl⟩

theorem clearSuspend : Quiet D p { p with sigSuspendActive := false } :=
  of_sig rfl rfl rfl (fun hp s hs => ⟨(hp s hs).1, by simp, (hp s hs).2.2⟩) ⟨rfl, rfl⟩

theorem restoreMask : Quiet D p p.restoreMask := by
  unfold Pcb.restoreMask
  split
  · next ha =>
    refine of_sig rfl rfl rfl (fun hp s hs => ?_) ⟨rfl, rfl⟩
    exact ⟨(hp s hs).2.1 ha, by simp, (hp s hs).2.2⟩
  · exact Quiet.refl p

theorem suspended (mask : BitVec 64) (p : Pcb) : Quiet D p (p.suspended mask) :=
  of_sig rfl rfl rfl
    (fun hp s hs => ⟨strip_getLsbD _ hs, fun _ => (hp s hs).1, (hp s hs).2.2⟩) ⟨rfl, rfl⟩

theorem setHandler {sig : ℕ} (hsig : ¬ Unblockable sig) (a : SigAction) :
    Quiet D p (p.setHandler sig a) := by
  refine of_sig rfl rfl rfl (fun hp s hs => ?_) ⟨rfl, rfl⟩
  have hne : s ≠ sig := fun he => hsig (he ▸ hs)
  simpa [Pcb.setHandler, hne] using hp s hs

theorem setBlocked {m : BitVec 64}
    (hm : SigOk p → ∀ s, Unblockable s → m.getLsbD s = false) :
    Quiet D p { p with sigBlocked := m } :=
  of_sig rfl rfl rfl (fun hp s hs => ⟨hm hp s hs, (hp s hs).2⟩) ⟨rfl, rfl⟩

theorem restored (fr : Sigframe) :
    Quiet D p { p with tf := restoredFrame fr, sigBlocked := strip fr.savedMask } :=
  of_sig rfl rfl rfl (fun hp s hs => ⟨strip_getLsbD _ hs, (hp s hs).2⟩) ⟨rfl, rfl⟩

theorem setTf (tf : TrapFrame) : Quiet D p { p with tf := tf } :=
  of_sig rfl rfl rfl id ⟨rfl, rfl⟩

theorem restarted (origA0 : BitVec 64) (p : Pcb) : Quiet D p (p.restarted origA0) := by
  unfold Pcb.restarted
  dsimp only
  split <;> exact setTf p _

end Quiet

/-! ### The calls -/

variable {α : Type} {k : Kernel} {R : Pcb → Pcb → Prop} {g : Pcb → Pcb} {y : Kern Kernel Flow}
  {p : Pcb} {D : Prop}

/-- The signal settings of the running process are left alone or replaced. -/
def Sets (D : Prop) (k k' : Kernel) : Prop :=
  k' = k ∨ ∃ p g, k.currentProc = some p ∧ k' = k.modify p.pid g ∧ (∀ p, Quiet D p (g p)) ∧
    ∀ p, g p = { p with
      sigBlocked := (g p).sigBlocked, sigHandlers := (g p).sigHandlers, sigAltstack :=
        (g p).sigAltstack }

variable {x : Kern Kernel α} {k' : Kernel}

theorem quiet_of_sets (h : Kern.Rel (Sets D) x) : Kern.Rel (QuietAll D) x := by
  intro k a k' he
  rcases h k a k' he with rfl | ⟨p, g, -, rfl, hg, -⟩
  · exact QuietAll.refl _
  · exact QuietAll.modify hg

theorem sysSigaction_sets (sig : ℤ) (act : Option (Option SigAction)) (oldOk : Bool) :
    Kern.Rel (Sets D) (sysSigaction sig act oldOk) := by
  intro k a k' he
  unfold sysSigaction at he
  repeat' split at he
  all_goals
    cases he
    first
      | exact .inl rfl
      | refine .inr ⟨_, _, ‹_›, rfl, fun p => Quiet.setHandler p ?_ _, fun _ => rfl⟩
        unfold Unblockable
        omega

theorem sysSigprocmask_sets (how : ℤ) (set : Option (Option (BitVec 64))) (oldOk : Bool) :
    Kern.Rel (Sets D) (sysSigprocmask how set oldOk) := by
  intro k a k' he
  unfold sysSigprocmask at he
  repeat' split at he
  all_goals
    cases he
    first
      | exact .inl rfl
      | refine .inr ⟨_, _, ‹_›, rfl, fun p => Quiet.setBlocked p fun hp s hs => ?_, fun _ => rfl⟩
        have hb := (hp s hs).1
        simp [hb, strip_getLsbD _ hs]

theorem sysSigaltstack_sets (ss : Option (Option SigStack)) (ossOk : Bool) :
    Kern.Rel (Sets D) (sysSigaltstack ss ossOk) := by
  intro k a k' he
  unfold sysSigaltstack at he
  repeat' split at he
  all_goals
    cases he
    first
      | exact .inl rfl
      | exact .inr ⟨_, _, ‹_›, rfl, fun _ => Quiet.of_sig rfl rfl rfl id ⟨rfl, rfl⟩, fun _ => rfl⟩

theorem sysSigsuspend_quiet (mask : Option (Option (BitVec 64))) :
    Kern.Rel (QuietAll D) (sysSigsuspend mask) := by
  intro k a k' he
  unfold sysSigsuspend at he
  split at he <;> cases he
  any_goals exact QuietAll.refl k
  exact QuietAll.modify (Quiet.suspended _)

theorem sysSetpgid_quiet (pid pgid : ℤ) : Kern.Rel (QuietAll D) (sysSetpgid pid pgid) := by
  intro k a k' he
  unfold sysSetpgid at he
  dsimp only at he
  repeat' split at he
  all_goals
    cases he
    first
      | exact QuietAll.refl k
      | exact QuietAll.modify fun _ => Quiet.of_sig rfl rfl rfl id ⟨rfl, rfl⟩

theorem sysSetsid_quiet : Kern.Rel (QuietAll D) sysSetsid := by
  intro k a k' he
  unfold sysSetsid at he
  dsimp only at he
  split at he
  · cases he
    exact QuietAll.refl k
  split at he
  · cases he
    exact QuietAll.refl k
  next me _ _ =>
  have hme : QuietAll D k (k.modify me.pid fun q => { q with sid := me.pid, pgid := me.pid }) :=
    QuietAll.modify fun _ => Quiet.of_sig rfl rfl rfl id ⟨rfl, rfl⟩
  cases he
  split
  · exact ⟨hme.current, hme.nextPid, hme.initPid, hme.generationSeq, hme.files, hme.procs⟩
  · exact hme

theorem sysKill_sends (pid sig : ℤ) : Kern.Rel (Sends fun _ => True) (sysKill pid sig) := by
  intro k a k' he
  unfold sysKill at he
  dsimp only at he
  have hrefl : Sends (fun _ => True) k k := Sends.refl k
  split at he
  · cases he
    exact hrefl
  split at he
  · split at he <;> cases he
    · exact hrefl
    · split
      · exact sendSignalTo_sends k trivial _ trivial
      · exact hrefl
  split at he
  · cases he
    split
    · exact sendEach_sends k trivial _ fun _ _ => trivial
    · exact hrefl
  split at he <;> cases he
  · exact hrefl
  · split
    · exact sendEach_sends k trivial _ fun _ _ => trivial
    · exact hrefl

/-! ### The table -/

/-- Pids are distinct, and no half-made process is in the table. -/
structure Table (k : Kernel) : Prop where
  nodup : (k.procs.map Pcb.pid).Nodup
  used : ∀ p ∈ k.procs, p.state ≠ .unused

def Running (k : Kernel) : Prop := ∃ p, k.currentProc = some p ∧ p.state = .running

theorem runsAt.running {r : Resume} (h : runsAt k r) : Running k := by
  obtain ⟨p, hp, hs, _⟩ := h
  exact ⟨p, hp, hs⟩

variable {q : Pcb} {pid : ℤ}

theorem Table.find_eq (ht : Table k) (hp : p ∈ k.procs) : k.find p.pid = some p := by
  have hnd := ht.nodup
  unfold Kernel.find
  generalize k.procs = l at hp hnd
  induction l with
  | nil => simp at hp
  | cons a l ih =>
    rw [map_cons, nodup_cons] at hnd
    rcases mem_cons.mp hp with rfl | hp
    · simp
    · have hne : a.pid ≠ p.pid := fun he => hnd.1 (he ▸ mem_map_of_mem hp)
      simpa [find?_cons, hne] using ih hp hnd.2

theorem Table.eq_of_pid (ht : Table k) (hp : p ∈ k.procs) (hq : q ∈ k.procs) (h : p.pid = q.pid) :
    p = q := by
  have := ht.find_eq hp
  rw [h, ht.find_eq hq] at this
  exact (Option.some.inj this).symm

theorem Table.eq_current (ht : Table k) (hp : k.currentProc = some p) (hq : q ∈ k.procs)
    (h : q.pid = p.pid) : q = p :=
  ht.eq_of_pid hq (currentProc_mem hp).1 h

theorem forall₂_find (hR : ∀ {p q}, R p q → q.pid = p.pid) {l l' : List Pcb}
    (h : List.Forall₂ R l l') (hp : l.find? (·.pid = pid) = some p) :
    ∃ q, l'.find? (·.pid = pid) = some q ∧ R p q := by
  induction h with
  | nil => simp at hp
  | cons hd _ ih =>
    rw [find?_cons] at hp ⊢
    rw [hR hd]
    split at hp
    · cases hp
      exact ⟨_, rfl, hd⟩
    · exact ih hp

theorem QuietAll.find (h : QuietAll D k k') (hp : k.find pid = some p) :
    ∃ q, k'.find pid = some q ∧ Quiet D p q :=
  forall₂_find Quiet.pid h.procs hp

theorem QuietAll.currentProc (h : QuietAll D k k') (hp : k.currentProc = some p) :
    ∃ q, k'.currentProc = some q ∧ Quiet D p q := by
  unfold Kernel.currentProc at hp ⊢
  obtain ⟨pid, hpid, hfind⟩ := Option.bind_eq_some_iff.mp hp
  obtain ⟨q, hq, hs⟩ := h.find hfind
  exact ⟨q, by rw [h.current, hpid]; exact hq, hs⟩

theorem QuietAll.running (h : QuietAll D k k') (hr : Running k) : Running k' := by
  obtain ⟨p, hp, hs⟩ := hr
  obtain ⟨q, hq, hquiet⟩ := h.currentProc hp
  exact ⟨q, hq, hquiet.state.running.mpr hs⟩

theorem forall₂_pids (hR : ∀ p q, R p q → q.pid = p.pid) {l l' : List Pcb}
    (h : List.Forall₂ R l l') : l'.map Pcb.pid = l.map Pcb.pid := by
  induction h with
  | nil => rfl
  | cons hd _ ih => rw [map_cons, map_cons, hR _ _ hd, ih]

theorem Table.forall₂ (ht : Table k)
    (hR : ∀ p q, R p q → q.pid = p.pid ∧ (p.state ≠ .unused → q.state ≠ .unused))
    (h : List.Forall₂ R k.procs k'.procs) : Table k' := by
  refine ⟨forall₂_pids (fun p q hpq => (hR p q hpq).1) h ▸ ht.nodup, fun q hq => ?_⟩
  obtain ⟨p, hp, hpq⟩ := forall₂_mem h hq
  exact (hR p q hpq).2 (ht.used p hp)

theorem Table.of_procs (ht : Table k) (h : k'.procs = k.procs) : Table k' :=
  ⟨h ▸ ht.nodup, h ▸ ht.used⟩

theorem Table.modifyAll (ht : Table k)
    (hg : ∀ p, (g p).pid = p.pid ∧ (p.state ≠ .unused → (g p).state ≠ .unused)) :
    Table (k.modifyAll g) := by
  refine ht.forall₂ ?_ (forall₂_map_right_iff.mpr (forall₂_same.mpr fun _ _ => rfl))
  rintro p _ rfl
  exact hg p

theorem modify_eq_modifyAll (k : Kernel) (pid : ℤ) (g : Pcb → Pcb) :
    k.modify pid g = k.modifyAll fun p => if p.pid = pid then g p else p := rfl

theorem Table.modify (ht : Table k)
    (hg : ∀ p, (g p).pid = p.pid ∧ (p.state ≠ .unused → (g p).state ≠ .unused)) :
    Table (k.modify pid g) := by
  rw [modify_eq_modifyAll]
  refine ht.modifyAll fun p => ?_
  split
  · exact hg p
  · exact ⟨rfl, id⟩

theorem Table.sends (ht : Table k) {S : ℕ → Prop} (h : Sends S k k') : Table k' := by
  refine ht.forall₂ (fun p q hpq => ⟨hpq.pid, fun hu he => ?_⟩) h.procs
  have hwoken : Woken p.state q.state := hpq.state
  exact hu (hwoken.unused.mp he)

theorem QuietAll.pids (h : QuietAll D k k') : k'.procs.map Pcb.pid = k.procs.map Pcb.pid :=
  forall₂_pids (fun _ _ hpq => hpq.pid) h.procs

theorem QuietAll.table (h : QuietAll D k k') (ht : Table k) : Table k' :=
  ht.forall₂ (fun _ _ hpq => ⟨hpq.pid, fun hu he => hu (hpq.state.unused.mp he)⟩) h.procs

/-! ### The return path, for any property that stops and exits keep -/

theorem procExitCurrent_gone {status : ℤ} {gone : Bool} (hr : Running k)
    (he : procExitCurrent status k = (some gone, k')) : gone = true := by
  obtain ⟨p, hp, hs⟩ := hr
  unfold procExitCurrent at he
  rw [get_bind] at he
  simp only [hp, hs, ne_eq, not_true_eq_false, if_false] at he
  obtain ⟨_, _, _, he⟩ := bind_eq_some.mp he
  obtain ⟨_, _, _, he⟩ := bind_eq_some.mp he
  obtain ⟨_, _, _, he⟩ := bind_eq_some.mp he
  exact (pure_eq_some.mp he).1.symm

/-- A property of the kernel that the return path keeps. -/
structure Robust (Good : Kernel → Prop) : Prop where
  quiet : ∀ {k k'}, QuietAll True k k' → Good k → Good k'
  stop : ∀ {k p}, Good k → k.currentProc = some p → p.state = .running →
    ∀ sig, Good (k.modify p.pid (Pcb.stopFor sig))
  exit : ∀ {k k' status gone}, Good k → Running k →
    procExitCurrent status k = (some gone, k') → Good k'

/-- From a good state in which `pid` is running, `x` leads to a good state, with
`pid` still running if `x` returns to the trap handler. -/
def Leads (Good : Kernel → Prop) (pid : ℤ) (x : Kern Kernel Flow) : Prop :=
  ∀ k f k', Good k → Running k → k.current = some pid → x k = (some f, k') →
    Good k' ∧ (f = .back → Running k' ∧ k'.current = some pid)

section

variable {Good : Kernel → Prop}

theorem Leads.ret (f : Flow) : Leads Good pid (pure f) := by
  intro k r k' hk hr hc he
  cases he
  exact ⟨hk, fun _ => ⟨hr, hc⟩⟩

theorem Leads.ite {c : Prop} [Decidable c] {x : Kern Kernel Flow} (hx : Leads Good pid x)
    (hy : Leads Good pid y) : Leads Good pid (if c then x else y) := by
  split
  · exact hx
  · exact hy

variable (hG : Robust Good)

include hG

theorem Leads.quiet_bind {f : α → Kern Kernel Flow}
    (hx : Kern.Rel (QuietAll True) x) (hf : ∀ a, Leads Good pid (f a)) :
    Leads Good pid (x >>= f) := by
  intro k r k' hk hr hc he
  obtain ⟨a, k₁, h1, h2⟩ := bind_eq_some.mp he
  have hq := hx k a k₁ h1
  exact hf a k₁ r k' (hG.quiet hq hk) (hq.running hr) (hq.current.trans hc) h2

theorem Leads.exit_bind (status : ℤ) (y : Kern Kernel Flow) :
    Leads Good pid (do if ← procExitCurrent status then pure .gone else y) := by
  intro k r k' hk hr hc he
  obtain ⟨gone, k₁, h1, h2⟩ := bind_eq_some.mp he
  have hgone := procExitCurrent_gone hr h1
  subst hgone
  cases h2
  exact ⟨hG.exit hk hr h1, nofun⟩

theorem Leads.exitIf_bind (c : Bool) (status : ℤ) (hy : Leads Good pid y) :
    Leads Good pid (do if ← exitIf c status then pure .gone else y) := by
  cases c with
  | false => exact hy
  | true => exact Leads.exit_bind hG status y

theorem buildSigframe_leads (p : Pcb) (sig : ℕ) (h : BitVec 64) (copied : Bool) :
    Leads Good pid (buildSigframeAndRedirect p sig h copied) := by
  have hredirect : Leads Good pid (do
      Kern.modify fun k => k.modify p.pid fun q => q.redirected sig h
      pure Flow.back) :=
    Leads.quiet_bind hG (Kern.Rel.modify fun k => QuietAll.modify fun q => Quiet.redirected sig h q)
      fun _ => Leads.ret _
  refine Leads.exitIf_bind hG _ _ (Leads.quiet_bind hG ?_ fun _ => ?_)
  · exact Kern.Rel.modify fun k => QuietAll.modify Quiet.clearSuspend
  · exact Leads.exitIf_bind hG _ _ hredirect

theorem stopCurrent_leads (hp : p.pid = pid) (sig : ℕ) : Leads Good pid (stopCurrent p sig) := by
  intro k r k' hk hr hc he
  obtain ⟨q, hq, hs⟩ := hr
  have hpid : q.pid = p.pid := by
    have := (currentProc_mem hq).2
    rw [hc] at this
    rw [hp]
    exact (Option.some.inj this).symm
  unfold stopCurrent at he
  rw [modify_bind] at he
  cases he
  refine ⟨hG.quiet (QuietAll.of_sends (notifyParent_sends _ _)) ?_, nofun⟩
  exact hpid ▸ hG.stop hk hq hs sig

theorem deliver_leads (hp : p.pid = pid) (sig : ℕ) (copied : Bool) :
    Leads Good pid (deliver p sig copied) := by
  unfold deliver
  refine Leads.ite (stopCurrent_leads hG hp sig) (Leads.ite ?_ (buildSigframe_leads hG _ _ _ _))
  exact Leads.ite (stopCurrent_leads hG hp sig) (Leads.exit_bind hG _ _)

theorem checkSignals_leads (copied : Bool) : Leads Good pid (checkSignals copied) := by
  intro k r k' hk hr hc he
  obtain ⟨p, hp, hs⟩ := id hr
  have hpid : p.pid = pid := by
    have := (currentProc_mem hp).2
    rw [hc] at this
    exact (Option.some.inj this).symm
  unfold checkSignals at he
  rw [get_bind] at he
  simp only [hp] at he
  have hbody : Leads Good pid (do
      Kern.modify fun k => k.modify p.pid Pcb.picked
      if pickActionable p = 0 then do
        Kern.modify fun k => k.modify p.pid Pcb.restoreMask
        pure .back
      else do
        Kern.modify fun k => k.modify p.pid (Pcb.drop (pickActionable p))
        if pickActionable p = SIGKILL then do
          if ← procExitCurrent (pickActionable p) then pure .gone
          else deliver p (pickActionable p) copied
        else deliver p (pickActionable p) copied) := by
    refine Leads.quiet_bind hG (Kern.Rel.modify fun k => QuietAll.modify Quiet.picked) fun _ => ?_
    refine Leads.ite (Leads.quiet_bind hG ?_ fun _ => Leads.ret _)
      (Leads.quiet_bind hG ?_ fun _ => Leads.ite (Leads.exit_bind hG _ _)
        (deliver_leads hG hpid _ _))
    · exact Kern.Rel.modify fun k => QuietAll.modify Quiet.restoreMask
    · exact Kern.Rel.modify fun k => QuietAll.modify (Quiet.drop _)
  exact Leads.ite (Leads.ret _) hbody k r k' hk hr hc he

theorem trapCheck_leads (path : RetPath) (copied : Bool) :
    Leads Good pid (trapCheck path copied) := by
  have hsignals : Leads Good pid (checkSignals copied) := checkSignals_leads hG copied
  unfold trapCheck
  split
  · exact hsignals
  · next ret origA0 =>
    refine Leads.quiet_bind hG (modifyCurrent_quiet fun p => Quiet.setTf p _) fun _ => ?_
    unfold checkSignalsAfterSyscall
    refine Leads.quiet_bind hG Kern.Rel.get fun k => ?_
    split
    · exact hsignals
    refine Leads.ite (Leads.quiet_bind hG ?_ fun _ => hsignals) hsignals
    refine Kern.Rel.modify fun k => QuietAll.modify fun q => ?_
    exact (Quiet.restarted origA0 q).trans (Quiet.picked _)
  · refine Leads.quiet_bind hG ?_ fun _ => hsignals
    intro k a k' he
    unfold sendCurrent at he
    split at he <;> cases he
    · exact QuietAll.refl k
    · exact QuietAll.of_sends (sendSignal_sends k (by decide) _ (by decide))

theorem userCheck_leads (check : Bool) (f : Flow) : Leads Good pid (userCheck check f) := by
  refine Leads.ite ?_ (Leads.ret _)
  unfold checkUserReturn
  refine Leads.quiet_bind hG Kern.Rel.get fun k => ?_
  split
  · exact Leads.ret _
  · exact Leads.exitIf_bind hG _ _ (Leads.ret _)

theorem sysSigreturn_keeps {frame : Option Sigframe} {r : Option ℤ} (hk : Good k)
    (hr : Running k) (he : sysSigreturn frame k = (some r, k')) : Good k' := by
  have hexit : ∀ r', (do
      let _ ← procExitCurrent SIGSEGV
      pure (none : Option ℤ)) k = (some r', k') → Good k' := by
    intro r' he
    obtain ⟨gone, k₁, h1, h2⟩ := bind_eq_some.mp he
    cases h2
    exact hG.exit hk hr h1
  obtain ⟨p, hp, hs⟩ := id hr
  unfold sysSigreturn at he
  rw [get_bind] at he
  simp only [hp] at he
  cases frame with
  | none => exact hexit _ he
  | some fr =>
    change (if sigframeBad fr then _ else _ : Kern Kernel (Option ℤ)) k = _ at he
    rw [Kern.ite_apply] at he
    split at he
    · exact hexit _ he
    · rw [modify_bind] at he
      cases he
      exact hG.quiet (QuietAll.modify fun q => Quiet.restored q fr) hk

end

end Sbunix.Proc
