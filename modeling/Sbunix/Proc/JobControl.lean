import Sbunix.Proc.Moves

/-!
# Job control

Stopping, continuing and reporting. A move is seen as what it does to the
pending job-control signals, to the stopped state and to the two report flags of
each process; the laws of a whole run follow from that view alone.
-/

namespace Sbunix.Proc

open List Lib.Kern Lib

/-- `SIGCONT` is pending. -/
def contPending (p : Pcb) : Bool := p.sigPending.getLsbD SIGCONT

def stopPending (p : Pcb) : Prop := ∃ s ∈ stopSignals, p.sigPending.getLsbD s = true

/-! ### One signal -/

/-- What sending `sig` to the process `pid` can do to a process. -/
structure JobSent (pid : ℤ) (sig : ℕ) (p q : Pcb) : Prop where
  ident : q.pid = p.pid
  freed : p.state = .stopped → q.state ≠ .stopped → p.pid = pid ∧ (sig = SIGCONT ∨ sig = SIGKILL)
  kept : q.state = .stopped → p.state = .stopped
  seen : q.stoppedReported = p.stoppedReported
  flagged : q.continuedPending = true → p.continuedPending = true ∨
    p.pid = pid ∧ sig = SIGCONT ∧ p.state = .stopped ∧ q.state ≠ .stopped
  pending : ∀ i, q.sigPending.getLsbD i = true →
    p.sigPending.getLsbD i = true ∨ i = SIGCHLD ∨ p.pid = pid ∧ i = sig

variable {s sig : ℕ} {tid pid : ℤ} {g : Pcb → Pcb} {t : Pcb} {W : Powers} {k k' k₂ : Kernel}

namespace JobSent

variable {p q r : Pcb}

theorem refl (p : Pcb) : JobSent pid sig p p :=
  ⟨rfl, fun h h' => absurd h h', id, rfl, .inl, fun _ => .inl⟩

theorem trans (h : JobSent pid sig p q) (h' : JobSent pid sig q r) : JobSent pid sig p r where
  ident := h'.ident.trans h.ident
  freed hp hr := by
    by_cases hq : q.state = .stopped
    · rw [← h.ident]
      exact h'.freed hq hr
    · exact h.freed hp hq
  kept hr := h.kept (h'.kept hr)
  seen := h'.seen.trans h.seen
  flagged hr := by
    rcases h'.flagged hr with hq | ⟨e1, e2, e3, e4⟩
    · rcases h.flagged hq with hp | ⟨e1, e2, e3, e4⟩
      · exact .inl hp
      · exact .inr ⟨e1, e2, e3, fun hs => e4 (h'.kept hs)⟩
    · exact .inr ⟨h.ident ▸ e1, e2, h.kept e3, e4⟩
  pending i hr := by
    rcases h'.pending i hr with hq | hq | ⟨e1, e2⟩
    · exact h.pending i hq
    · exact .inr (.inl hq)
    · exact .inr (.inr ⟨h.ident ▸ e1, e2⟩)

theorem of_pending {m b : BitVec 64} {h : ℕ → SigAction}
    (hm : ∀ i, m.getLsbD i = true → p.sigPending.getLsbD i = true ∨ i = SIGCHLD ∨
    p.pid = pid ∧ i = sig) :
    JobSent pid sig p { p with sigPending := m, sigBlocked := b, sigHandlers := h } :=
  ⟨rfl, fun h h' => absurd h h', id, rfl, .inl, hm⟩

theorem raise (hs : s = SIGCHLD ∨ p.pid = pid ∧ s = sig) : JobSent pid sig p (p.raise s) := by
  refine of_pending (b := p.sigBlocked) (h := p.sigHandlers) fun i hi => ?_
  have hlt : i < 64 := BitVec.lt_of_getLsbD hi
  simp only [BitVec.getLsbD_or, sigBit_getLsbD hlt, Bool.or_eq_true, decide_eq_true_eq] at hi
  rcases hi with hi | rfl
  · exact .inl hi
  · exact .inr hs

theorem dropStops : JobSent pid sig p p.dropStops := by
  refine of_pending (b := p.sigBlocked) (h := p.sigHandlers) fun i hi => ?_
  simp only [BitVec.getLsbD_and, Bool.and_eq_true] at hi
  exact .inl hi.1

theorem forceDefault (s : ℕ) : JobSent pid sig p (p.forceDefault s) :=
  of_pending fun _ => .inl

theorem roused (h : Roused p q) : JobSent pid sig p q := by
  rcases h with rfl | ⟨hs, e⟩
  · exact refl q
  · rw [e]
    exact ⟨rfl, fun h => absurd (hs.symm.trans h) nofun, nofun, rfl, .inl, fun _ => .inl⟩

theorem wakeDeliverable : JobSent pid sig p p.wakeDeliverable := by
  unfold Pcb.wakeDeliverable
  split
  · next h => exact roused (.inr ⟨h.1, rfl⟩)
  · exact refl p

theorem wakeStopped (hpid : p.pid = pid) (hsig : sig = SIGKILL) :
    JobSent pid sig p p.wakeStopped := by
  unfold Pcb.wakeStopped
  split
  · exact ⟨rfl, fun _ _ => ⟨hpid, .inr hsig⟩, nofun, rfl, .inl, fun _ => .inl⟩
  · exact refl p

theorem continued (hpid : p.pid = pid) (hsig : sig = SIGCONT) : JobSent pid sig p p.continued := by
  unfold Pcb.continued
  split
  · next hs =>
    exact ⟨rfl, fun _ _ => ⟨hpid, .inl hsig⟩, nofun, rfl,
      fun _ => .inr ⟨hpid, hsig, hs, nofun⟩, fun _ => .inl⟩
  · exact refl p

end JobSent

/-- What sending `sig` to the process `pid` can do to the table. -/
def JobSends (pid : ℤ) (sig : ℕ) (k k' : Kernel) : Prop :=
  List.Forall₂ (JobSent pid sig) k.procs k'.procs

variable {k'' : Kernel}

theorem JobSends.refl (k : Kernel) : JobSends pid sig k k :=
  forall₂_same.mpr fun p _ => JobSent.refl p

theorem JobSends.trans (h : JobSends pid sig k k') (h' : JobSends pid sig k' k'') :
    JobSends pid sig k k'' :=
  forall₂_comp h h' fun _ _ _ => JobSent.trans

theorem JobSends.modify
    (hg : ∀ p : Pcb, p.pid = tid → JobSent pid sig p (g p)) :
    JobSends pid sig k (k.modify tid g) := by
  refine forall₂_map_right_iff.mpr (forall₂_same.mpr fun p _ => ?_)
  split
  · next h => exact hg p h
  · exact JobSent.refl p

theorem sendChld_jobs (k : Kernel) (tid : ℤ) : JobSends pid sig k (sendChld k tid) := by
  refine JobSends.modify fun p _ => ?_
  split
  · exact (JobSent.raise (.inl rfl)).trans JobSent.wakeDeliverable
  · exact JobSent.refl p

theorem procWakeup_jobs (k : Kernel) (tid : ℤ) : JobSends pid sig k (procWakeup k tid) := by
  refine JobSends.modify fun p _ => ?_
  split
  · next h => exact JobSent.roused (.inr ⟨h, rfl⟩)
  · exact JobSent.refl p

theorem sendCont_jobs (k : Kernel) (t : Pcb) : JobSends t.pid SIGCONT k (sendCont k t) := by
  have hdrop : JobSends t.pid SIGCONT k (k.modify t.pid Pcb.dropStops) :=
    JobSends.modify fun _ _ => JobSent.dropStops
  unfold sendCont
  dsimp only
  split
  · refine ((hdrop.trans ?_).trans (sendChld_jobs _ _)).trans (procWakeup_jobs _ _)
    exact JobSends.modify fun _ hp => JobSent.continued hp rfl
  · exact hdrop

theorem sendPost_jobs (k : Kernel) (t : Pcb) (sig : ℕ) :
    JobSends t.pid sig k (sendPost k t sig) := by
  have hraise : JobSends t.pid sig k (k.modify t.pid (Pcb.raise sig)) :=
    JobSends.modify fun _ hp => JobSent.raise (.inr ⟨hp, rfl⟩)
  unfold sendPost
  dsimp only
  refine JobSends.trans ?_ (JobSends.modify fun _ _ => JobSent.wakeDeliverable)
  split
  · next h =>
    refine (hraise.trans ?_).trans (sendChld_jobs _ _)
    exact JobSends.modify fun _ hp => JobSent.wakeStopped hp h.1
  · exact hraise

theorem sendSignal_jobs (k : Kernel) (pid : ℤ) (sig : ℕ) :
    JobSends pid sig k (sendSignal k pid sig) := by
  unfold sendSignal
  split
  · exact JobSends.refl k
  next t hfind =>
  obtain ⟨-, rfl⟩ := Kernel.find_mem hfind
  unfold sendSignalTo
  split
  · exact JobSends.refl k
  dsimp only
  have hforce : JobSends t.pid sig k
      (if sig = SIGKILL ∨ sig = SIGSTOP then k.modify t.pid (Pcb.forceDefault sig) else k) := by
    split
    · exact JobSends.modify fun _ _ => JobSent.forceDefault sig
    · exact JobSends.refl k
  generalize (if sig = SIGKILL ∨ sig = SIGSTOP then k.modify t.pid (Pcb.forceDefault sig) else k)
    = k₁ at hforce ⊢
  have hcont : JobSends t.pid sig k (if sig = SIGCONT then sendCont k₁ t else k₁) := by
    split
    · next h =>
      subst h
      exact hforce.trans (sendCont_jobs k₁ t)
    · exact hforce
  generalize (if sig = SIGCONT then sendCont k₁ t else k₁) = k₂ at hcont ⊢
  split
  · exact hcont
  split
  · exact hcont
  · exact hcont.trans (sendPost_jobs k₂ t sig)

def NoStops (pid : ℤ) (k : Kernel) : Prop := ∀ p ∈ k.procs, p.pid = pid → ¬ stopPending p

theorem NoStops.sends (h : NoStops pid k) (hs : s ∉ stopSignals)
    (hj : JobSends tid s k k') : NoStops pid k' := by
  intro q hq hpid hstop
  obtain ⟨p, hp, hpq⟩ := forall₂_mem hj hq
  obtain ⟨i, hi, hpend⟩ := hstop
  refine h p hp (hpq.ident.symm.trans hpid) ⟨i, hi, ?_⟩
  rcases hpq.pending i hpend with e | rfl | ⟨-, rfl⟩
  · exact e
  · exact absurd hi (by decide)
  · exact absurd hi hs

theorem dropStops_noStops (k : Kernel) (pid : ℤ) : NoStops pid (k.modify pid Pcb.dropStops) := by
  intro q hq hpid hstop
  obtain ⟨p, hp, rfl⟩ := Kernel.mem_modify.mp hq
  split_ifs at hpid hstop with hne
  · obtain ⟨s, hs, hpend⟩ := hstop
    have hmask : (sigBit SIGSTOP ||| sigBit SIGTSTP ||| sigBit SIGTTIN ||| sigBit SIGTTOU).getLsbD s
        = true := by
      simp only [stopSignals, mem_cons, not_mem_nil, or_false] at hs
      rcases hs with rfl | rfl | rfl | rfl <;> decide
    simp [Pcb.dropStops, hmask] at hpend
  · exact hne hpid

theorem sendCont_noStops (k : Kernel) (t : Pcb) : NoStops t.pid (sendCont k t) := by
  have hdrop := dropStops_noStops k t.pid
  unfold sendCont
  dsimp only
  split
  · have hcont : JobSends t.pid SIGCONT (k.modify t.pid Pcb.dropStops)
        ((k.modify t.pid Pcb.dropStops).modify t.pid Pcb.continued) :=
      JobSends.modify fun _ hp => JobSent.continued hp rfl
    exact hdrop.sends (by decide) ((hcont.trans (sendChld_jobs _ _)).trans (procWakeup_jobs _ _))
  · exact hdrop

theorem sendSignal_noStops (ht : Table k) (hmem : t ∈ k.procs) (huser : t.isUser = true) :
    NoStops t.pid (sendSignal k t.pid SIGCONT) := by
  rw [← sendSignalTo_eq ht hmem]
  unfold sendSignalTo
  rw [if_neg (by simp [huser]; decide)]
  dsimp only
  have hforce : ¬ (SIGCONT = SIGKILL ∨ SIGCONT = SIGSTOP) := by decide
  rw [if_neg hforce, if_pos rfl]
  have h := sendCont_noStops k t
  split
  · exact h
  split
  · exact h
  · exact h.sends (by decide) (sendPost_jobs _ t SIGCONT)

/-! ### One move -/

/-- What a move can do to a process, as far as job control goes. -/
structure JobMove (W : Powers) (p q : Pcb) : Prop where
  ident : q.pid = p.pid
  freed : p.state = .stopped → q.state ≠ .stopped →
    W.sends p.pid SIGCONT ∨ W.sends p.pid SIGKILL ∨ W.actor p.pid
  kept : q.state = .stopped → p.state = .stopped ∨ W.stops ∧ W.actor p.pid
  seen : p.stoppedReported = true → q.stoppedReported = true ∨ W.actor p.pid
  flagged : q.continuedPending = true → p.continuedPending = true ∨
    W.sends p.pid SIGCONT ∧ p.state = .stopped ∧ q.state ≠ .stopped
  cont : contPending q = true → contPending p = true ∨ W.sends p.pid SIGCONT ∧ ¬ stopPending q
  stop : ∀ s ∈ stopSignals, q.sigPending.getLsbD s = true →
    p.sigPending.getLsbD s = true ∨ W.sends p.pid s

namespace JobMove

variable {p q : Pcb}

theorem refl (p : Pcb) : JobMove W p p :=
  ⟨rfl, fun h h' => absurd h h', .inl, .inl, .inl, .inl, fun _ _ => .inl⟩

theorem of_same (hpid : q.pid = p.pid) (hstate : q.state = p.state)
    (hseen : q.stoppedReported = p.stoppedReported)
    (hflag : q.continuedPending = p.continuedPending)
    (hpending : ∀ i, q.sigPending.getLsbD i = true → p.sigPending.getLsbD i = true) :
    JobMove W p q where
  ident := hpid
  freed h h' := absurd (hstate.trans h) h'
  kept h := .inl (hstate.symm.trans h)
  seen h := .inl (hseen.trans h)
  flagged h := .inl (hflag.symm.trans h)
  cont h := .inl (hpending _ h)
  stop s _ h := .inl (hpending s h)

theorem of_actor (hactor : W.actor p.pid) (hpid : q.pid = p.pid)
    (hstate : q.state = .stopped → W.stops) (hflag : q.continuedPending = p.continuedPending)
    (hpending : q.sigPending = p.sigPending) : JobMove W p q where
  ident := hpid
  freed _ _ := .inr (.inr hactor)
  kept h := .inr ⟨hstate h, hactor⟩
  seen _ := .inr hactor
  flagged h := .inl (hflag.symm.trans h)
  cont h := .inl (by rwa [contPending, hpending] at h)
  stop s _ h := .inl (hpending ▸ h)

theorem of_sent (hW : sig = SIGCHLD ∨ W.sends pid sig) (h : JobSent pid sig p q)
    (hcont : sig = SIGCONT → q.pid = pid → contPending q = true →
      contPending p = true ∨ ¬ stopPending q) : JobMove W p q where
  ident := h.ident
  freed h1 h2 := by
    obtain ⟨rfl, rfl | rfl⟩ := h.freed h1 h2
    · exact .inl (hW.resolve_left (by decide))
    · exact .inr (.inl (hW.resolve_left (by decide)))
  kept h1 := .inl (h.kept h1)
  seen h1 := .inl (h.seen.trans h1)
  flagged h1 := by
    rcases h.flagged h1 with h2 | ⟨rfl, rfl, h3, h4⟩
    · exact .inl h2
    · exact .inr ⟨hW.resolve_left (by decide), h3, h4⟩
  cont h1 := by
    rcases h.pending SIGCONT h1 with h2 | h2 | ⟨rfl, rfl⟩
    · exact .inl h2
    · exact absurd h2 (by decide)
    · exact (hcont rfl h.ident h1).imp_right fun h3 => ⟨hW.resolve_left (by decide), h3⟩
  stop s hs h1 := by
    rcases h.pending s h1 with h2 | rfl | ⟨rfl, rfl⟩
    · exact .inl h2
    · exact absurd hs (by decide)
    · refine .inr (hW.resolve_left ?_)
      rintro rfl
      exact absurd hs (by decide)

theorem of_chld (pid : ℤ) (h : JobSent pid SIGCHLD p q) : JobMove W p q :=
  of_sent (.inl rfl) h fun he => absurd he (by decide)

end JobMove

structure JobFresh (q : Pcb) : Prop where
  state : q.state = .ready
  flag : q.continuedPending = false
  pending : q.sigPending = 0

/-- What a move can do to the table: processes are changed as `JobMove` says, a
fresh one may appear, and a zombie may go. -/
structure JobMoves (W : Powers) (k k' : Kernel) : Prop where
  mem : ∀ q ∈ k'.procs, (∃ p ∈ k.procs, JobMove W p q) ∨ JobFresh q
  stays : ∀ p ∈ k.procs, p.state = .stopped → ∃ q ∈ k'.procs, JobMove W p q

namespace JobMoves

theorem of_forall₂ (h : List.Forall₂ (JobMove W) k.procs k'.procs) : JobMoves W k k' :=
  ⟨fun _ hq => .inl (forall₂_mem h hq), fun _ hp _ => forall₂_mem_left h hp⟩

theorem of_procs (h : k'.procs = k.procs) : JobMoves W k k' :=
  of_forall₂ (h ▸ forall₂_same.mpr fun p _ => JobMove.refl p)

theorem modifyAll (hg : ∀ p, JobMove W p (g p)) : JobMoves W k (k.modifyAll g) :=
  of_forall₂ (forall₂_map_right_iff.mpr (forall₂_same.mpr fun p _ => hg p))

theorem modify (hg : ∀ p : Pcb, p.pid = pid → JobMove W p (g p)) :
    JobMoves W k (k.modify pid g) := by
  rw [modify_eq_modifyAll]
  refine modifyAll fun p => ?_
  split
  · next h => exact hg p h
  · exact JobMove.refl p

end JobMoves

theorem Own.jobMove {p q : Pcb} (h : Own p q) : JobMove W p q := by
  refine .of_same ?_ ?_ ?_ ?_ h.pending
  all_goals rw [h.frame]

theorem sendSignal_jobMoves (ht : Table k)
    (hW : W.sends pid sig) : JobMoves W k (sendSignal k pid sig) := by
  rcases hfind : k.find pid with _ | t
  · refine .of_procs ?_
    unfold sendSignal
    simp only [hfind]
  obtain ⟨hmem, rfl⟩ := Kernel.find_mem hfind
  by_cases huser : t.isUser = true
  · have hj := sendSignal_jobs k t.pid sig
    have hmove : ∀ p q, q ∈ (sendSignal k t.pid sig).procs → JobSent t.pid sig p q →
        JobMove W p q := by
      intro p q hq hpq
      refine .of_sent (.inr hW) hpq fun hsig hpid _ => .inr ?_
      subst hsig
      exact sendSignal_noStops ht hmem huser q hq hpid
    refine ⟨fun q hq => .inl ?_, fun p hp _ => ?_⟩
    · obtain ⟨p, hp, hpq⟩ := forall₂_mem hj hq
      exact ⟨p, hp, hmove p q hq hpq⟩
    · obtain ⟨q, hq, hpq⟩ := forall₂_mem_left hj hp
      exact ⟨q, hq, hmove p q hq hpq⟩
  · refine .of_procs ?_
    rw [← sendSignalTo_eq ht hmem, sendSignalTo, if_pos (.inl (by simpa using huser))]

theorem Atom.jobMoves (ht : Table k) (h : Atom W k k') : JobMoves W k k' := by
  cases h with
  | globals hprocs _ _ _ _ => exact .of_procs hprocs
  | pipeClose i w =>
    refine .of_forall₂ (forall₂_map_right_iff.mpr (forall₂_same.mpr fun p _ => ?_))
    refine .of_chld 0 (JobSent.roused ?_)
    split
    · next h => exact .inr ⟨h.1, rfl⟩
    · exact .refl p
  | pipeOpen i _ _ => exact .of_procs rfl
  | rouse g hg => exact .modifyAll fun p => .of_chld 0 (JobSent.roused (hg p))
  | family g hg =>
    refine .modifyAll fun p => .of_same ?_ ?_ ?_ ?_ ?_
    all_goals rw [hg p]
    exact fun _ => id
  | own pid g _ hg => exact .modify fun p _ => (hg p).jobMove
  | suspend pid mask _ _ => exact .modify fun p _ => .of_same rfl rfl rfl rfl fun _ => id
  | chld pid => exact .of_forall₂ ((sendChld_jobs k pid).imp fun _ _ => JobMove.of_chld 0)
  | send pid sig hW => exact sendSignal_jobMoves ht hW
  | stop pid sig hs hactor =>
    exact .modify fun p hp => .of_actor (hp ▸ hactor) rfl (fun _ => hs) rfl rfl
  | sleep pid g hactor hg =>
    refine .modify fun p hp => .of_actor (hp ▸ hactor) ?_ ?_ ?_ ?_
    all_goals rw [hg p]
    exact nofun
  | yield pid hactor
  | die pid hactor => exact .modify fun p hp => .of_actor (hp ▸ hactor) rfl nofun rfl rfl
  | stopSeen pid =>
    exact .modify fun p hp =>
      ⟨rfl, fun h h' => absurd h h', .inl, fun _ => .inl rfl, .inl, .inl, fun _ _ => .inl⟩
  | continueSeen pid =>
    exact .modify fun p hp =>
      ⟨rfl, fun h h' => absurd h h', .inl, .inl, nofun, .inl, fun _ _ => .inl⟩
  | destroy pid hz =>
    refine ⟨fun q hq => .inl ⟨q, mem_of_mem_filter hq, .refl q⟩, fun p hp hs => ⟨p, ?_, .refl p⟩⟩
    have hne : p.pid ≠ pid := fun he => absurd (hs.symm.trans (hz p hp he)) nofun
    exact mem_filter.mpr ⟨hp, by simpa using hne⟩

theorem Move.jobMoves (ht : Table k) (h : Move W k k') : JobMoves W k k' := by
  cases h with
  | atom h => exact h.jobMoves ht
  | job pid g hg =>
    refine .modify fun p _ => .of_same ?_ ?_ ?_ ?_ ?_
    all_goals rw [hg p]
    exact fun _ => id
  | fork parent pid generation _ _ _ =>
    refine ⟨fun q hq => ?_, fun p hp _ => ⟨p, mem_append_left _ hp, .refl p⟩⟩
    rcases mem_append.mp hq with hq | hq
    · exact .inl ⟨q, hq, .refl q⟩
    · rw [mem_singleton.mp hq]
      exact .inr ⟨rfl, rfl, rfl⟩
  | dispatch pid hactor _ _ =>
    have h : JobMoves W k (k.modify pid fun q => { q with state := .running }) :=
      .modify fun p hp => .of_actor (hp ▸ hactor) rfl nofun rfl rfl
    exact ⟨h.mem, h.stays⟩
  | release => exact .of_procs rfl

/-! ### Steps -/

def stoppedIn (k : Kernel) (c : ℤ) : Prop := ∃ p ∈ k.procs, p.pid = c ∧ p.state = .stopped

variable {l : Label} {c : ℤ}

theorem stopped_stays (hk : Sound k) (hstep : Step k l k') (hs : stoppedIn k c) :
    stoppedIn k' c ∨ sends k l c SIGCONT ∨ sends k l c SIGKILL := by
  by_contra hno
  push Not at hno
  obtain ⟨hno, hcont, hkill⟩ := hno
  have hactor : ¬ actor k l c := by
    obtain ⟨p, hp, rfl, hst⟩ := hs
    exact actor_not_stopped hk.toTable hstep.1 hp hst
  refine hno ((hstep.moves hk).table_invariant (I := (stoppedIn · c)) hk.toTable hs ?_)
  rintro k₁ k₂ ht ⟨p, hp, rfl, hst⟩ hmove
  obtain ⟨q, hq, hpq⟩ := (hmove.jobMoves ht).stays p hp hst
  refine ⟨q, hq, hpq.ident, ?_⟩
  by_contra hne
  rcases hpq.freed hst hne with h | h | h
  · exact hcont h
  · exact hkill h
  · exact hactor h

/-- The stop of `c`, if it is stopped, has been reported. -/
def StopSeen (c : ℤ) (k : Kernel) : Prop :=
  ∀ p ∈ k.procs, p.pid = c → p.state = .stopped → p.stoppedReported = true

theorem StopSeen.step (hk : Sound k) (hstep : Step k l k') (hs : stoppedIn k c) (h : StopSeen c k) :
    StopSeen c k' := by
  have hactor : ¬ actor k l c := by
    obtain ⟨p, hp, rfl, hst⟩ := hs
    exact actor_not_stopped hk.toTable hstep.1 hp hst
  refine (hstep.moves hk).table_invariant hk.toTable h ?_
  intro k₁ k₂ ht h₁ hmove q hq hqc hst
  rcases (hmove.jobMoves ht).mem q hq with ⟨p, hp, hpq⟩ | hf
  · have hpc : p.pid = c := hpq.ident.symm.trans hqc
    rw [← hpc] at hactor
    have hp₁ : p.state = .stopped := (hpq.kept hst).resolve_right fun h => hactor h.2
    exact (hpq.seen (h₁ p hp hpc hp₁)).resolve_right hactor
  · rw [hf.state] at hst
    cases hst

def NoContinue (c : ℤ) (k : Kernel) : Prop := ∀ p ∈ k.procs, p.pid = c → p.continuedPending = false

def continues (k : Kernel) (l : Label) (c : ℤ) : Prop := stoppedIn k c ∧ ¬ stoppedIn (act l k).2 c

theorem stops_not_sends (hl : l.stops) (ha : actor k l c) : ¬ sends k l c SIGCONT := by
  cases l with
  | ret path copied =>
    rintro ⟨t, -, rfl, ⟨h, -⟩ | ⟨-, pid, hcur, p, -, rfl, -, -, hne, -⟩⟩
    · exact absurd h (by decide)
    · exact hne (Option.some.inj ((show k.current = some t.pid from ha).symm.trans hcur))
  | _ => exact hl.elim

/-- As long as `c` cannot be stopped, a continuation to report means that it was
stopped before and is not any more. -/
theorem flag_or_freed (hk : Sound k) (hstep : Step k l k') (h : NoContinue c k) :
    NoContinue c k' ∨ stoppedIn k c ∧ ¬ stoppedIn k' c := by
  by_cases hsend : sends k l c SIGCONT
  · have hno : ¬ (l.stops ∧ actor k l c) := fun h => stops_not_sends h.1 h.2 hsend
    -- `c` is not stopped within this step
    have hkeep : ∀ {k₁ k₂ : Kernel}, Table k₁ → Move (powers k l) k₁ k₂ → stoppedIn k₂ c →
        stoppedIn k₁ c := by
      rintro k₁ k₂ ht hmove ⟨q, hq, hqc, hst⟩
      rcases (hmove.jobMoves ht).mem q hq with ⟨p, hp, hpq⟩ | hf
      · have hpc : p.pid = c := hpq.ident.symm.trans hqc
        exact ⟨p, hp, hpc, (hpq.kept hst).resolve_right fun h => hno (hpc ▸ h)⟩
      · rw [hf.state] at hst
        cases hst
    by_cases hs : stoppedIn k c
    · -- while `c` stays stopped nothing is to be reported
      have hinv : stoppedIn k' c → NoContinue c k' := by
        refine (hstep.moves hk).table_invariant (I := fun k => stoppedIn k c → NoContinue c k)
          hk.toTable (fun _ => h) ?_
        intro k₁ k₂ ht h₁ hmove hs₂ q hq hqc
        have hflags := h₁ (hkeep ht hmove hs₂)
        rcases (hmove.jobMoves ht).mem q hq with ⟨p, hp, hpq⟩ | hf
        · by_contra hflag
          rcases hpq.flagged (by simpa using hflag) with e | ⟨-, -, hne⟩
          · rw [hflags p hp (hpq.ident.symm.trans hqc)] at e
            cases e
          · obtain ⟨q', hq', hq'c, hst⟩ := hs₂
            have hqq : q = q' := (hmove.table ht).eq_of_pid hq hq' (hqc.trans hq'c.symm)
            exact hne (hqq ▸ hst)
        · exact hf.flag
      by_cases hs' : stoppedIn k' c
      · exact .inl (hinv hs')
      · exact .inr ⟨hs, hs'⟩
    · left
      have hinv : ¬ stoppedIn k' c ∧ NoContinue c k' := by
        refine (hstep.moves hk).table_invariant (I := fun k => ¬ stoppedIn k c ∧ NoContinue c k)
          hk.toTable ⟨hs, h⟩ ?_
        intro k₁ k₂ ht h₁ hmove
        refine ⟨fun hs₂ => h₁.1 (hkeep ht hmove hs₂), fun q hq hqc => ?_⟩
        rcases (hmove.jobMoves ht).mem q hq with ⟨p, hp, hpq⟩ | hf
        · have hpc : p.pid = c := hpq.ident.symm.trans hqc
          by_contra hflag
          rcases hpq.flagged (by simpa using hflag) with e | ⟨-, hst, -⟩
          · rw [h₁.2 p hp hpc] at e
            cases e
          · exact h₁.1 ⟨p, hp, hpc, hst⟩
        · exact hf.flag
      exact hinv.2
  · left
    refine (hstep.moves hk).table_invariant hk.toTable h ?_
    intro k₁ k₂ ht h₁ hmove q hq hqc
    rcases (hmove.jobMoves ht).mem q hq with ⟨p, hp, hpq⟩ | hf
    · have hpc : p.pid = c := hpq.ident.symm.trans hqc
      by_contra hflag
      rcases hpq.flagged (by simpa using hflag) with e | ⟨hs, -, -⟩
      · rw [h₁ p hp hpc] at e
        cases e
      · exact hsend (hpc ▸ hs)
    · exact hf.flag

theorem NoContinue.step (hk : Sound k) (hstep : Step k l k') (hc : ¬ continues k l c)
    (h : NoContinue c k) : NoContinue c k' := by
  refine (flag_or_freed hk hstep h).resolve_right fun hfreed => hc ⟨hfreed.1, ?_⟩
  rw [hstep.2]
  exact hfreed.2

/-! ### Reports -/

/-- The step is a `wait4` that reports a stop of `c`. -/
def reportsStop (k : Kernel) (l : Label) (c : ℤ) : Prop :=
  ∃ pid options ustatus status k', l = .call (.wait4 pid options ustatus) ∧
    wait4Pass pid options k = (some (.reported c status), k') ∧ status ≠ 65535

/-- The step is a `wait4` that reports a continuation of `c`. -/
def reportsContinue (k : Kernel) (l : Label) (c : ℤ) : Prop :=
  ∃ pid options ustatus k', l = .call (.wait4 pid options ustatus) ∧
    wait4Pass pid options k = (some (.reported c 65535), k')

theorem wait4Pass_reported {c status : ℤ} {options : BitVec 32}
    (he : wait4Pass pid options k = (some (.reported c status), k')) : ∃ p ∈ k.procs, p.pid = c ∧
      (status ≠ 65535 ∧ p.state = .stopped ∧ p.stoppedReported = false ∧
          k' = k.modify c Pcb.stopSeen ∨
        status = 65535 ∧ p.continuedPending = true ∧ k' = k.modify c Pcb.continueSeen) := by
  rcases wait4Pass_cases he with ⟨e, hr, -⟩ | ⟨me, -, -, hr, -⟩ | ⟨me, p, -, hp, -, hrep, he⟩
  · cases hr
  · cases hr
  · unfold wait4Take at he
    split_ifs at he with hz hstop
    · rw [modify_bind] at he
      obtain ⟨⟨⟩, k₁, -, he⟩ := bind_eq_some.mp he
      cases (pure_eq_some.mp he).1
    · rw [modify_bind] at he
      obtain ⟨hr, rfl⟩ := pure_eq_some.mp he
      cases hr
      refine ⟨p, hp, rfl, .inl ⟨by omega, hstop.2.1, hstop.2.2, rfl⟩⟩
    · rw [modify_bind] at he
      obtain ⟨hr, rfl⟩ := pure_eq_some.mp he
      cases hr
      refine ⟨p, hp, rfl, .inr ⟨rfl, ?_, rfl⟩⟩
      -- neither a zombie nor a stop to report: what is left is the continuation
      simp only [reportable, hz, decide_false, Bool.false_or, Bool.or_eq_true, Bool.and_eq_true,
        decide_eq_true_eq, Bool.not_eq_true'] at hrep
      rcases hrep with ⟨⟨h1, h2⟩, h3⟩ | ⟨-, h⟩
      · exact absurd ⟨h1, h2, h3⟩ hstop
      · exact h

theorem reportsStop.seen (hr : reportsStop k l c) (hstep : Step k l k') : StopSeen c k' := by
  obtain ⟨pid, options, ustatus, status, k₁, rfl, hrun, hne⟩ := hr
  obtain ⟨r, hrun'⟩ := discard_eq_some hstep.2
  cases hrun.symm.trans hrun'
  obtain ⟨p, -, -, ⟨-, -, -, rfl⟩ | ⟨h, -⟩⟩ := wait4Pass_reported hrun
  · intro q hq hqc _
    obtain ⟨q₀, -, rfl⟩ := Kernel.mem_modify.mp hq
    split_ifs at hqc ⊢ with hc
    · rfl
    · exact absurd hqc hc
  · exact absurd h hne

theorem StopSeen.not_reports (h : StopSeen c k) : ¬ reportsStop k l c := by
  rintro ⟨pid, options, ustatus, status, k₁, rfl, hrun, hne⟩
  obtain ⟨p, hp, hpc, ⟨-, hst, hrep, -⟩ | ⟨h', -⟩⟩ := wait4Pass_reported hrun
  · rw [h p hp hpc hst] at hrep
    cases hrep
  · exact hne h'

theorem reportsContinue.none (hr : reportsContinue k l c) (hstep : Step k l k') :
    NoContinue c k' := by
  obtain ⟨pid, options, ustatus, k₁, rfl, hrun⟩ := hr
  obtain ⟨r, hrun'⟩ := discard_eq_some hstep.2
  cases hrun.symm.trans hrun'
  obtain ⟨p, -, -, ⟨h, -⟩ | ⟨-, -, rfl⟩⟩ := wait4Pass_reported hrun
  · exact absurd rfl h
  · intro q hq hqc
    obtain ⟨q₀, -, rfl⟩ := Kernel.mem_modify.mp hq
    split_ifs at hqc ⊢ with hc
    · rfl
    · exact absurd hqc hc

theorem NoContinue.not_reports (h : NoContinue c k) : ¬ reportsContinue k l c := by
  rintro ⟨pid, options, ustatus, k₁, rfl, hrun⟩
  obtain ⟨p, hp, hpc, ⟨h', -⟩ | ⟨-, hflag, -⟩⟩ := wait4Pass_reported hrun
  · exact h' rfl
  · rw [h p hp hpc] at hflag
    cases hflag

theorem stop_reported_once (hk : Sound k) (hstep : Step k l k') (hr : reportsStop k l c)
    (h : Reaches Step (fun k _ => stoppedIn k c) k' k₂) (l' : Label) :
    ¬ reportsStop k₂ l' c := by
  have hinv := h.invariant (I := fun k => Sound k ∧ StopSeen c k) ⟨hk.step hstep, hr.seen hstep⟩
    fun _ _ _ hi hs hst => ⟨hi.1.step hst, hi.2.step hi.1 hst hs⟩
  exact hinv.2.not_reports

/-- Once a continuation of `c` is reported, none is reported until `c` has been
stopped and continued again. -/
theorem continue_reported_once (hk : Sound k) (hstep : Step k l k') (hr : reportsContinue k l c)
    (h : Reaches Step (fun k l => ¬ continues k l c) k' k₂) (l' : Label) :
    ¬ reportsContinue k₂ l' c := by
  have hinv := h.invariant (I := fun k => Sound k ∧ NoContinue c k) ⟨hk.step hstep, hr.none hstep⟩
    fun _ _ _ hi hs hst => ⟨hi.1.step hst, hi.2.step hi.1 hst hs⟩
  exact hinv.2.not_reports

/-! ### Stops and continuations are never pending together -/

/-- No stop signal is sent to a process for which `SIGCONT` is pending. -/
def StopsSpareCont (k : Kernel) (l : Label) : Prop :=
  ∀ t ∈ k.procs, ∀ s ∈ stopSignals, sendsTo k t s l → contPending t = false

/-- A stop signal and `SIGCONT` are not both pending. -/
def Exclusive (k : Kernel) : Prop := ∀ p ∈ k.procs, contPending p = true → ¬ stopPending p

theorem sends_exclusive (hs : s ∈ stopSignals) (h : sends k l c s) : ¬ sends k l c SIGCONT := by
  rintro ⟨t', -, -, ht'⟩
  obtain ⟨t, -, -, ht⟩ := h
  have hne : s ≠ SIGCONT := by
    rintro rfl
    exact absurd hs (by decide)
  have hhup : ¬ (s = SIGHUP ∨ s = SIGCONT) := by
    rintro (rfl | rfl) <;> exact absurd hs (by decide)
  cases l with
  | call c =>
    cases c with
    | kill pid sig => exact hne (ht.2.2.1.trans ht'.2.2.1.symm)
    | raiseGroup pgid sig => exact hne (ht.1.trans ht'.1.symm)
    | exit status | sigreturn frame => exact hhup ht.1
    | _ => exact ht.elim
  | ret path copied =>
    rcases ht with ⟨rfl, -⟩ | ⟨h, -⟩
    · exact absurd hs (by decide)
    · exact hhup h
  | dispatch pid => exact hhup ht.1
  | tick fromUser => exact absurd ht'.1 (by decide)
  | tty sig => exact hne (ht.1.trans ht'.1.symm)
  | enter tf | reapOrphan | wake pid | wakeChan chan => exact ht.elim

theorem Exclusive.step (hk : Sound k) (hstep : Step k l k') (hok : StopsSpareCont k l)
    (h : Exclusive k) : Exclusive k' := by
  have hinv : Exclusive k' ∧ ∀ p ∈ k'.procs, ∀ s ∈ stopSignals, sends k l p.pid s →
      contPending p = false := by
    refine (hstep.moves hk).table_invariant (I := fun k₁ => Exclusive k₁ ∧
      ∀ p ∈ k₁.procs, ∀ s ∈ stopSignals, sends k l p.pid s → contPending p = false)
      hk.toTable ⟨h, ?_⟩ ?_
    · rintro p hp s hs ⟨t, ht, htp, hsend⟩
      exact hk.toTable.eq_of_pid ht hp htp ▸ hok t ht s hs hsend
    · intro k₁ k₂ ht h₁ hmove
      have hjobs := hmove.jobMoves ht
      refine ⟨fun q hq hcont hstop => ?_, fun q hq s hs hsend => ?_⟩
      · rcases hjobs.mem q hq with ⟨p, hp, hpq⟩ | hf
        · obtain ⟨s, hs, hpend⟩ := hstop
          have hp₁ : contPending p = true :=
            (hpq.cont hcont).resolve_right fun h => h.2 ⟨s, hs, hpend⟩
          rcases hpq.stop s hs hpend with e | e
          · exact h₁.1 p hp hp₁ ⟨s, hs, e⟩
          · rw [h₁.2 p hp s hs e] at hp₁
            cases hp₁
        · rw [contPending, hf.pending] at hcont
          simp at hcont
      · rcases hjobs.mem q hq with ⟨p, hp, hpq⟩ | hf
        · rw [hpq.ident] at hsend
          by_contra hcont
          rcases hpq.cont (by simpa using hcont) with e | ⟨e, -⟩
          · rw [h₁.2 p hp s hs hsend] at e
            cases e
          · exact sends_exclusive hs hsend e
        · rw [contPending, hf.pending]
          simp
  exact hinv.1

theorem Exclusive.boot (pid : ℤ) (entry sp : BitVec 64) : Exclusive (bootKernel pid entry sp) := by
  intro p hp hcont
  rw [mem_singleton.mp hp] at hcont
  change (0 : BitVec 64).getLsbD SIGCONT = true at hcont
  simp at hcont

theorem sendSignal_cont (hs : s ∈ stopSignals) {q : Pcb}
    (hall : ∀ p ∈ k.procs, p.pid = t.pid → contPending p = false)
    (hq : q ∈ (sendSignal k t.pid s).procs) (hpid : q.pid = t.pid) : contPending q = false := by
  obtain ⟨p, hp, hpq⟩ := forall₂_mem (sendSignal_jobs k t.pid s) hq
  by_contra hcont
  rcases hpq.pending SIGCONT (by simpa [contPending] using hcont) with e | e | ⟨-, rfl⟩
  · have := hall p hp (hpq.ident.symm.trans hpid)
    rw [contPending, e] at this
    cases this
  · exact absurd e (by decide)
  · exact absurd hs (by decide)

/-- In every run in which no stop is sent to a process with `SIGCONT` pending:
a stopped process goes on only by `SIGCONT` or `SIGKILL`, generating one kind of
signal discards the other, the two kinds are never pending together, and every
stop and every continuation is reported at most once. -/
theorem job_control (pid : ℤ) (hpid : 0 < pid) (entry sp : BitVec 64) {k : Kernel}
    (h : Reaches Step StopsSpareCont (bootKernel pid entry sp) k) :
    (∀ l k' c, Step k l k' → stoppedIn k c →
      stoppedIn k' c ∨ sends k l c SIGCONT ∨ sends k l c SIGKILL) ∧
    (∀ t ∈ k.procs, t.isUser = true → NoStops t.pid (sendSignal k t.pid SIGCONT)) ∧
    (∀ t ∈ k.procs, ∀ s ∈ stopSignals, contPending t = false →
      ∀ q ∈ (sendSignal k t.pid s).procs, q.pid = t.pid → contPending q = false) ∧
    Exclusive k ∧
    (∀ l k' c, Step k l k' → reportsStop k l c →
      ∀ k₂, Reaches Step (fun k _ => stoppedIn k c) k' k₂ → ∀ l', ¬ reportsStop k₂ l' c) ∧
    ∀ l k' c, Step k l k' → reportsContinue k l c →
      ∀ k₂, Reaches Step (fun k l => ¬ continues k l c) k' k₂ →
        ∀ l', ¬ reportsContinue k₂ l' c := by
  have hinv := h.invariant (I := fun k => Sound k ∧ Exclusive k)
    ⟨Sound.boot hpid entry sp, Exclusive.boot pid entry sp⟩
    fun _ _ _ hi hok hst => ⟨hi.1.step hst, hi.2.step hi.1 hst hok⟩
  obtain ⟨hk, hex⟩ := hinv
  refine ⟨fun l k' c => stopped_stays hk, fun t ht => sendSignal_noStops hk.toTable ht, ?_, hex,
    fun l k' c hstep hr k₂ => stop_reported_once hk hstep hr,
    fun l k' c hstep hr k₂ => continue_reported_once hk hstep hr⟩
  intro t ht s hs hcont q hq hpid
  refine sendSignal_cont hs (fun p hp he => ?_) hq hpid
  rw [hk.toTable.eq_of_pid hp ht he]
  exact hcont

/-- Init stops itself with `SIGTSTP`. -/
def selfStop : List Label :=
  [.dispatch 1, .enter fun _ => 0x10000, .call (.kill 1 20), .ret .checked true]

theorem job_control_selfStop : ∃ k,
    runUnder (fun k _ => k.procs.all fun p => !contPending p) selfStop
      (bootKernel 1 0x10000 0x20000) = some k ∧ stoppedIn k 1 ∧ Exclusive k ∧
    ∀ l k', Step k l k' → stoppedIn k' 1 ∨ sends k l 1 SIGCONT ∨ sends k l 1 SIGKILL := by
  refine exists_end (P := fun k => ∃ p ∈ k.procs, p.pid = 1 ∧ p.state = .stopped)
    (by decide +kernel) ?_
  intro k hk hstopped
  have hreach : Reaches Step StopsSpareCont (bootKernel 1 0x10000 0x20000) k := by
    refine (runUnder_reaches hk).mono fun k l hall t ht s _ _ => ?_
    simpa using all_eq_true.mp hall t ht
  have hlaws := job_control 1 (by decide) 0x10000 0x20000 hreach
  exact ⟨hstopped, hlaws.2.2.2.1, fun l k' hstep => hlaws.1 l k' 1 hstep hstopped⟩

/-- Init catches and blocks `SIGCONT`, sends it to itself, then `SIGTSTP`. -/
def contThenStop : List Label :=
  [.dispatch 1, .enter fun _ => 0x10000,
    .call (.sigaction 18 (some (some ⟨0x10000, 0, 0, 0x10000⟩)) true),
    .call (.sigprocmask 0 (some (some (sigBit 18))) true), .call (.kill 1 18), .call (.kill 1 20)]

/-- The stop leaves the pending `SIGCONT` in place. -/
theorem cont_pending_behind_stop : ∃ k,
    runLabels contThenStop (bootKernel 1 0x10000 0x20000) = some k ∧
    ∃ p ∈ k.procs, contPending p = true ∧ p.sigPending.getLsbD SIGTSTP = true :=
  runLabels_any (by decide +kernel)

end Sbunix.Proc
