import Sbunix.Proc.Machine

/-!
# What the calls can do to the process table

`Quiet` bounds what signals, wakeups, job control and descriptor calls can do
to a process: it keeps its identity, its parent, its times and the place where
it continues, it is a zombie afterwards if and only if it was one, and its
unblockable signals stay unblocked. What is left is `fork`, `exit`, `wait4`,
`kill` and the scheduler.
-/

namespace Sbunix.Proc

open List Lib.Kern Lib

def Unblockable (s : ℕ) : Prop := s = SIGKILL ∨ s = SIGSTOP

instance (s : ℕ) : Decidable (Unblockable s) := inferInstanceAs (Decidable (_ ∨ _))

/-- `SIGKILL` and `SIGSTOP` are not blocked, not in the mask an active
`sigsuspend` will restore, and have the default disposition. -/
def SigOk (p : Pcb) : Prop :=
  ∀ s, Unblockable s → p.sigBlocked.getLsbD s = false ∧
    (p.sigSuspendActive = true → p.sigSuspendSavedMask.getLsbD s = false) ∧
    (p.sigHandlers s).handler = SIG_DFL

/-- `SIGKILL` is pending. -/
def killPending (p : Pcb) : Bool := p.sigPending.getLsbD SIGKILL

theorem strip_getLsbD (m : BitVec 64) {s : ℕ} (h : Unblockable s) :
    (strip m).getLsbD s = false := by
  have hu : unmaskable.getLsbD s = true := by
    rcases h with rfl | rfl <;> decide
  simp [strip, hu]

/-- What a process is, apart from its signals and its job control. -/
structure Core where
  pid : ℤ
  generation : ℕ
  parentPid : ℤ
  exitStatus : ℤ
  isUser : Bool
  utimeTicks : BitVec 64
  stimeTicks : BitVec 64
  cutimeTicks : BitVec 64
  cstimeTicks : BitVec 64
  resume : Resume

def Pcb.core (p : Pcb) : Core :=
  ⟨p.pid, p.generation, p.parentPid, p.exitStatus, p.isUser, p.utimeTicks, p.stimeTicks,
    p.cutimeTicks, p.cstimeTicks, p.resume⟩

def Woken (s s' : ProcState) : Prop := s' = s ∨ s' = .ready ∧ (s = .sleeping ∨ s = .stopped)

variable {s s' : ProcState} {S : ℕ → Prop} {p q : Pcb} {D : Prop} {α β : Type} {k' : Kernel}

theorem Woken.trans {s'' : ProcState} (h : Woken s s') (h' : Woken s' s'') : Woken s s'' := by
  rcases h' with rfl | ⟨rfl, h'⟩
  · exact h
  · rcases h with rfl | ⟨rfl, h⟩
    · exact .inr ⟨rfl, h'⟩
    · exact .inr ⟨rfl, h⟩

theorem Woken.zombie (h : Woken s s') : s' = .zombie ↔ s = .zombie := by
  rcases h with rfl | ⟨rfl, rfl | rfl⟩ <;> simp

theorem Woken.running (h : Woken s s') : s' = .running ↔ s = .running := by
  rcases h with rfl | ⟨rfl, rfl | rfl⟩ <;> simp

theorem Woken.unused (h : Woken s s') : s' = .unused ↔ s = .unused := by
  rcases h with rfl | ⟨rfl, rfl | rfl⟩ <;> simp

/-- The effect on one process; with `D` its descriptors are kept as well. -/
structure Quiet (D : Prop) (p q : Pcb) : Prop where
  core : q.core = p.core
  state : Woken p.state q.state
  sig : SigOk p → SigOk q
  kill : killPending p = false → killPending q = false
  fds : D → q.ofile = p.ofile ∧ q.cloexecMask = p.cloexecMask

namespace Quiet

variable {r : Pcb}

theorem refl (p : Pcb) : Quiet D p p := ⟨rfl, .inl rfl, id, id, fun _ => ⟨rfl, rfl⟩⟩

theorem trans (h : Quiet D p q) (h' : Quiet D q r) : Quiet D p r where
  core := h'.core.trans h.core
  state := h.state.trans h'.state
  sig hp := h'.sig (h.sig hp)
  kill hp := h'.kill (h.kill hp)
  fds d := ⟨(h'.fds d).1.trans (h.fds d).1, (h'.fds d).2.trans (h.fds d).2⟩

theorem pid (h : Quiet D p q) : q.pid = p.pid := congrArg Core.pid h.core

theorem resume (h : Quiet D p q) : q.resume = p.resume := congrArg Core.resume h.core

theorem isUser (h : Quiet D p q) : q.isUser = p.isUser := congrArg Core.isUser h.core

theorem of_sig_eq (hcore : q.core = p.core) (hstate : q.state = p.state)
    (hpending : q.sigPending = p.sigPending) (hblocked : q.sigBlocked = p.sigBlocked)
    (hactive : q.sigSuspendActive = p.sigSuspendActive)
    (hsaved : q.sigSuspendSavedMask = p.sigSuspendSavedMask)
    (hhandlers : q.sigHandlers = p.sigHandlers)
    (hfds : D → q.ofile = p.ofile ∧ q.cloexecMask = p.cloexecMask) : Quiet D p q := by
  refine ⟨hcore, .inl hstate, ?_, ?_, hfds⟩
  · intro h s hs
    rw [hblocked, hactive, hsaved, hhandlers]
    exact h s hs
  · unfold killPending
    rw [hpending]
    exact id

theorem of_sig (hcore : q.core = p.core) (hstate : q.state = p.state)
    (hpending : q.sigPending = p.sigPending) (hsig : SigOk p → SigOk q)
    (hfds : q.ofile = p.ofile ∧ q.cloexecMask = p.cloexecMask) : Quiet D p q := by
  refine ⟨hcore, .inl hstate, hsig, ?_, fun _ => hfds⟩
  unfold killPending
  rw [hpending]
  exact id

theorem pending (p : Pcb) {m : BitVec 64}
    (hm : m.getLsbD SIGKILL = true → p.sigPending.getLsbD SIGKILL = true) :
    Quiet D p { p with sigPending := m } := by
  refine ⟨rfl, .inl rfl, id, ?_, fun _ => ⟨rfl, rfl⟩⟩
  intro hp
  by_contra hc
  rw [killPending, hm (by simpa [killPending] using hc)] at hp
  cases hp

end Quiet

theorem SigOk.sent (h : Sent S p q) (hp : SigOk p) : SigOk q := by
  intro s hs
  obtain ⟨hb, hm, hh⟩ := hp s hs
  refine ⟨?_, ?_, ?_⟩
  · by_contra hc
    simp [h.blocked s (by simpa using hc)] at hb
  · rw [h.frame]
    exact hm
  · rcases h.handler s with e | ⟨_, e⟩
    · rw [e, hh]
    · exact e

/-- The signals other than `SIGKILL`. -/
def NotKill (s : ℕ) : Prop := s ≠ SIGKILL

instance (s : ℕ) : Decidable (NotKill s) := inferInstanceAs (Decidable (_ ≠ _))

theorem Sent.weaken {S' : ℕ → Prop} (h : Sent S p q) (hS : ∀ s, S s → S' s) : Sent S' p q :=
  ⟨h.frame, h.state, h.blocked, h.kept, h.handler, fun i hi => (h.raised i hi).imp_right (hS i),
    h.deadline⟩

theorem Sent.core (h : Sent S p q) : q.core = p.core := by
  rw [h.frame]
  rfl

theorem Sent.pid (h : Sent S p q) : q.pid = p.pid :=
  congrArg Core.pid h.core

theorem Sent.quiet (h : Sent NotKill p q) : Quiet D p q where
  core := h.core
  state := h.state
  sig := SigOk.sent h
  kill hp := by
    by_contra hc
    rcases h.raised SIGKILL (by simpa [killPending] using hc) with e | e
    · rw [killPending, e] at hp
      cases hp
    · exact e rfl
  fds _ := by
    rw [h.frame]
    exact ⟨rfl, rfl⟩

/-! ### The whole table -/

variable {l : List α} {l' : List β} {a : α} {k₀ : Kernel}

theorem forall₂_mem {R : α → β → Prop}
    (h : List.Forall₂ R l l') {b : β} (hb : b ∈ l') : ∃ a ∈ l, R a b := by
  induction h with
  | nil => simp at hb
  | cons hd _ ih =>
    rcases mem_cons.mp hb with rfl | hb
    · exact ⟨_, mem_cons_self, hd⟩
    · obtain ⟨a, ha, hr⟩ := ih hb
      exact ⟨a, mem_cons_of_mem _ ha, hr⟩

theorem forall₂_mem_left {R : α → β → Prop}
    (h : List.Forall₂ R l l') (ha : a ∈ l) : ∃ b ∈ l', R a b :=
  forall₂_mem h.flip ha

theorem forall₂_comp {γ : Type} {R : α → β → Prop} {S : β → γ → Prop} {T : α → γ → Prop}
    {l'' : List γ} (h : List.Forall₂ R l l') (h' : List.Forall₂ S l' l'')
    (hT : ∀ a b c, R a b → S b c → T a c) : List.Forall₂ T l l'' := by
  induction h generalizing l'' with
  | nil =>
    cases h'
    exact .nil
  | cons hd _ ih =>
    cases h' with
    | cons hd' tl' => exact .cons (hT _ _ _ hd hd') (ih tl')

/-- Every process stays in its place, changed as `Quiet` says; with `D` the open
files are kept as well. -/
structure QuietAll (D : Prop) (k k' : Kernel) : Prop where
  current : k'.current = k.current
  nextPid : k'.nextPid = k.nextPid
  initPid : k'.initPid = k.initPid
  generationSeq : k'.generationSeq = k.generationSeq
  files : D → k'.ftable = k.ftable ∧ k'.pipes = k.pipes
  procs : List.Forall₂ (Quiet D) k.procs k'.procs

variable {pid fd : ℤ} {g : Pcb → Pcb} {k : Kernel}

namespace QuietAll

variable {k'' : Kernel}

theorem refl (k : Kernel) : QuietAll D k k :=
  ⟨rfl, rfl, rfl, rfl, fun _ => ⟨rfl, rfl⟩, forall₂_same.mpr fun p _ => Quiet.refl p⟩

theorem trans (h : QuietAll D k k') (h' : QuietAll D k' k'') : QuietAll D k k'' :=
  ⟨h'.current.trans h.current, h'.nextPid.trans h.nextPid, h'.initPid.trans h.initPid,
    h'.generationSeq.trans h.generationSeq,
    fun d => ⟨(h'.files d).1.trans (h.files d).1, (h'.files d).2.trans (h.files d).2⟩,
    forall₂_comp h.procs h'.procs fun _ _ _ => Quiet.trans⟩

instance : Std.Refl (QuietAll D) := ⟨refl⟩

instance : IsTrans Kernel (QuietAll D) := ⟨fun _ _ _ => trans⟩

theorem modify (hg : ∀ p, Quiet D p (g p)) : QuietAll D k (k.modify pid g) := by
  refine ⟨rfl, rfl, rfl, rfl, fun _ => ⟨rfl, rfl⟩, ?_⟩
  refine forall₂_map_right_iff.mpr (forall₂_same.mpr fun p _ => ?_)
  split
  · exact hg p
  · exact Quiet.refl p

theorem of_sends (h : Sends NotKill k k') : QuietAll D k k' := by
  have hf := h.frame
  refine ⟨?_, ?_, ?_, ?_, fun _ => ⟨?_, ?_⟩, h.procs.imp fun _ _ hs => hs.quiet⟩ <;> rw [hf]

theorem mono (h : QuietAll D k k') (D' : Prop) (hD : D' → D) : QuietAll D' k k' :=
  ⟨h.current, h.nextPid, h.initPid, h.generationSeq, fun d => h.files (hD d),
    h.procs.imp fun _ _ hq => ⟨hq.core, hq.state, hq.sig, hq.kill, fun d => hq.fds (hD d)⟩⟩

end QuietAll

theorem QuietAll.mem (h : QuietAll D k k') (hq : q ∈ k'.procs) : ∃ p ∈ k.procs, Quiet D p q :=
  forall₂_mem h.procs hq

theorem modifyCurrent_run (he : modifyCurrent g k = (some (), k')) :
    k' = k ∨ ∃ pid, k.current = some pid ∧ k' = k.modify pid g := by
  unfold modifyCurrent at he
  split at he
  · cases he
    exact .inl rfl
  · next pid hpid =>
    cases he
    exact .inr ⟨pid, hpid, rfl⟩

theorem modifyCurrent_quiet (hg : ∀ p, Quiet D p (g p)) :
    Kern.Rel (QuietAll D) (modifyCurrent g) := by
  intro k a k' he
  rcases modifyCurrent_run he with rfl | ⟨pid, -, rfl⟩
  · exact QuietAll.refl k'
  · exact QuietAll.modify hg

theorem notifyParent_sends (k : Kernel) (pid : ℤ) : Sends NotKill k (notifyParent k pid) :=
  (sendChld_sends k (by decide) pid).trans (procWakeup_sends _ pid)

/-! ### Descriptors -/

/-- What is true across the stores to open files and pipes. -/
structure FileEffects (R : Kernel → Kernel → Prop) : Prop where
  setFile : ∀ k f x, R k (k.setFile f x)
  pipeClose : ∀ k i w, R k (pipeClose k i w)
  pipeOpen : ∀ {k i}, (k.pipes i).readopen = false → (k.pipes i).writeopen = false →
    R k (k.setPipe i ⟨true, true⟩)

def Slotted (p q : Pcb) : Prop := q = { p with ofile := q.ofile, cloexecMask := q.cloexecMask }

/-- And across the stores to the descriptor tables of the processes in `A`. -/
structure FdEffects (R : Kernel → Kernel → Prop) (A : ℤ → Prop) : Prop extends FileEffects R where
  slots : ∀ {k pid g}, A pid → (∀ p, Slotted p (g p)) → R k (k.modify pid g)
  execed : ∀ {k pid entry sp}, A pid → R k (k.modify pid (Pcb.execed entry sp))

theorem filealloc_pipes {f : Option ℕ} (he : filealloc k = (some f, k')) : k'.pipes = k.pipes := by
  unfold filealloc at he
  split at he <;> cases he <;> rfl

theorem pipePoolAlloc_free {i : ℕ} (h : pipePoolAlloc k = some i) :
    (k.pipes i).readopen = false ∧ (k.pipes i).writeopen = false := by
  have := find?_some h
  simpa using this

section

variable {R : Kernel → Kernel → Prop} [Std.Refl R] [IsTrans Kernel R] (hR : FileEffects R)

include hR

omit [IsTrans Kernel R] in
theorem filealloc_rel : Kern.Rel R filealloc := by
  intro k a k' he
  unfold filealloc at he
  split at he <;> cases he
  · exact Std.Refl.refl k
  · exact hR.setFile k _ _

omit [Std.Refl R] [IsTrans Kernel R] in
theorem filedup_rel (f : ℕ) : Kern.Rel R (filedup f) := by
  intro k a k' he
  unfold filedup at he
  split at he <;> cases he
  exact hR.setFile k _ _

theorem fileRelease_rel (k : Kernel) (f : ℕ) : R k (fileRelease k f) := by
  unfold fileRelease
  dsimp only
  refine IsTrans.trans _ _ _ ?_ (hR.setFile _ _ _)
  split
  · exact hR.pipeClose k _ _
  · exact Std.Refl.refl k

theorem fileclose_rel (f : ℕ) : Kern.Rel R (fileclose f) := by
  intro k a k' he
  unfold fileclose at he
  dsimp only at he
  split at he
  · cases he
  · split at he <;> cases he
    · exact IsTrans.trans _ _ _ (hR.setFile k f _) (fileRelease_rel hR _ f)
    · exact hR.setFile k f _

theorem pipeAlloc_rel : Kern.Rel R pipeAlloc := by
  intro k a k' he
  unfold pipeAlloc at he
  rw [get_bind] at he
  rcases hi : pipePoolAlloc k with _ | i
  · simp only [hi] at he
    cases he
    exact Std.Refl.refl _
  simp only [hi] at he
  obtain ⟨rf, k₁, h1, he⟩ := bind_eq_some.mp he
  have hd₁ := filealloc_rel hR k rf k₁ h1
  split at he
  · cases he
    exact hd₁
  obtain ⟨wf, k₂, h2, he⟩ := bind_eq_some.mp he
  have hd₂ := IsTrans.trans _ _ _ hd₁ (filealloc_rel hR k₁ wf k₂ h2)
  split at he
  · obtain ⟨⟨⟩, k₃, h3, he⟩ := bind_eq_some.mp he
    obtain ⟨-, rfl⟩ := pure_eq_some.mp he
    exact IsTrans.trans _ _ _ hd₂ (fileclose_rel hR _ k₂ () k₃ h3)
  · rw [modify_bind] at he
    cases he
    -- the pool entry is still free: allocating files does not touch the pipes
    have hpipes : k₂.pipes = k.pipes := (filealloc_pipes h2).trans (filealloc_pipes h1)
    have hfree := pipePoolAlloc_free hi
    rw [← hpipes] at hfree
    refine IsTrans.trans _ _ _ hd₂ (IsTrans.trans _ _ _ (hR.pipeOpen hfree.1 hfree.2) ?_)
    exact IsTrans.trans _ _ _ (hR.setFile _ _ _) (hR.setFile _ _ _)

theorem dupFds_rel (ofile : ℕ → Option ℕ) : Kern.Rel R (dupFds ofile) := by
  refine Kern.Rel.loop (fun fd => ?_) 0 NOFILE
  split
  · exact Kern.Rel.pure ()
  · exact filedup_rel hR _

theorem closeOrphan_rel (ofile : ℕ → Option ℕ) : Kern.Rel R (closeOrphan ofile) := by
  refine Kern.Rel.loop (fun fd => ?_) 0 NOFILE
  split
  · exact Kern.Rel.pure ()
  · exact fileclose_rel hR _

end

section

variable {R : Kernel → Kernel → Prop} [Std.Refl R] [IsTrans Kernel R] {A : ℤ → Prop}
  (hR : FdEffects R A)

include hR

omit [Std.Refl R] [IsTrans Kernel R] in
theorem slots_rel (hpid : A pid) (hg : ∀ p, Slotted p (g p)) :
    Kern.Rel R (Kern.modify fun k : Kernel => k.modify pid g) :=
  Kern.Rel.modify fun _ => hR.slots hpid hg

omit [IsTrans Kernel R] in
theorem allocFd_rel (hpid : A pid) (f : ℕ) : Kern.Rel R (allocFd pid f) := by
  intro k a k' he
  unfold allocFd at he
  split at he <;> cases he
  · exact Std.Refl.refl k
  · exact hR.slots hpid fun _ => rfl

theorem dup2Onto_rel (hpid : A pid) (f : ℕ) (old : Option ℕ) (newfd : ℕ) :
    Kern.Rel R (dup2Onto pid f old newfd) := by
  unfold dup2Onto
  have hend : Kern.Rel R (do
      filedup f
      Kern.modify fun k => k.modify pid fun p => (p.setFd newfd (some f)).clearCloexec newfd
      pure (newfd : ℤ)) := by
    refine Kern.Rel.bind (filedup_rel hR.toFileEffects _) fun _ => ?_
    exact Kern.Rel.bind (slots_rel hR hpid fun _ => rfl) fun _ => Kern.Rel.pure _
  split
  · exact hend
  · exact Kern.Rel.bind (fileclose_rel hR.toFileEffects _) fun _ => hend

theorem pipeInstall_rel (hpid : A pid) (rf wf : ℕ) (copied : Bool) :
    Kern.Rel R (pipeInstall pid rf wf copied) := by
  have hclose : ∀ r : ℤ × Option (ℕ × ℕ), Kern.Rel R (do
      fileclose rf
      fileclose wf
      pure r) := fun r =>
    Kern.Rel.bind (fileclose_rel hR.toFileEffects _) fun _ =>
      Kern.Rel.bind (fileclose_rel hR.toFileEffects _) fun _ => Kern.Rel.pure _
  unfold pipeInstall
  refine Kern.Rel.bind (allocFd_rel hR hpid _) fun fd0 => ?_
  split
  · exact hclose _
  refine Kern.Rel.bind (allocFd_rel hR hpid _) fun fd1 => ?_
  split
  · exact Kern.Rel.bind (slots_rel hR hpid fun _ => rfl) fun _ => hclose _
  refine Kern.Rel.ite (Kern.Rel.pure _) ?_
  exact Kern.Rel.bind (slots_rel hR hpid fun _ => rfl) fun _ => hclose _

theorem closeFd_rel (hpid : A pid) (fd : ℕ) : Kern.Rel R (closeFd pid fd) := by
  unfold closeFd
  refine Kern.Rel.bind Kern.Rel.get fun k => ?_
  split
  · exact Kern.Rel.pure _
  exact Kern.Rel.bind (fileclose_rel hR.toFileEffects _) fun _ => slots_rel hR hpid fun _ => rfl

theorem closeFds_rel (hpid : A pid) (sel : ℕ → Bool) : Kern.Rel R (closeFds pid sel) := by
  refine Kern.Rel.loop (fun fd => ?_) 0 NOFILE
  split
  · exact closeFd_rel hR hpid fd
  · exact Kern.Rel.pure _

end

/-- Every return of `x` is within `R` if the process that runs is in `A`. -/
def Within (R : Kernel → Kernel → Prop) (A : ℤ → Prop) {α : Type} (x : Kern Kernel α) : Prop :=
  ∀ k a k', (∀ pid, k.current = some pid → A pid) → x k = (some a, k') → R k k'

theorem currentProc_find (h : k.currentProc = some p) : k.find p.pid = some p := by
  unfold Kernel.currentProc at h
  obtain ⟨pid, _, hfind⟩ := Option.bind_eq_some_iff.mp h
  obtain ⟨-, rfl⟩ := Kernel.find_mem hfind
  exact hfind

theorem currentProc_mem (h : k.currentProc = some p) : p ∈ k.procs ∧ k.current = some p.pid := by
  unfold Kernel.currentProc at h
  obtain ⟨pid, hpid, hfind⟩ := Option.bind_eq_some_iff.mp h
  obtain ⟨hmem, rfl⟩ := Kernel.find_mem hfind
  exact ⟨hmem, hpid⟩

theorem openFd_current {f : ℕ} (h : openFd k fd = some (p, f)) : k.currentProc = some p := by
  unfold openFd at h
  split at h
  · cases h
  next q hq =>
  split_ifs at h
  obtain ⟨g, -, hg⟩ := Option.map_eq_some_iff.mp h
  cases hg
  exact hq

section

variable {R : Kernel → Kernel → Prop} [Std.Refl R] {A : ℤ → Prop}

theorem Within.current {f : Pcb → Kern Kernel α} (hf : ∀ p, A p.pid → Kern.Rel R (f p)) :
    Within R A (Kern.get >>= fun k => match k.currentProc with
      | none => pure a
      | some p => f p) := by
  intro k b k' hA he
  rw [get_bind] at he
  rcases hp : k.currentProc with _ | p <;> simp only [hp] at he
  · exact Kern.Rel.pure a k b k' he
  · exact hf p (hA _ (currentProc_mem hp).2) k b k' he

theorem Within.openFd {f : Pcb → ℕ → Kern Kernel α} (hf : ∀ p g, A p.pid → Kern.Rel R (f p g)) :
    Within R A (Kern.get >>= fun k => match openFd k fd with
      | none => pure a
      | some (p, g) => f p g) := by
  intro k b k' hA he
  rw [get_bind] at he
  rcases hp : Proc.openFd k fd with _ | ⟨p, g⟩ <;> simp only [hp] at he
  · exact Kern.Rel.pure a k b k' he
  · exact hf p g (hA _ (currentProc_mem (openFd_current hp)).2) k b k' he

variable [IsTrans Kernel R] (hR : FdEffects R A)

include hR

theorem doOpen_within (res : Except ℤ Unit) (flags : BitVec 32) :
    Within R A (doOpen res flags) := by
  unfold doOpen
  refine Within.current fun p hpid => ?_
  refine Kern.Rel.ite (Kern.Rel.pure _) ?_
  split
  · exact Kern.Rel.pure _
  refine Kern.Rel.bind (filealloc_rel hR.toFileEffects) fun f => ?_
  split
  · exact Kern.Rel.pure _
  refine Kern.Rel.bind (allocFd_rel hR hpid _) fun fd => ?_
  split
  · exact Kern.Rel.bind (fileclose_rel hR.toFileEffects _) fun _ => Kern.Rel.pure _
  refine Kern.Rel.ite ?_ (Kern.Rel.pure _)
  exact Kern.Rel.bind (slots_rel hR hpid fun _ => rfl) fun _ => Kern.Rel.pure _

theorem sysClose_within (fd : ℤ) : Within R A (sysClose fd) := by
  unfold sysClose
  refine Within.openFd fun p f hpid => ?_
  refine Kern.Rel.bind (fileclose_rel hR.toFileEffects _) fun _ => ?_
  exact Kern.Rel.bind (slots_rel hR hpid fun _ => rfl) fun _ => Kern.Rel.pure _

theorem sysDup_within (fd : ℤ) : Within R A (sysDup fd) := by
  unfold sysDup
  refine Within.openFd fun p f hpid => ?_
  refine Kern.Rel.ite (Kern.Rel.pure _) ?_
  refine Kern.Rel.bind (filedup_rel hR.toFileEffects _) fun _ => ?_
  refine Kern.Rel.bind (allocFd_rel hR hpid _) fun newfd => ?_
  split
  · exact Kern.Rel.bind (fileclose_rel hR.toFileEffects _) fun _ => Kern.Rel.pure _
  exact Kern.Rel.bind (slots_rel hR hpid fun _ => rfl) fun _ => Kern.Rel.pure _

theorem sysDup2_within (oldfd newfd : ℤ) : Within R A (sysDup2 oldfd newfd) := by
  unfold sysDup2
  refine Within.openFd fun p f hpid => ?_
  refine Kern.Rel.ite (Kern.Rel.pure _) (Kern.Rel.ite (Kern.Rel.pure _)
    (Kern.Rel.ite (Kern.Rel.pure _) (Kern.Rel.ite (Kern.Rel.pure _) ?_)))
  exact dup2Onto_rel hR hpid _ _ _

theorem sysFcntlSetfd_within (fd : ℤ) (arg : BitVec 64) : Within R A (sysFcntlSetfd fd arg) := by
  unfold sysFcntlSetfd
  refine Within.openFd fun p f hpid => ?_
  refine Kern.Rel.bind (slots_rel hR hpid fun p => ?_) fun _ => Kern.Rel.pure _
  split <;> rfl

theorem sysPipe_within (fds : Option Bool) : Within R A (sysPipe fds) := by
  unfold sysPipe
  rcases fds with _ | copied
  · exact fun k a k' _ he => Kern.Rel.pure _ k a k' he
  refine Within.current fun p hpid => ?_
  refine Kern.Rel.ite (Kern.Rel.pure _) (Kern.Rel.bind (pipeAlloc_rel hR.toFileEffects) fun r => ?_)
  split
  · exact Kern.Rel.pure _
  · exact pipeInstall_rel hR hpid _ _ _

theorem doExec_within (image : Except ℤ (BitVec 64 × BitVec 64)) : Within R A (doExec image) := by
  unfold doExec
  refine Within.current fun p hpid => ?_
  refine Kern.Rel.ite (Kern.Rel.pure _) ?_
  split
  · exact Kern.Rel.pure _
  refine Kern.Rel.bind (closeFds_rel hR hpid _) fun _ => ?_
  exact Kern.Rel.bind (Kern.Rel.modify fun _ => hR.execed hpid) fun _ => Kern.Rel.pure _

end

/-- Operations on open files: the file table and the pipes change, and sleepers
may be woken. -/
structure Wakes (k k' : Kernel) : Prop where
  frame : k' = { k with procs := k'.procs, ftable := k'.ftable, pipes := k'.pipes }
  procs : List.Forall₂ (Sent fun _ => False) k.procs k'.procs

namespace Wakes

variable {k'' : Kernel}

theorem of_sends (h : Sends (fun _ => False) k k') : Wakes k k' :=
  ⟨by rw [h.frame], h.procs⟩

theorem refl (k : Kernel) : Wakes k k := of_sends (Sends.refl k)

theorem trans (h : Wakes k k') (h' : Wakes k' k'') : Wakes k k'' where
  frame := by
    rw [h'.frame, h.frame]
  procs := by
    have hs : Sends (fun _ => False) { k with procs := k.procs } { k with procs := k'.procs } :=
      ⟨rfl, h.procs⟩
    have hs' : Sends (fun _ => False) { k with procs := k'.procs } { k with procs := k''.procs } :=
      ⟨rfl, h'.procs⟩
    exact (hs.trans hs').procs

instance : Std.Refl Wakes := ⟨refl⟩

instance : IsTrans Kernel Wakes := ⟨fun _ _ _ => trans⟩

theorem setFile (k : Kernel) (f : ℕ) (x : File) : Wakes k (k.setFile f x) :=
  ⟨rfl, forall₂_same.mpr fun p _ => Sent.refl p⟩

theorem setPipe (k : Kernel) (i : ℕ) (x : Pipe) : Wakes k (k.setPipe i x) :=
  ⟨rfl, forall₂_same.mpr fun p _ => Sent.refl p⟩

theorem mem (h : Wakes k k') {q : Pcb} (hq : q ∈ k'.procs) :
    ∃ p ∈ k.procs, Sent (fun _ => False) p q := by
  have hs : Sends (fun _ => False) k { k with procs := k'.procs } := ⟨rfl, h.procs⟩
  exact hs.mem hq

end Wakes

theorem pipeClose_wakes (k : Kernel) (i : ℕ) (w : Bool) : Wakes k (pipeClose k i w) :=
  (Wakes.setPipe k i _).trans (Wakes.of_sends (procWakeupChan_sends _ i))

theorem wakes_files : FileEffects Wakes :=
  ⟨Wakes.setFile, pipeClose_wakes, fun _ _ => Wakes.setPipe _ _ _⟩

theorem Wakes.quiet (h : Wakes k k') : QuietAll False k k' := by
  have hf := h.frame
  refine ⟨?_, ?_, ?_, ?_, False.elim, h.procs.imp fun _ _ hs => ?_⟩
  any_goals rw [hf]
  exact (hs.weaken fun _ => False.elim).quiet

theorem execHandlers_default {h : ℕ → SigAction} {s : ℕ} (hs : (h s).handler = SIG_DFL) :
    (execHandlers h s).handler = SIG_DFL := by
  unfold execHandlers
  split
  · rw [hs]
    rfl
  · exact hs

theorem Quiet.execed (entry sp : BitVec 64) (p : Pcb) : Quiet False p (p.execed entry sp) where
  core := rfl
  state := .inl rfl
  sig h s hs := ⟨(h s hs).1, (h s hs).2.1, execHandlers_default (h s hs).2.2⟩
  kill := id
  fds := False.elim

theorem quiet_fds : FdEffects (QuietAll False) fun _ => True where
  setFile k f x := (Wakes.setFile k f x).quiet
  pipeClose k i w := (pipeClose_wakes k i w).quiet
  pipeOpen _ _ := (Wakes.setPipe _ _ _).quiet
  slots _ hg := QuietAll.modify fun p => by
    rw [hg p]
    exact Quiet.of_sig_eq rfl rfl rfl rfl rfl rfl rfl False.elim
  execed _ := QuietAll.modify fun p => Quiet.execed _ _ p

/-! ### Fork -/

/-- The ways `proc_fork_current` can return. -/
inductive ForkRun (k : Kernel) : ℤ → Kernel → Prop
  -- nothing was allocated
  | refused {r : ℤ} : r < 0 → ForkRun k r k
  -- the page table could not be copied
  | failed {pid : ℤ} {generation : ℕ} {k₀ : Kernel} :
    allocPid k = (some (pid, generation), k₀) → ForkRun k (-ENOMEM) k₀
  -- the address space could not be copied, and the descriptors are given back
  | unwound {parent : Pcb} {pid : ℤ} {generation : ℕ} {k₀ k₁ k₂ : Kernel} :
    k.currentProc = some parent → allocPid k = (some (pid, generation), k₀) →
    dupFds parent.ofile k₀ = (some (), k₁) → closeOrphan parent.ofile k₁ = (some (), k₂) →
    ForkRun k (-ENOMEM) k₂
  | forked {parent : Pcb} {pid : ℤ} {generation : ℕ} {k₀ k₁ : Kernel} :
    k.currentProc = some parent → allocPid k = (some (pid, generation), k₀) →
    dupFds parent.ofile k₀ = (some (), k₁) →
    ForkRun k pid { k₁ with procs := k₁.procs ++ [forkChild parent pid generation] }

theorem procForkCurrent_run {env : ForkEnv} {r : ℤ}
    (he : procForkCurrent env k = (some r, k')) : ForkRun k r k' := by
  unfold procForkCurrent at he
  rw [get_bind] at he
  rcases hparent : k.currentProc with _ | parent
  · simp only [hparent] at he
    cases he
    exact .refused (by decide)
  simp only [hparent] at he
  split_ifs at he
  · cases he
    exact .refused (by decide)
  · cases he
    exact .refused (by decide)
  · cases he
    exact .refused (by decide)
  obtain ⟨⟨pid, generation⟩, k₀, halloc, he⟩ := bind_eq_some.mp he
  cases env with
  | noPcb | noPgtable =>
    cases he
    exact .failed halloc
  | noVmas =>
    change (dupFds parent.ofile >>= fun _ => closeOrphan parent.ofile >>= fun _ => pure (-ENOMEM))
      k₀
      = _ at he
    obtain ⟨⟨⟩, k₁, hdup, he⟩ := bind_eq_some.mp he
    obtain ⟨⟨⟩, k₂, hclose, he⟩ := bind_eq_some.mp he
    cases he
    exact .unwound hparent halloc hdup hclose
  | ok =>
    change (dupFds parent.ofile >>= fun _ => Kern.modify (fun k : Kernel =>
      { k with procs := k.procs ++ [forkChild parent pid generation] }) >>= fun _ => pure pid) k₀
      = _ at he
    obtain ⟨⟨⟩, k₁, hdup, he⟩ := bind_eq_some.mp he
    rw [modify_bind] at he
    cases he
    exact .forked hparent halloc hdup

theorem allocPid_procs {r : ℤ × ℕ} (h : allocPid k = (some r, k₀)) : k₀.procs = k.procs := by
  unfold allocPid at h
  split at h <;> cases h
  rfl

theorem pickPid_pos {n : ℕ} {c d : ℤ} (h : pickPid k n c = some d) : 0 < d := by
  induction n generalizing c with
  | zero => cases h
  | succ n ih =>
    rw [pickPid] at h
    have hpos : 0 < (if c ≤ 0 then 1 else c) := by
      split <;> omega
    generalize (if c ≤ 0 then 1 else c) = c' at h hpos
    split at h
    · exact ih h
    · cases h
      exact hpos

theorem allocPid_run {generation : ℕ}
    (h : allocPid k = (some (pid, generation), k₀)) : 0 < pid ∧ generation = k.generationSeq + 1 ∧
      k₀.generationSeq = k.generationSeq + 1 ∧ k₀.initPid = k.initPid ∧ k₀.procs = k.procs := by
  unfold allocPid at h
  split at h
  · cases h
  next c hc =>
  cases h
  exact ⟨pickPid_pos hc, rfl, rfl, rfl, rfl⟩

end Sbunix.Proc
