import Sbunix.Proc.TableSpec

/-!
# What a step is made of

Every step of the process machine is a sequence of small stores to the process
table. `Atom W` lists them, with `W` for what the step has the power to do. An
invariant of the machine is then a property that each of these stores keeps.
-/

namespace Sbunix.Proc

open List Lib

/-- What a step may do. -/
structure Powers where
  -- the signals other than `SIGCHLD` it may send, by pid
  sends : ℤ → ℕ → Prop
  -- the process that acts on its own behalf
  actor : ℤ → Prop
  -- whether the actor may be stopped, may exit, and may start a `sigsuspend`
  stops : Prop
  exits : Prop
  suspends : Prop
  -- whether a child may be forked, or a process moved to another group
  regroups : Prop

/-- The stores that only the process itself makes. -/
structure Own (p q : Pcb) : Prop where
  frame : q = { p with
    exitStatus := q.exitStatus, didExec := q.didExec, alarmTick := q.alarmTick, ofile := q.ofile
    cloexecMask := q.cloexecMask, sigPending := q.sigPending, sigBlocked := q.sigBlocked
    sigSuspendSavedMask := q.sigSuspendSavedMask, sigSuspendActive := q.sigSuspendActive
    sigHandlers := q.sigHandlers, sigAltstack := q.sigAltstack, rlimNofile := q.rlimNofile
    rlimNproc := q.rlimNproc, tf := q.tf, resume := q.resume }
  pending : ∀ i, q.sigPending.getLsbD i = true → p.sigPending.getLsbD i = true
  suspend : q.sigSuspendActive = true → p.sigSuspendActive = true

def Family (p q : Pcb) : Prop :=
  q = { p with
    parentPid := q.parentPid, alarmTick := q.alarmTick, utimeTicks := q.utimeTicks
    stimeTicks := q.stimeTicks, cutimeTicks := q.cutimeTicks, cstimeTicks := q.cstimeTicks }

def Roused (p q : Pcb) : Prop :=
  q = p ∨ p.state = .sleeping ∧ q = { p with state := .ready, wakeTick := q.wakeTick }

/-- The stores that change neither who runs, who is in the table, nor job control. -/
inductive Atom (W : Powers) : Kernel → Kernel → Prop
  | globals {k k' : Kernel} : k'.procs = k.procs → k'.pipes = k.pipes → k'.current = k.current →
    k'.termSession = k.termSession ∨ k'.termSession = 0 → k.ticks ≤ k'.ticks → Atom W k k'
  | pipeClose (k : Kernel) (i : ℕ) (w : Bool) : Atom W k (pipeClose k i w)
  | pipeOpen (k : Kernel) (i : ℕ) : (k.pipes i).readopen = false → (k.pipes i).writeopen = false →
    Atom W k (k.setPipe i ⟨true, true⟩)
  | rouse (k : Kernel) (g : Pcb → Pcb) : (∀ p, Roused p (g p)) → Atom W k (k.modifyAll g)
  | family (k : Kernel) (g : Pcb → Pcb) : (∀ p, Family p (g p)) → Atom W k (k.modifyAll g)
  | own (k : Kernel) (pid : ℤ) (g : Pcb → Pcb) : W.actor pid → (∀ p, Own p (g p)) →
    Atom W k (k.modify pid g)
  | suspend (k : Kernel) (pid : ℤ) (mask : BitVec 64) : W.suspends → W.actor pid →
    Atom W k (k.modify pid (Pcb.suspended mask))
  | chld (k : Kernel) (pid : ℤ) : Atom W k (sendChld k pid)
  | send (k : Kernel) (pid : ℤ) (sig : ℕ) : W.sends pid sig → Atom W k (sendSignal k pid sig)
  | stop (k : Kernel) (pid : ℤ) (sig : ℕ) : W.stops → W.actor pid →
    Atom W k (k.modify pid (Pcb.stopFor sig))
  | sleep (k : Kernel) (pid : ℤ) (g : Pcb → Pcb) : W.actor pid → (∀ p, g p = { p with
      state := .sleeping, wakeTick := (g p).wakeTick, sleepChan := (g p).sleepChan }) →
    Atom W k (k.modify pid g)
  | yield (k : Kernel) (pid : ℤ) : W.actor pid →
    Atom W k (k.modify pid fun p => { p with state := .ready })
  | die (k : Kernel) (pid : ℤ) : W.actor pid → Atom W k (k.modify pid Pcb.dead)
  | stopSeen (k : Kernel) (pid : ℤ) : Atom W k (k.modify pid Pcb.stopSeen)
  | continueSeen (k : Kernel) (pid : ℤ) : Atom W k (k.modify pid Pcb.continueSeen)
  | destroy (k : Kernel) (pid : ℤ) : (∀ p ∈ k.procs, p.pid = pid → p.state = .zombie) →
    Atom W k { k with procs := k.procs.filter (·.pid ≠ pid) }

/-- Every store of a step. -/
inductive Move (W : Powers) : Kernel → Kernel → Prop
  | atom {k k' : Kernel} : Atom W k k' → Move W k k'
  | job (k : Kernel) (pid : ℤ) (g : Pcb → Pcb) : (∀ p, g p = { p with
      pgid := (g p).pgid, sid := (g p).sid }) → W.regroups → Move W k (k.modify pid g)
  | fork (k : Kernel) (parent : Pcb) (pid : ℤ) (generation : ℕ) : parent ∈ k.procs → 0 < pid →
    (∀ p ∈ k.procs, p.pid ≠ pid) → W.regroups →
    Move W k { k with procs := k.procs ++ [forkChild parent pid generation] }
  | dispatch (k : Kernel) (pid : ℤ) : W.actor pid → (∀ p ∈ k.procs, p.state ≠ .running) →
    (∃ p, k.find pid = some p ∧ p.state = .ready) → Move W k (runNext k pid)
  | release (k : Kernel) : Move W k { k with current := none }

def Does (W : Powers) : Kernel → Kernel → Prop :=
  Relation.ReflTransGen (Atom W)

def Moves (W : Powers) : Kernel → Kernel → Prop :=
  Relation.ReflTransGen (Move W)

namespace Does

variable {W : Powers} {k k' k'' : Kernel}

theorem refl (k : Kernel) : Does W k k := Relation.ReflTransGen.refl

theorem trans (h : Does W k k') (h' : Does W k' k'') : Does W k k'' :=
  Relation.ReflTransGen.trans h h'

instance : Std.Refl (Does W) := ⟨refl⟩

instance : IsTrans Kernel (Does W) := ⟨fun _ _ _ => trans⟩

theorem one (h : Atom W k k') : Does W k k' := Relation.ReflTransGen.single h

theorem moves (h : Does W k k') : Moves W k k' :=
  Relation.ReflTransGen.mono (fun _ _ => Move.atom) _ _ h

end Does

namespace Moves

variable {W : Powers} {k k' k'' : Kernel}

theorem trans (h : Moves W k k') (h' : Moves W k' k'') : Moves W k k'' :=
  Relation.ReflTransGen.trans h h'

theorem one (h : Move W k k') : Moves W k k' := Relation.ReflTransGen.single h

theorem invariant {I : Kernel → Prop} (h : Moves W k k') (hk : I k)
    (hmove : ∀ k k', I k → Move W k k' → I k') : I k' := by
  induction h with
  | refl => exact hk
  | tail _ ha ih => exact hmove _ _ ih ha

end Moves

theorem Family.refl (p : Pcb) : Family p p := rfl

theorem Roused.refl (p : Pcb) : Roused p p := .inl rfl

variable {k : Kernel} {pid : ℤ} {sigs : List ℕ} {g : Pcb → Pcb} {W : Powers}

/-! ### Wakeups and signals -/

variable {p q : Pcb} {k' : Kernel} {α : Type}

theorem rouse_does (hg : ∀ p, Roused p (g p)) : Does W k (k.modify pid g) := by
  rw [modify_eq_modifyAll]
  refine .one (.rouse k _ fun p => ?_)
  split
  · exact hg p
  · exact Roused.refl p

theorem family_does (hg : ∀ p, Family p (g p)) : Does W k (k.modify pid g) := by
  rw [modify_eq_modifyAll]
  refine .one (.family k _ fun p => ?_)
  split
  · exact hg p
  · exact Family.refl p

theorem procWakeup_does (k : Kernel) (pid : ℤ) : Does W k (procWakeup k pid) := by
  refine rouse_does fun p => ?_
  split
  · next h => exact .inr ⟨h, rfl⟩
  · exact Roused.refl p

theorem procWakeupChan_does (k : Kernel) (chan : ℕ) : Does W k (procWakeupChan k chan) := by
  refine .one (.rouse k _ fun p => ?_)
  split
  · next h => exact .inr ⟨h.1, rfl⟩
  · exact Roused.refl p

theorem notifyParent_does (k : Kernel) (pid : ℤ) : Does W k (notifyParent k pid) :=
  (Does.one (.chld k pid)).trans (procWakeup_does _ pid)

theorem sendSignals_does (k : Kernel) (pid : ℤ) (hA : ∀ s ∈ sigs, W.sends pid s) :
    Does W k (sigs.foldl (sendSignal · pid ·) k) := by
  induction sigs generalizing k with
  | nil => exact .refl k
  | cons sig sigs ih =>
    refine (Does.one (.send k pid sig (hA sig mem_cons_self))).trans (ih _ ?_)
    exact fun s hs => hA s (mem_cons_of_mem _ hs)

theorem sendEach_does (k : Kernel) {want : Pcb → Bool}
    (hA : ∀ t ∈ k.procs, want t = true → ∀ s ∈ sigs, W.sends t.pid s)
    (hwant : ∀ p q, Sent (fun _ => True) p q → want q = true → want p = true) :
    Does W k (sendEach want sigs k) := by
  unfold sendEach
  have hloop : ∀ (pids : List ℤ) (k₁ : Kernel), Sends (fun _ => True) k k₁ →
      Does W k₁ (pids.foldl (fun k pid =>
        if (k.find pid).any want then sigs.foldl (sendSignal · pid ·) k else k) k₁) := by
    intro pids
    induction pids with
    | nil => exact fun k₁ _ => .refl k₁
    | cons pid pids ih =>
      intro k₁ hs
      rw [foldl_cons]
      split
      · next hany =>
        obtain ⟨q, hq, hw⟩ := (Option.any_eq_true _ _).mp hany
        obtain ⟨hmem, rfl⟩ := Kernel.find_mem hq
        obtain ⟨p, hp, hpq⟩ := hs.mem hmem
        have hsend : ∀ s ∈ sigs, W.sends q.pid s := by
          rw [hpq.pid]
          exact hA p hp (hwant p q hpq hw)
        refine (sendSignals_does k₁ q.pid hsend).trans (ih _ (hs.trans ?_))
        exact sendSignals_sends k₁ trivial q.pid fun _ _ => trivial
      · exact ih k₁ hs
  exact hloop _ k (Sends.refl k)

/-! ### Descriptors -/

theorem setFile_does (k : Kernel) (f : ℕ) (x : File) : Does W k (k.setFile f x) :=
  .one (.globals rfl rfl rfl (.inl rfl) le_rfl)

theorem Own.of_frame (h : q = { p with
    exitStatus := q.exitStatus, didExec := q.didExec, alarmTick := q.alarmTick, ofile := q.ofile
    cloexecMask := q.cloexecMask, sigBlocked := q.sigBlocked
    sigSuspendSavedMask := q.sigSuspendSavedMask
    sigHandlers := q.sigHandlers, sigAltstack := q.sigAltstack, rlimNofile := q.rlimNofile
    rlimNproc := q.rlimNproc, tf := q.tf, resume := q.resume }) : Own p q := by
  have hp : q.sigPending = p.sigPending := by
    rw [h]
  have ha : q.sigSuspendActive = p.sigSuspendActive := by
    rw [h]
  refine ⟨?_, fun i hi => hp ▸ hi, fun hq => ha ▸ hq⟩
  rw [hp, ha]
  exact h

theorem Own.refl (p : Pcb) : Own p p := .of_frame rfl

section

variable (hme : W.actor pid)

include hme

theorem own_does (hg : ∀ p, Own p (g p)) : Does W k (k.modify pid g) :=
  .one (.own k pid g hme hg)

theorem own_rel (hg : ∀ p, Own p (g p)) :
    Kern.Rel (Does W) (Kern.modify fun k : Kernel => k.modify pid g) :=
  Kern.Rel.modify fun _ => own_does hme hg

end

theorem does_fds : FdEffects (Does W) W.actor where
  setFile := setFile_does
  pipeClose k i w := .one (.pipeClose k i w)
  pipeOpen hr hw := .one (.pipeOpen _ _ hr hw)
  slots hpid hg := own_does hpid fun p => .of_frame (by rw [hg p])
  execed hpid := own_does hpid fun _ => .of_frame rfl

/-! ### What atoms keep -/

structure SameIds (p q : Pcb) : Prop where
  pid : p.pid = q.pid
  sid : p.sid = q.sid
  pgid : p.pgid = q.pgid

theorem SameIds.refl (p : Pcb) : SameIds p p := ⟨rfl, rfl, rfl⟩

/-- Who is in the table, and in which session and group, is as before; the terminal
may have lost its session. -/
structure Steady (k k' : Kernel) : Prop where
  current : k'.current = k.current
  term : k'.termSession = k.termSession ∨ k'.termSession = 0
  mem : ∀ q ∈ k'.procs, ∃ p ∈ k.procs, SameIds p q

theorem Steady.refl (k : Kernel) : Steady k k := ⟨rfl, .inl rfl, fun q hq => ⟨q, hq, .refl q⟩⟩

theorem Steady.trans {k'' : Kernel} (h : Steady k k') (h' : Steady k' k'') : Steady k k'' where
  current := h'.current.trans h.current
  term := by
    rcases h'.term with e | e
    · rw [e]
      exact h.term
    · exact .inr e
  mem q hq := by
    obtain ⟨p, hp, e⟩ := h'.mem q hq
    obtain ⟨o, ho, f⟩ := h.mem p hp
    exact ⟨o, ho, f.pid.trans e.pid, f.sid.trans e.sid, f.pgid.trans e.pgid⟩

theorem Steady.modifyAll (hg : ∀ p, SameIds p (g p)) : Steady k (k.modifyAll g) where
  current := rfl
  term := .inl rfl
  mem q hq := by
    obtain ⟨p, hp, rfl⟩ := Kernel.mem_modifyAll.mp hq
    exact ⟨p, hp, hg p⟩

theorem Steady.modify (hg : ∀ p, SameIds p (g p)) : Steady k (k.modify pid g) := by
  rw [modify_eq_modifyAll]
  refine Steady.modifyAll fun p => ?_
  split
  · exact hg p
  · exact .refl p

theorem Steady.of_sends {S : ℕ → Prop} (h : Sends S k k') : Steady k k' where
  current := by
    rw [h.frame]
  term := by
    left
    rw [h.frame]
  mem q hq := by
    obtain ⟨p, hp, hpq⟩ := h.mem hq
    refine ⟨p, hp, ?_⟩
    rw [hpq.frame]
    exact ⟨rfl, rfl, rfl⟩

theorem Steady.of_procs (hprocs : k'.procs = k.procs) (hcur : k'.current = k.current)
    (hterm : k'.termSession = k.termSession ∨ k'.termSession = 0) : Steady k k' :=
  ⟨hcur, hterm, fun q hq => ⟨q, hprocs ▸ hq, .refl q⟩⟩

theorem Own.sameIds (h : Own p q) : SameIds p q := by
  rw [h.frame]
  exact ⟨rfl, rfl, rfl⟩

theorem Atom.steady (h : Atom W k k') : Steady k k' := by
  cases h with
  | globals hprocs _ hcur hterm _ => exact .of_procs hprocs hcur hterm
  | pipeClose i w =>
    refine Steady.trans (Steady.of_procs ?_ ?_ ?_)
      (.of_sends (S := NotKill) (procWakeupChan_sends _ i))
    · rfl
    · rfl
    · exact .inl rfl
  | pipeOpen i _ _ => exact .of_procs rfl rfl (.inl rfl)
  | rouse g hg =>
    refine .modifyAll fun p => ?_
    rcases hg p with e | ⟨_, e⟩ <;> rw [e] <;> exact ⟨rfl, rfl, rfl⟩
  | family g hg =>
    refine .modifyAll fun p => ?_
    rw [hg p]
    exact ⟨rfl, rfl, rfl⟩
  | own pid g _ hg => exact .modify fun p => (hg p).sameIds
  | suspend pid mask _ _
  | stop pid sig _ _
  | yield pid _ | die pid _ | stopSeen pid | continueSeen pid =>
    exact .modify fun p => ⟨rfl, rfl, rfl⟩
  | chld pid => exact .of_sends (S := NotKill) (sendChld_sends k (by decide) pid)
  | send pid sig _ => exact .of_sends (S := fun _ => True) (sendSignal_sends k trivial pid trivial)
  | sleep pid g _ hg =>
    refine .modify fun p => ?_
    rw [hg p]
    exact ⟨rfl, rfl, rfl⟩
  | destroy pid _ => exact ⟨rfl, .inl rfl, fun q hq => ⟨q, mem_of_mem_filter hq, .refl q⟩⟩

theorem Does.steady (h : Does W k k') : Steady k k' := by
  induction h with
  | refl => exact .refl k
  | tail _ ha ih => exact ih.trans ha.steady

/-- What the running process may do: act on its own behalf, and, if it may exit
and leads the session of the terminal, hang it up. -/
structure Ctx (W : Powers) (k : Kernel) : Prop where
  actor : ∀ pid, k.current = some pid → W.actor pid
  leader : W.exits → ∀ p ∈ k.procs, k.current = some p.pid → 0 < p.pid ∧
    (p.pid = p.sid → k.termSession = p.sid → ∀ t ∈ k.procs, t.pid ≠ p.pid → t.sid = p.sid →
      W.sends t.pid SIGHUP ∧ W.sends t.pid SIGCONT)

theorem Ctx.steady (hc : Ctx W k) (h : Steady k k') : Ctx W k' where
  actor pid hpid := hc.actor pid (h.current ▸ hpid)
  leader hx q hq hcur := by
    obtain ⟨p, hp, hpid, hsid⟩ := h.mem q hq
    rw [h.current, ← hpid] at hcur
    obtain ⟨hpos, hlead⟩ := hc.leader hx p hp hcur
    refine ⟨hpid ▸ hpos, fun hl ht t htm hne hts => ?_⟩
    -- the leader's pid is positive, so its session is not the one the terminal lost to
    have hterm : k.termSession = p.sid := by
      rcases h.term with e | e
      · rw [← e, ht, hsid]
      · rw [e] at ht
        omega
    obtain ⟨t₀, ht₀, e1, e2⟩ := h.mem t htm
    rw [← e1]
    refine hlead (by omega) hterm t₀ ht₀ (by omega) (by omega)

/-! ### Calls on descriptors -/

/-- `x` is made of atoms. -/
def Acts (W : Powers) {α : Type} (x : Kern Kernel α) : Prop :=
  ∀ k a k', Ctx W k → x k = (some a, k') → Does W k k'

variable {x : Kern Kernel α}

theorem Acts.of_rel (h : Kern.Rel (Does W) x) : Acts W x :=
  fun k a k' _ he => h k a k' he

theorem Acts.pure (a : α) : Acts W (Pure.pure a : Kern Kernel α) :=
  .of_rel (Kern.Rel.pure a)

theorem Acts.bind {β : Type} {f : α → Kern Kernel β} (hx : Acts W x)
    (hf : ∀ a, Acts W (f a)) : Acts W (x >>= f) := by
  intro k b k' hc he
  obtain ⟨a, k₁, h1, h2⟩ := Kern.bind_eq_some.mp he
  have hd := hx k a k₁ hc h1
  exact hd.trans (hf a k₁ b k' (hc.steady hd.steady) h2)

theorem Acts.ite {c : Prop} [Decidable c] {y : Kern Kernel α} (hx : Acts W x)
    (hy : Acts W y) : Acts W (if c then x else y) := by
  split
  · exact hx
  · exact hy

theorem Acts.current {f : Pcb → Kern Kernel α} (hx : Acts W x)
    (hf : ∀ p, W.actor p.pid → Acts W (f p)) :
    Acts W (Kern.get >>= fun k => match k.currentProc with
      | none => x
      | some p => f p) := by
  intro k a k' hc he
  rw [Kern.get_bind] at he
  rcases hp : k.currentProc with _ | p <;> simp only [hp] at he
  · exact hx k a k' hc he
  · exact hf p (hc.actor _ (currentProc_mem hp).2) k a k' hc he

theorem Acts.within (h : Within (Does W) W.actor x) : Acts W x :=
  fun k a k' hc he => h k a k' hc.actor he

/-! ### Signal calls -/

theorem modifyCurrent_acts (hg : ∀ p, Own p (g p)) : Acts W (modifyCurrent g) := by
  intro k a k' hc he
  rcases modifyCurrent_run he with rfl | ⟨pid, hpid, rfl⟩
  · exact .refl _
  · exact own_does (hc.actor pid hpid) hg

theorem Acts.sets (h : Kern.Rel (Sets True) x) : Acts W x := by
  intro k a k' hc he
  rcases h k a k' he with rfl | ⟨p, g, hp, rfl, -, hg⟩
  · exact .refl _
  · exact own_does (hc.actor _ (currentProc_mem hp).2) fun q => .of_frame (by rw [hg q])

theorem sysSigsuspend_acts (hs : W.suspends) (mask : Option (Option (BitVec 64))) :
    Acts W (sysSigsuspend mask) := by
  intro k a k' hc he
  unfold sysSigsuspend at he
  rcases hp : k.currentProc with _ | p
  · simp only [hp] at he
    cases he
    exact .refl k
  simp only [hp] at he
  have hpid : W.actor p.pid := hc.actor _ (currentProc_mem hp).2
  rcases mask with _ | _ | s <;> cases he
  · exact .refl k
  · exact .refl k
  · exact .one (.suspend k p.pid s hs hpid)

/-! ### Exits -/

theorem hangup_does
    (hA : p.pid = p.sid → k.termSession = p.sid → ∀ t ∈ k.procs, t.pid ≠ p.pid → t.sid = p.sid →
      W.sends t.pid SIGHUP ∧ W.sends t.pid SIGCONT) : Does W k (hangup k p) := by
  unfold hangup
  split
  · next h =>
    refine Does.trans (sendEach_does k (fun t ht hw s hs => ?_) fun q r hs hw => ?_)
      (.one (.globals rfl rfl rfl (.inr rfl) le_rfl))
    · simp only [decide_eq_true_eq] at hw
      obtain ⟨h1, h2⟩ := hA h.1 h.2 t ht hw.1 hw.2.2
      rcases mem_cons.mp hs with rfl | hs
      · exact h1
      · exact mem_singleton.mp hs ▸ h2
    · simp only [decide_eq_true_eq] at hw ⊢
      have hsid : r.sid = q.sid := by
        rw [hs.frame]
      have hwoken : Woken q.state r.state := hs.state
      exact ⟨hs.pid ▸ hw.1, fun he => hw.2.1 (hwoken.unused.mpr he), hsid ▸ hw.2.2⟩
  · exact .refl k

theorem reparent_does (k : Kernel) (pid : ℤ) : Does W k (reparent k pid) := by
  have hall : Does W k (k.modifyAll (Pcb.reparented pid (reparentTo k))) := by
    refine .one (.family k _ fun p => ?_)
    unfold Pcb.reparented
    split <;> rfl
  unfold reparent
  dsimp only
  split
  · exact hall.trans (procWakeup_does _ _)
  · exact hall

theorem procExitCurrent_acts (hx : W.exits) (status : ℤ) : Acts W (procExitCurrent status) := by
  intro k a k' hc he
  cases procExitCurrent_run he with
  | idle _ => exact .refl k
  | @gone p k₁ hp _ hclose =>
    obtain ⟨hmem, hcur⟩ := currentProc_mem hp
    have hpid : W.actor p.pid := hc.actor _ hcur
    have h1 : Does W k (k.modify p.pid (Pcb.exiting status)) :=
      own_does hpid fun p => .of_frame rfl
    have h3 := (h1.trans (reparent_does _ p.pid)).trans (closeFds_rel does_fds hpid _ _ _ _ hclose)
    have hc₁ : Steady k k₁ := h3.steady
    have hhang : Does W k₁ (hangup k₁ p) := by
      refine hangup_does fun hl ht t htm hne hts => ?_
      obtain ⟨hpos, hlead⟩ := hc.leader hx p hmem hcur
      have hterm : k.termSession = p.sid := by
        rcases hc₁.term with e | e
        · rw [← e, ht]
        · omega
      obtain ⟨t₀, ht₀, e1, e2⟩ := hc₁.mem t htm
      rw [← e1]
      exact hlead hl hterm t₀ ht₀ (by omega) (by omega)
    exact ((h3.trans hhang).trans (notifyParent_does _ _)).trans (.one (.die _ _ hpid))

theorem exitIf_acts (hx : W.exits) (c : Bool) (status : ℤ) : Acts W (exitIf c status) :=
  Acts.ite (procExitCurrent_acts hx status) (Acts.pure _)

theorem sysSigreturn_acts (hx : W.exits) (frame : Option Sigframe) :
    Acts W (sysSigreturn frame) := by
  unfold sysSigreturn
  refine Acts.current (Acts.pure _) fun p hpid => ?_
  split
  · exact Acts.bind (procExitCurrent_acts hx _) fun _ => Acts.pure _
  refine Acts.ite (Acts.bind (procExitCurrent_acts hx _) fun _ => Acts.pure _) ?_
  exact Acts.bind (.of_rel (own_rel hpid fun p => .of_frame rfl)) fun _ => Acts.pure _

/-! ### The return path -/

theorem Own.of_pending {m : BitVec 64}
    (hm : ∀ i, m.getLsbD i = true → p.sigPending.getLsbD i = true) :
    Own p { p with sigPending := m } :=
  ⟨rfl, hm, id⟩

theorem Own.clearSuspend (p : Pcb) : Own p { p with sigSuspendActive := false } :=
  ⟨rfl, fun _ => id, nofun⟩

theorem Own.trans {r : Pcb} (h : Own p q) (h' : Own q r) : Own p r where
  frame := by
    rw [h'.frame, h.frame]
  pending i hi := h.pending i (h'.pending i hi)
  suspend ha := h.suspend (h'.suspend ha)

theorem Own.picked (p : Pcb) : Own p p.picked := .of_pending fun _ => pickLoop_pending p

theorem Own.drop (sig : ℕ) (p : Pcb) : Own p (p.drop sig) := by
  refine .of_pending fun i h => ?_
  simp only [BitVec.getLsbD_and, Bool.and_eq_true] at h
  exact h.1

theorem Own.restoreMask (p : Pcb) : Own p p.restoreMask := by
  unfold Pcb.restoreMask
  split
  · exact ⟨rfl, fun _ => id, nofun⟩
  · exact .refl p

theorem Own.restarted (origA0 : BitVec 64) (p : Pcb) : Own p (p.restarted origA0) := by
  unfold Pcb.restarted
  dsimp only
  split <;> exact .of_frame rfl

theorem buildSigframeAndRedirect_acts (hx : W.exits) (hpid : W.actor p.pid) (sig : ℕ)
    (h : BitVec 64) (copied : Bool) : Acts W (buildSigframeAndRedirect p sig h copied) := by
  unfold buildSigframeAndRedirect
  refine Acts.bind (exitIf_acts hx _ _) fun gone => Acts.ite (Acts.pure _) ?_
  refine Acts.bind (.of_rel (own_rel hpid Own.clearSuspend)) fun _ => ?_
  refine Acts.bind (exitIf_acts hx _ _) fun gone => Acts.ite (Acts.pure _) ?_
  exact Acts.bind (.of_rel (own_rel hpid fun p => .of_frame rfl)) fun _ => Acts.pure _

theorem stopCurrent_acts (hs : W.stops) (hpid : W.actor p.pid) (sig : ℕ) :
    Acts W (stopCurrent p sig) := by
  refine Acts.bind (.of_rel (Kern.Rel.modify fun k => ?_)) fun _ => Acts.pure _
  exact (Does.one (.stop k p.pid sig hs hpid)).trans (notifyParent_does _ _)

section

variable (hx : W.exits)
include hx

theorem deliver_acts (hs : W.stops) (hpid : W.actor p.pid) (sig : ℕ)
    (copied : Bool) : Acts W (deliver p sig copied) := by
  unfold deliver
  refine Acts.ite (stopCurrent_acts hs hpid sig) (Acts.ite ?_
    (buildSigframeAndRedirect_acts hx hpid _ _ _))
  refine Acts.ite (stopCurrent_acts hs hpid sig) ?_
  refine Acts.bind (procExitCurrent_acts hx _) fun gone => Acts.ite (Acts.pure _) ?_
  exact buildSigframeAndRedirect_acts hx hpid _ _ _

theorem checkSignals_acts (hs : W.stops) (copied : Bool) :
    Acts W (checkSignals copied) := by
  unfold checkSignals
  refine Acts.current (Acts.pure _) fun p hpid => ?_
  refine Acts.ite (Acts.pure _) (Acts.bind (.of_rel (own_rel hpid Own.picked)) fun _ => ?_)
  refine Acts.ite ?_ ?_
  · exact Acts.bind (.of_rel (own_rel hpid Own.restoreMask)) fun _ => Acts.pure _
  have hend : Acts W (deliver p (pickActionable p) copied) := deliver_acts hx hs hpid _ _
  refine Acts.bind (.of_rel (own_rel hpid (Own.drop _))) fun _ => Acts.ite ?_ hend
  exact Acts.bind (procExitCurrent_acts hx _) fun gone => Acts.ite (Acts.pure _) hend

theorem checkSignalsAfterSyscall_acts (hs : W.stops) (ret : ℤ) (origA0 : BitVec 64)
    (copied : Bool) : Acts W (checkSignalsAfterSyscall ret origA0 copied) := by
  unfold checkSignalsAfterSyscall
  have hend : Acts W (checkSignals copied) := checkSignals_acts hx hs copied
  refine Acts.current hend fun p hpid => ?_
  refine Acts.ite (Acts.bind (.of_rel (own_rel hpid fun p => ?_)) fun _ => hend) hend
  exact (Own.restarted origA0 p).trans (Own.picked _)

theorem checkUserReturn_acts : Acts W checkUserReturn := by
  unfold checkUserReturn
  refine Acts.current (Acts.pure _) fun p hpid => ?_
  exact Acts.bind (exitIf_acts hx _ _) fun gone => Acts.ite (Acts.pure _) (Acts.pure _)

theorem leaveTrap_acts (check : Bool) (f : Flow) : Acts W (leaveTrap check f) := by
  refine Acts.bind (Acts.ite (checkUserReturn_acts hx) (Acts.pure _)) fun f' => ?_
  cases f' with
  | back | stopped => exact modifyCurrent_acts fun p => .of_frame rfl
  | gone => exact Acts.pure _

theorem trapReturn_acts (hs : W.stops) (path : RetPath) (copied : Bool)
    (hseg : ∀ pid, path = .fault → W.actor pid → W.sends pid SIGSEGV) :
    Acts W (trapReturn path copied) := by
  refine Acts.bind ?_ fun f => leaveTrap_acts hx _ _
  cases path with
  | checked => exact checkSignals_acts hx hs copied
  | ecall ret origA0 =>
    exact Acts.bind (modifyCurrent_acts fun p => .of_frame rfl) fun _ =>
      checkSignalsAfterSyscall_acts hx hs _ _ _
  | fault =>
    refine Acts.bind ?_ fun _ => checkSignals_acts hx hs copied
    intro k a k' hc he
    unfold sendCurrent at he
    split at he <;> cases he
    · exact .refl k
    · next pid hpid => exact .one (.send k pid SIGSEGV (hseg pid rfl (hc.actor pid hpid)))

theorem resumeRun_acts (r : Resume) : Acts W (resumeRun r) := by
  cases r with
  | forkret | forkChildReturn => exact modifyCurrent_acts fun p => .of_frame rfl
  | trap => exact Acts.pure _
  | stop check => exact leaveTrap_acts hx check .back
  | user => exact Acts.pure _

end

end Sbunix.Proc
