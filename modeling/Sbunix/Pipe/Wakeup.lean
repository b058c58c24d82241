import Sbunix.Pipe.Calls

/-!
# Nobody sleeps on a pipe that is ready

A process sleeps in `pipe_read` only while the pipe is empty and has a writer,
and in `pipe_write` only while it is full and has a reader. Every change of a
ring or of the open ends wakes all who sleep on the pipe.
-/

namespace Sbunix.Pipe

open List Option Lib Proc

/-! ### What the process machine does to a process that does not act -/

/-- A process other than the acting one goes on where it was, and is at most woken. -/
structure IoMove (W : Powers) (p q : Pcb) : Prop where
  ident : q.pid = p.pid
  resume : ¬ W.actor p.pid → q.resume = p.resume
  state : ¬ W.actor p.pid → Woken p.state q.state
  chan : ¬ W.actor p.pid → q.sleepChan = p.sleepChan

variable {S : ℕ → Prop} {g : Pcb → Pcb} {pid : ℤ} {k k' : Kernel} {i : ℕ} {W : Powers} {x : Io}
  {l : Proc.Label} {w : World}

namespace IoMove

variable {p q : Pcb}

theorem of_same (hpid : q.pid = p.pid) (hresume : q.resume = p.resume)
    (hstate : Woken p.state q.state)
    (hchan : q.sleepChan = p.sleepChan) : IoMove W p q :=
  ⟨hpid, fun _ => hresume, fun _ => hstate, fun _ => hchan⟩

theorem refl (p : Pcb) : IoMove W p p := of_same rfl rfl (.inl rfl) rfl

theorem of_actor (h : W.actor p.pid) (hpid : q.pid = p.pid) : IoMove W p q :=
  ⟨hpid, fun h' => absurd h h', fun h' => absurd h h', fun h' => absurd h h'⟩

theorem of_sent (h : Sent S p q) : IoMove W p q := by
  refine of_same h.pid ?_ h.state ?_
  all_goals rw [h.frame]

theorem of_roused (h : Roused p q) : IoMove W p q := by
  rcases h with rfl | ⟨hs, e⟩
  · exact refl q
  · rw [e]
    exact of_same rfl rfl (.inr ⟨rfl, .inl hs⟩) rfl

end IoMove

/-- What a move does to the table and to the ends of the pipes. -/
structure IoMoves (W : Powers) (k k' : Kernel) : Prop where
  mem : ∀ q ∈ k'.procs, (∃ p ∈ k.procs, IoMove W p q) ∨ ∀ p ∈ k.procs, p.pid ≠ q.pid
  stays : ∀ p ∈ k.procs, p.state ≠ .zombie → ∃ q ∈ k'.procs, IoMove W p q
  pipes : ∀ i, k'.pipes i = k.pipes i ∨
    (k.pipes i).readopen = false ∧ (k.pipes i).writeopen = false ∨
    ∀ q ∈ k'.procs, q.state = .sleeping → q.sleepChan ≠ some i

namespace IoMoves

theorem of_forall₂ (h : List.Forall₂ (IoMove W) k.procs k'.procs) (hpipes : k'.pipes = k.pipes) :
    IoMoves W k k' :=
  ⟨fun _ hq => .inl (forall₂_mem h hq), fun _ hp _ => forall₂_mem_left h hp,
    fun i => .inl (congrFun hpipes i)⟩

theorem of_procs (h : k'.procs = k.procs) (hpipes : k'.pipes = k.pipes) : IoMoves W k k' :=
  of_forall₂ (h ▸ forall₂_same.mpr fun p _ => IoMove.refl p) hpipes

theorem modifyAll (hg : ∀ p, IoMove W p (g p)) : IoMoves W k (k.modifyAll g) :=
  of_forall₂ (forall₂_map_right_iff.mpr (forall₂_same.mpr fun p _ => hg p)) rfl

theorem modify (hg : ∀ p : Pcb, p.pid = pid → IoMove W p (g p)) : IoMoves W k (k.modify pid g) := by
  rw [modify_eq_modifyAll]
  refine modifyAll fun p => ?_
  split
  · next h => exact hg p h
  · exact IoMove.refl p

theorem of_sends (h : Sends S k k') : IoMoves W k k' := by
  refine of_forall₂ (h.procs.imp fun _ _ => IoMove.of_sent) ?_
  rw [h.frame]

end IoMoves

theorem procWakeupChan_awake {q : Pcb} (hq : q ∈ (procWakeupChan k i).procs)
    (hs : q.state = .sleeping) : q.sleepChan ≠ some i := by
  obtain ⟨p, -, rfl⟩ := Kernel.mem_modifyAll.mp hq
  split_ifs at hs ⊢ with h
  intro hc
  exact h ⟨hs, hc⟩

theorem ioMoves_pipeClose (W : Powers) (k : Kernel) (i : ℕ) (b : Bool) :
    IoMoves W k (pipeClose k i b) := by
  have hprocs : List.Forall₂ (IoMove W) k.procs (pipeClose k i b).procs := by
    refine forall₂_map_right_iff.mpr (forall₂_same.mpr fun p _ => .of_roused ?_)
    split
    · next h => exact .inr ⟨h.1, rfl⟩
    · exact .refl p
  refine ⟨fun _ hq => .inl (forall₂_mem hprocs hq), fun _ hp _ => forall₂_mem_left hprocs hp,
    fun j => ?_⟩
  by_cases hj : j = i
  · exact .inr (.inr fun q hq hs => hj ▸ procWakeupChan_awake hq hs)
  · exact .inl (setAt_ne _ _ hj)

theorem Atom.ioMoves (h : Atom W k k') : IoMoves W k k' := by
  cases h with
  | globals hprocs hpipes _ _ _ => exact .of_procs hprocs hpipes
  | pipeClose i b => exact ioMoves_pipeClose W k i b
  | pipeOpen i hr hw =>
    refine ⟨fun q hq => .inl ⟨q, hq, .refl q⟩, fun p hp _ => ⟨p, hp, .refl p⟩, fun j => ?_⟩
    by_cases hj : j = i
    · exact .inr (.inl (hj ▸ ⟨hr, hw⟩))
    · exact .inl (setAt_ne _ _ hj)
  | rouse g hg => exact .modifyAll fun p => .of_roused (hg p)
  | family g hg =>
    refine .modifyAll fun p => ?_
    rw [hg p]
    exact .of_same rfl rfl (.inl rfl) rfl
  | own pid g hactor hg => exact .modify fun p hp => .of_actor (hp ▸ hactor) (hg p).sameIds.pid.symm
  | suspend pid mask _ hactor
  | stop pid sig _ hactor
  | yield pid hactor | die pid hactor => exact .modify fun p hp => .of_actor (hp ▸ hactor) rfl
  | chld pid => exact .of_sends (S := NotKill) (sendChld_sends k (by decide) pid)
  | send pid sig _ => exact .of_sends (S := fun _ => True) (sendSignal_sends k trivial pid trivial)
  | sleep pid g hactor hg =>
    refine .modify fun p hp => .of_actor (hp ▸ hactor) ?_
    rw [hg p]
  | stopSeen pid | continueSeen pid => exact .modify fun p _ => .of_same rfl rfl (.inl rfl) rfl
  | destroy pid hz =>
    refine ⟨fun q hq => .inl ⟨q, mem_of_mem_filter hq, .refl q⟩,
      fun p hp hs => ⟨p, ?_, .refl p⟩, fun _ => .inl rfl⟩
    exact mem_filter.mpr ⟨hp, by simpa using fun he => hs (hz p hp he)⟩

theorem Move.ioMoves (h : Move W k k') : IoMoves W k k' := by
  cases h with
  | atom h => exact Atom.ioMoves h
  | job pid g hg =>
    refine .modify fun p _ => ?_
    rw [hg p]
    exact .of_same rfl rfl (.inl rfl) rfl
  | fork parent pid generation _ _ hfresh =>
    refine ⟨fun q hq => ?_, fun p hp _ => ⟨p, mem_append_left _ hp, .refl p⟩, fun _ => .inl rfl⟩
    rcases mem_append.mp hq with hq | hq
    · exact .inl ⟨q, hq, .refl q⟩
    · rw [mem_singleton.mp hq]
      exact .inr hfresh
  | dispatch pid hactor _ _ =>
    have h : IoMoves W k (k.modify pid fun q => { q with state := .running }) :=
      .modify fun p hp => .of_actor (hp ▸ hactor) rfl
    exact ⟨h.mem, h.stays, h.pipes⟩
  | release => exact .of_procs rfl rfl

/-! ### The invariant -/

/-- What a process that sleeps in a call on a pipe waits for has not happened. -/
def Io.waits (r : Ring UInt8 32) (ends : Proc.Pipe) : Io → Prop
  | .read _ _ _ => r.nread = r.nwrite ∧ ends.writeopen = true
  | .write _ _ _ _ => r.nwrite = r.nread + BitVec.ofNat 32 PIPESIZE ∧ ends.readopen = true

def closed (ends : Proc.Pipe) : Prop := ends.readopen = false ∧ ends.writeopen = false

theorem Io.waits_open {r : Ring UInt8 32} {ends : Proc.Pipe} (h : Io.waits r ends x) :
    ¬ closed ends := by
  rintro ⟨hr, hw⟩
  cases x with
  | read c i n => exact absurd (h.2.symm.trans hw) nofun
  | write c j n i => exact absurd (h.2.symm.trans hr) nofun

/-- What holds of the suspended calls `io`, in the kernel `k` with the rings `ring`. -/
structure Waiting (io : ℤ → Option Io) (ring : ℕ → Ring UInt8 32) (k : Kernel) : Prop where
  live : ∀ pid x, io pid = some x → ∃ p ∈ k.procs, p.pid = pid ∧ p.resume = .trap ∧
    (p.state = .sleeping ∨ p.state = .ready ∨ p.state = .running)
  waits : ∀ p ∈ k.procs, p.state = .sleeping → ∀ x, io p.pid = some x →
    p.sleepChan = some x.pipe ∧ x.waits (ring x.pipe) (k.pipes x.pipe)

variable {io : ℤ → Option Io} {ring : ℕ → Ring UInt8 32}

section

variable (h : Waiting io ring k) (hactor : ∀ pid, io pid ≠ none → ¬ W.actor pid)

include h hactor

theorem Waiting.slept (hmove : Move W k k') {q : Pcb} (hq : q ∈ k'.procs)
    (hs : q.state = .sleeping) {x : Io}
    (hx : io q.pid = some x) :
    ∃ p ∈ k.procs, p.pid = q.pid ∧ p.state = .sleeping ∧ q.sleepChan = p.sleepChan := by
  rcases (Move.ioMoves hmove).mem q hq with ⟨p, hp, hpq⟩ | hfresh
  · have hna : ¬ W.actor p.pid := by
      refine hactor p.pid ?_
      rw [← hpq.ident, hx]
      exact nofun
    refine ⟨p, hp, hpq.ident.symm, ?_, hpq.chan hna⟩
    rcases hpq.state hna with e | ⟨e, -⟩
    · exact e.symm.trans hs
    · exact absurd (hs.symm.trans e) nofun
  · obtain ⟨p, hp, hpid, -⟩ := h.live q.pid x hx
    exact absurd hpid (hfresh p hp)

theorem Waiting.move (hmove : Move W k k') : Waiting io ring k' := by
  have hm := Move.ioMoves hmove
  refine ⟨fun pid x hx => ?_, fun q hq hs x hx => ?_⟩
  · obtain ⟨p, hp, rfl, hres, hst⟩ := h.live pid x hx
    have hna := hactor p.pid (by rw [hx]; exact nofun)
    obtain ⟨q, hq, hpq⟩ := hm.stays p hp (by rcases hst with e | e | e <;> rw [e] <;> exact nofun)
    refine ⟨q, hq, hpq.ident, (hpq.resume hna).trans hres, ?_⟩
    rcases hpq.state hna with e | ⟨e, -⟩
    · rwa [e]
    · exact .inr (.inl e)
  · obtain ⟨p, hp, hpid, hps, hchan⟩ := h.slept hactor hmove hq hs hx
    obtain ⟨hpchan, hwaits⟩ := h.waits p hp hps x (hpid ▸ hx)
    have hqchan : q.sleepChan = some x.pipe := hchan.trans hpchan
    refine ⟨hqchan, ?_⟩
    -- the ends of its pipe are as they were: otherwise it would be awake
    rcases hm.pipes x.pipe with e | e | e
    · rw [e]
      exact hwaits
    · exact absurd e (Io.waits_open hwaits)
    · exact absurd hqchan (e q hq hs)

theorem Waiting.moves (hmoves : Moves W k k') :
    Waiting io ring k' ∧ ∀ q ∈ k'.procs, q.state = .sleeping →
      ∀ x, io q.pid = some x → ¬ closed (k.pipes x.pipe) := by
  refine hmoves.invariant (I := fun k₁ => Waiting io ring k₁ ∧ ∀ q ∈ k₁.procs, q.state = .sleeping →
      ∀ x, io q.pid = some x → ¬ closed (k.pipes x.pipe))
    ⟨h, fun q hq hs x hx => Io.waits_open (h.waits q hq hs x hx).2⟩ ?_
  rintro k₁ k₂ ⟨h₁, hopen⟩ hmove
  refine ⟨h₁.move hactor hmove, fun q hq hs x hx => ?_⟩
  obtain ⟨p, hp, hpid, hps, -⟩ := h₁.slept hactor hmove hq hs hx
  exact hopen p hp hps x (hpid ▸ hx)

end

theorem cleared_closed (h : cleared k l = some i) : closed (k.pipes i) := by
  unfold cleared at h
  split at h
  · split at h
    · cases h
    split at h
    · cases h
    · exact pipePoolAlloc_free h
  · cases h

theorem Waiting.resetRing (h : Waiting io ring k') {i : Option ℕ}
    (hfree : ∀ q ∈ k'.procs, q.state = .sleeping → ∀ x, io q.pid = some x → some x.pipe ≠ i) :
    Waiting io (resetAt ring i emptyRing) k' := by
  refine ⟨h.live, fun q hq hs x hx => ?_⟩
  obtain ⟨hchan, hwaits⟩ := h.waits q hq hs x hx
  refine ⟨hchan, ?_⟩
  rw [resetAt_ne _ _ (hfree q hq hs x hx).symm]
  exact hwaits

section

variable (h : Waiting io ring k)

include h

theorem Waiting.actor (ht : Table k) (hen : enabled k l)
    (hcall : ∀ pid, k.current = some pid → (∃ c, l = .call c) ∨
    (∃ path copied, l = .ret path copied) →
      io pid = none) (hio : io pid ≠ none) (ha : actor k l pid) : l = .dispatch pid := by
  cases l with
  | call c => exact absurd (hcall pid ha (.inl ⟨c, rfl⟩)) hio
  | ret path copied => exact absurd (hcall pid ha (.inr ⟨path, copied, rfl⟩)) hio
  | enter tf =>
    obtain ⟨x, hx⟩ := ne_none_iff_exists'.mp hio
    obtain ⟨p, hp, rfl, hres, -⟩ := h.live pid x hx
    obtain ⟨c, hc, -, huser⟩ := hen
    have hcur := (currentProc_mem hc).2
    have hpc : p = c := ht.eq_current hc hp
      (Option.some.inj ((show k.current = some p.pid from ha).symm.trans hcur))
    rw [← hpc, hres] at huser
    cases huser
  | dispatch pid' => exact congrArg _ (show pid = pid' from ha).symm
  | reapOrphan | tick fromUser | tty sig | wake pid | wakeChan chan => exact ha.elim

theorem Waiting.dispatch (ht : Table k) {pid : ℤ} (hio : io pid ≠ none)
    (hstep : Proc.Step k (.dispatch pid) k') : Waiting io ring k' := by
  obtain ⟨x, hx⟩ := ne_none_iff_exists'.mp hio
  obtain ⟨p, hp, rfl, hres, -⟩ := h.live pid x hx
  obtain ⟨c, hc, -, hrun⟩ := dispatch_run hstep.1 hstep.2
  rw [ht.find_eq hp] at hc
  cases hc
  rw [hres] at hrun
  cases hrun
  refine ⟨fun pid' x' hx' => ?_, fun q hq hs x' hx' => ?_⟩
  · obtain ⟨q, hq, rfl, hqres, hqst⟩ := h.live pid' x' hx'
    refine ⟨if q.pid = p.pid then { q with state := .running } else q,
      Kernel.mem_modify.mpr ⟨q, hq, rfl⟩, ?_⟩
    split
    · exact ⟨rfl, hqres, .inr (.inr rfl)⟩
    · exact ⟨rfl, hqres, hqst⟩
  · obtain ⟨q₀, hq₀, rfl⟩ := Kernel.mem_modify.mp hq
    split_ifs at hs hx' ⊢ with hpid
    exact h.waits q₀ hq₀ hs x' hx'

theorem Waiting.kern (hk : Sound k) {l : Proc.Label} (hstep : Proc.Step k l k')
    (hcall : ∀ pid, k.current = some pid → (∃ c, l = .call c) ∨
    (∃ path copied, l = .ret path copied) →
      io pid = none) : Waiting io (resetAt ring (cleared k l) emptyRing) k' := by
  by_cases hd : ∃ pid, io pid ≠ none ∧ l = .dispatch pid
  · obtain ⟨pid, hio, rfl⟩ := hd
    exact (h.dispatch hk.toTable hio hstep).resetRing fun _ _ _ _ _ => nofun
  · have hactor : ∀ pid, io pid ≠ none → ¬ (powers k l).actor pid := fun pid hio ha =>
      hd ⟨pid, hio, h.actor hk.toTable hstep.1 hcall hio ha⟩
    obtain ⟨h', hopen⟩ := h.moves hactor (hstep.moves hk)
    refine h'.resetRing fun q hq hs x hx he => ?_
    exact hopen q hq hs x hx (cleared_closed he.symm)

/-! ### Calls on pipes -/

theorem Waiting.wake (i : ℕ) (r : Ring UInt8 32) :
    Waiting io (setAt ring i r) (procWakeupChan k i) := by
  have hmove : Move ⟨fun _ _ => False, fun _ => False, False, False, False, False⟩ k
      (procWakeupChan k i) := by
    refine .atom (.rouse k _ fun p => ?_)
    split
    · next hp => exact .inr ⟨hp.1, rfl⟩
    · exact .refl p
  have h' := h.move (fun _ _ => id) hmove
  refine ⟨h'.live, fun q hq hs x hx => ?_⟩
  obtain ⟨hchan, hwaits⟩ := h'.waits q hq hs x hx
  refine ⟨hchan, ?_⟩
  have hne : x.pipe ≠ i := fun he => procWakeupChan_awake hq hs (he ▸ hchan)
  rw [setAt_ne _ _ hne]
  exact hwaits

theorem Waiting.sleep (hlive : ∃ p ∈ k.procs, p.pid = pid ∧ p.resume = .trap)
    (hx : x.waits (ring x.pipe) (k.pipes x.pipe)) :
    Waiting (setPid io pid (some x)) ring
      (k.modify pid fun p => { p with state := .sleeping, sleepChan := some x.pipe }) := by
  refine ⟨fun pid' y hy => ?_, fun q hq hs y hy => ?_⟩
  · by_cases hpid : pid' = pid
    · obtain ⟨p, hp, rfl, hres⟩ := hlive
      exact ⟨_, Kernel.mem_modify.mpr ⟨p, hp, if_pos rfl⟩, hpid.symm, hres, .inl rfl⟩
    · rw [setPid_ne _ _ hpid] at hy
      obtain ⟨p, hp, hpp, hres⟩ := h.live pid' y hy
      exact ⟨p, Kernel.mem_modify.mpr ⟨p, hp, if_neg (hpp ▸ hpid)⟩, hpp, hres⟩
  · obtain ⟨p, hp, rfl⟩ := Kernel.mem_modify.mp hq
    split_ifs at hs hy ⊢ with hpid
    · rw [show ({ p with state := .sleeping, sleepChan := some x.pipe } : Pcb).pid = pid from hpid,
        setPid_same] at hy
      cases hy
      exact ⟨rfl, hx⟩
    · rw [setPid_ne _ _ hpid] at hy
      exact h.waits p hp hs y hy

theorem Waiting.drop (pid : ℤ) : Waiting (setPid io pid none) ring k := by
  have hold : ∀ {q : ℤ} {x : Io}, setPid io pid none q = some x → io q = some x := by
    intro q x hx
    by_cases hq : q = pid
    · rw [hq, setPid_same] at hx
      cases hx
    · rwa [setPid_ne _ _ hq] at hx
  exact ⟨fun q x hx => h.live q x (hold hx), fun p hp hs x hx => h.waits p hp hs x (hold hx)⟩

end

def Inside (pid : ℤ) (k : Kernel) : Prop := ∃ p ∈ k.procs, p.pid = pid ∧ p.resume = .trap

theorem Inside.sends (h : Inside pid k) (hs : Sends S k k') : Inside pid k' := by
  obtain ⟨p, hp, rfl, hres⟩ := h
  obtain ⟨q, hq, hpq⟩ := forall₂_mem_left hs.procs hp
  refine ⟨q, hq, hpq.pid, ?_⟩
  rw [hpq.frame]
  exact hres

structure Quiescent (w : World) : Prop where
  sound : Sound w.k
  bound : ∀ i, (w.ring i).count ≤ PIPESIZE
  waiting : Waiting w.io w.ring w.k

theorem setAt_self {α : Type} (f : ℕ → α) (i : ℕ) : setAt f i (f i) = f := by
  funext j
  unfold setAt
  split
  · next h => rw [h]
  · rfl

variable {t : Option Tag} {w' : World}

def callPowers (pid : ℤ) : Powers :=
  ⟨fun q sig => q = pid ∧ sig = SIGPIPE, (· = pid), False, False, False, False⟩

theorem wakeup_moves (W : Powers) (k : Kernel) (i : ℕ) : Moves W k (procWakeupChan k i) :=
  (procWakeupChan_does k i).moves

theorem sleepOn_moves (k : Kernel) (pid : ℤ) (i : ℕ) : Moves (callPowers pid) k
    (k.modify pid fun p => { p with state := .sleeping, sleepChan := some i }) :=
  .one (.atom (.sleep k pid _ rfl fun _ => rfl))

/-- An act changes the kernel by wakeups, by a sleep of its process, or by a
`SIGPIPE` to it. -/
theorem Act.moves (h : Act pid t w w') : Moves (callPowers pid) w.k w'.k := by
  cases h with
  | took _ | wrote _ => exact wakeup_moves _ _ _
  | waits _ _ => exact sleepOn_moves _ _ _
  | fills _ => exact (wakeup_moves _ _ _).trans (sleepOn_moves _ _ _)
  | broke _ => exact .one (.atom (.send _ _ _ ⟨rfl, rfl⟩))
  | finish _ _ => exact (Does.refl _).moves

theorem Inside.act (h : Inside pid w.k) (ha : Act pid t w w') : Inside pid w'.k := by
  have hsleep : ∀ {k : Kernel} {i : ℕ}, Inside pid k → Inside pid
      (k.modify pid fun p => { p with state := .sleeping, sleepChan := some i }) := by
    rintro k i ⟨p, hp, rfl, hres⟩
    exact ⟨_, Kernel.mem_modify.mpr ⟨p, hp, if_pos rfl⟩, rfl, hres⟩
  cases ha with
  | took _ | wrote _ => exact h.sends (S := NotKill) (procWakeupChan_sends _ _)
  | waits _ _ => exact hsleep h
  | fills _ => exact hsleep (h.sends (S := NotKill) (procWakeupChan_sends _ _))
  | broke _ => exact h.sends (S := fun _ => True) (sendSignal_sends _ trivial _ trivial)
  | finish _ _ => exact h

theorem Act.bound (h : ∀ i, (w.ring i).count ≤ PIPESIZE) (ha : Act pid t w w') (i : ℕ) :
    (w'.ring i).count ≤ PIPESIZE := by
  have hset : ∀ {j : ℕ} {r : Ring UInt8 32}, r.count ≤ PIPESIZE →
      (setAt w.ring j r i).count ≤ PIPESIZE := by
    intro j r hr
    unfold setAt
    split
    · exact hr
    · exact h i
  cases ha with
  | @took _ j n bs r hloop =>
    have h2 := (takeLoop_spec n hloop).2.1
    have := h j
    exact hset (by omega)
  | waits _ _ => exact h i
  | @wrote _ _ j m x x' b r hloop
  | @fills _ j m x x' n b r c hloop
  | @broke _ _ j m x x' b r hloop => exact hset (storeLoop_spec (h j) hloop).bound
  | finish _ _ => exact h i

theorem Waiting.act (h : Waiting w.io w.ring w.k) (hbound : ∀ i, (w.ring i).count ≤ PIPESIZE)
    (hin : Inside pid w.k) (ha : Act pid t w w') : Waiting w'.io w'.ring w'.k := by
  cases ha with
  | took _ => exact h.wake _ _
  | @waits _ i n c hempty hopen => exact h.sleep (x := .read c i n) hin ⟨hempty, hopen⟩
  | wrote _ => exact h.wake _ _
  | @fills _ j m i i' n b r c hloop =>
    obtain ⟨hfull, hopen, -⟩ := (storeLoop_spec (hbound j) hloop).full rfl
    refine (h.wake j r).sleep (x := .write c j n i') ?_ ⟨?_, hopen⟩
    · exact hin.sends (S := NotKill) (procWakeupChan_sends _ _)
    · simp only [Io.pipe, setAt_same]
      exact ring_full_iff.mpr hfull
  | @broke _ _ j m i i' b r hloop =>
    obtain ⟨-, -, rfl⟩ := (storeLoop_spec (hbound j) hloop).broken rfl
    simp only [World.store, setAt_self]
    have hmove : Move ⟨fun _ _ => True, fun _ => False, False, False, False, False⟩ w.k
        (sendSignal w.k pid SIGPIPE) := .atom (.send _ _ _ trivial)
    exact h.move (fun _ _ => id) hmove
  | finish value bytes => exact h.drop pid

theorem Quiescent.acts (h : Quiescent w) (hin : Inside pid w.k) (ha : Acts pid t w w') :
    Quiescent w' := by
  refine (ha.invariant (I := fun w => Quiescent w ∧ Inside pid w.k) ⟨h, hin⟩ ?_).1
  rintro w₁ w₂ ⟨h₁, hin₁⟩ hact
  exact ⟨⟨h₁.sound.moves hact.moves, hact.bound h₁.bound, h₁.waiting.act h₁.bound hin₁ hact⟩,
    hin₁.act hact⟩

/-! ### Every step -/

theorem runsAt.inside (h : runsAt k .trap) (hc : k.current = some pid) : Inside pid k := by
  obtain ⟨p, hp, -, hres⟩ := h
  obtain ⟨hmem, hcur⟩ := currentProc_mem hp
  exact ⟨p, hmem, Option.some.inj (hcur.symm.trans hc), hres⟩

theorem Quiescent.awake (h : Quiescent w) {p : Pcb} (hruns : runsAt w.k .trap)
    (hp : w.k.currentProc = some p) :
    Quiescent (w.awake p.pid) ∧ Inside p.pid (w.awake p.pid).k := by
  obtain ⟨c, hc, hrun, hres⟩ := hruns
  cases hp.symm.trans hc
  have hmem := (currentProc_mem hp).1
  refine ⟨⟨h.sound.modify fun _ => ⟨rfl, id⟩, h.bound, fun pid x hx => ?_, fun q hq hs x hx => ?_⟩,
    _, Kernel.mem_modify.mpr ⟨p, hmem, if_pos rfl⟩, rfl, hres⟩
  · obtain ⟨q, hq, rfl, hqres, hqst⟩ := h.waiting.live pid x hx
    refine ⟨_, Kernel.mem_modify.mpr ⟨q, hq, rfl⟩, ?_⟩
    split <;> exact ⟨rfl, hqres, hqst⟩
  · obtain ⟨q₀, hq₀, rfl⟩ := Kernel.mem_modify.mp hq
    split_ifs at hs hx ⊢ with hpid
    · -- the running process does not sleep
      have hqp : q₀ = p := h.sound.toTable.eq_of_pid hq₀ hmem hpid
      rw [hqp] at hs
      exact absurd (hs.symm.trans hrun) nofun
    · exact h.waiting.waits q₀ hq₀ hs x hx

theorem allows_call (h : w.allows l)
    (hcur : w.k.current = some pid) (hl : (∃ c, l = .call c) ∨
    ∃ path copied, l = .ret path copied) :
    w.io pid = none := by
  unfold World.allows at h
  rw [hcur] at h
  rcases hl with ⟨c, rfl⟩ | ⟨path, copied, rfl⟩
  · exact h.1
  · exact h.1

theorem Quiescent.step {w' : World} {l : Label} (h : Quiescent w) (hstep : Step w l w') :
    Quiescent w' := by
  cases hstep with
  | @kern l k' hallows hkern =>
    refine ⟨h.sound.step hkern,
      fun i => ?_, h.waiting.kern h.sound hkern fun pid => allows_call hallows⟩
    by_cases hi : cleared w.k l = some i
    · simp only [World.kern, hi, resetAt_same, emptyRing_count]
      exact Nat.zero_le _
    · simp only [World.kern, resetAt_ne _ _ hi]
      exact h.bound i
  | read hcall _ => exact h.acts (t := none) (runsAt.inside hcall.1 hcall.2.1) (readLoop_acts _ _ _)
  | write hcall _ =>
    have h0 : Quiescent { w with calls := w.calls + 1 } := ⟨h.sound, h.bound, h.waiting⟩
    exact h0.acts (runsAt.inside hcall.1 hcall.2.1) (writeLoop_acts _ rfl _)
  | resumeRead hruns hp _ =>
    obtain ⟨h0, hin⟩ := h.awake hruns hp
    exact h0.acts (t := none) hin (resumeRead_acts _ _ _ _ _)
  | resumeWrite hruns hp _ =>
    obtain ⟨h0, hin⟩ := h.awake hruns hp
    exact h0.acts hin (resumeWrite_acts rfl _ _ _ _ _)

theorem Quiescent.boot (hpid : 0 < pid) (entry sp : BitVec 64) :
    Quiescent (bootWorld pid entry sp) :=
  ⟨Sound.boot hpid entry sp, (Fifo.boot pid entry sp).bound, nofun, fun _ _ _ _ => nofun⟩

theorem Quiescent.reaches {ok : World → Label → Prop} (hpid : 0 < pid)
    {entry sp : BitVec 64} (h : Reaches Step ok (bootWorld pid entry sp) w) :
    Quiescent w :=
  h.invariant (Quiescent.boot hpid entry sp) fun _ _ _ hw _ hstep => hw.step hstep

/-- No wakeup is lost: whoever sleeps in `pipe_read` finds the pipe empty with a
write end open, and whoever sleeps in `pipe_write` finds it full with a read end
open. -/
theorem no_lost_wakeup (pid : ℤ) (hpid : 0 < pid) (entry sp : BitVec 64) {w : World}
    (h : Reaches Step (fun _ _ => True) (bootWorld pid entry sp) w) {p : Pcb} (hp : p ∈ w.k.procs)
    (hs : p.state = .sleeping) :
    (∀ c i n, w.io p.pid = some (.read c i n) →
      contents (w.ring i) = [] ∧ (w.k.pipes i).writeopen = true) ∧
    ∀ c j n i, w.io p.pid = some (.write c j n i) →
      (contents (w.ring j)).length = PIPESIZE ∧ (w.k.pipes j).readopen = true := by
  have hq := Quiescent.reaches hpid h
  refine ⟨fun c i n hio => ?_, fun c j n i hio => ?_⟩
  · obtain ⟨-, hempty, hopen⟩ := hq.waiting.waits p hp hs _ hio
    exact ⟨Ring.contents_eq_nil ((Ring.count_eq_zero _).mpr hempty), hopen⟩
  · obtain ⟨-, hfull, hopen⟩ := hq.waiting.waits p hp hs _ hio
    refine ⟨?_, hopen⟩
    rw [contents, Ring.contents_length]
    exact ring_full_iff.mp hfull

/-- Init sleeps in `pipe_read` on the empty pipe. -/
theorem no_lost_wakeup_empty_pipe : ∃ w p c i n,
    run (fun _ _ => true) (pipeAndFork ++ [.read 3 300 fun _ _ => true])
      (bootWorld 1 0x10000 0x20000) = some w ∧
    (p ∈ w.k.procs ∧ p.state = .sleeping) ∧ w.io p.pid = some (.read c i n) ∧
    contents (w.ring i) = [] ∧ (w.k.pipes i).writeopen = true := by
  have hrun : (run (fun _ _ => true) (pipeAndFork ++ [.read 3 300 fun _ _ => true])
      (bootWorld 1 0x10000 0x20000)).any (fun w => w.k.procs.any fun p =>
        p.state = .sleeping ∧ ((w.io p.pid).bind Io.got).isSome) = true := by
    decide +kernel
  obtain ⟨w, hw, hend⟩ := (any_eq_true _ _).mp hrun
  obtain ⟨p, hp, hio⟩ := any_eq_true.mp hend
  obtain ⟨hs, hio⟩ := of_decide_eq_true hio
  obtain ⟨m, hm⟩ := isSome_iff_exists.mp hio
  obtain ⟨⟨c, i, n⟩ | ⟨c, j, n, i⟩, hx, hm⟩ := bind_eq_some_iff.mp hm
  · have hreach : Reaches Step (fun _ _ => True) (bootWorld 1 0x10000 0x20000) w :=
      (run_reaches hw).mono fun _ _ _ => trivial
    exact ⟨w, p, c, i, n, hw, ⟨hp, hs⟩, hx,
      (no_lost_wakeup 1 (by decide) 0x10000 0x20000 hreach hp hs).1 c i n hx⟩
  · cases hm

end Sbunix.Pipe
