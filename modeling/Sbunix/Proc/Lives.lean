import Sbunix.Proc.FdSpec

/-!
# What a step does to the lives of processes

Seen from `wait4` a step does one of five things: nothing, an exit, a fork, a
reap, or the removal of a zombie without a parent. Everything else that the
kernel does leaves alone who a process is, who its parent is, whether it is a
zombie and with which status, and the times it took over from its children.
-/

namespace Sbunix.Proc

open List Lib

structure SameLife (p q : Pcb) : Prop where
  pid : q.pid = p.pid
  generation : q.generation = p.generation
  parentPid : q.parentPid = p.parentPid
  exitStatus : q.exitStatus = p.exitStatus
  cutime : q.cutimeTicks = p.cutimeTicks
  cstime : q.cstimeTicks = p.cstimeTicks
  zombie : q.state = .zombie ↔ p.state = .zombie

variable {D : Prop} {S : ℕ → Prop} {pid : ℤ} {p' : Pcb} {k : Kernel} {u : Unit}
  {options : BitVec 32}

namespace SameLife

variable {p q r : Pcb}

theorem refl (p : Pcb) : SameLife p p := ⟨rfl, rfl, rfl, rfl, rfl, rfl, Iff.rfl⟩

theorem trans (h : SameLife p q) (h' : SameLife q r) : SameLife p r :=
  ⟨h'.pid.trans h.pid, h'.generation.trans h.generation, h'.parentPid.trans h.parentPid,
    h'.exitStatus.trans h.exitStatus, h'.cutime.trans h.cutime, h'.cstime.trans h.cstime,
    h'.zombie.trans h.zombie⟩

theorem of_core (hc : q.core = p.core) (hz : q.state = .zombie ↔ p.state = .zombie) :
    SameLife p q :=
  ⟨congrArg Core.pid hc, congrArg Core.generation hc, congrArg Core.parentPid hc,
    congrArg Core.exitStatus hc, congrArg Core.cutimeTicks hc, congrArg Core.cstimeTicks hc, hz⟩

theorem of_quiet (h : Quiet D p q) : SameLife p q := of_core h.core h.state.zombie

theorem of_sent (h : Sent S p q) : SameLife p q :=
  of_core h.core (show Woken p.state q.state from h.state).zombie

end SameLife

structure Calm (k k' : Kernel) : Prop where
  initPid : k'.initPid = k.initPid
  generationSeq : k.generationSeq ≤ k'.generationSeq
  procs : List.Forall₂ SameLife k.procs k'.procs

namespace Calm

variable {k' k'' : Kernel}

theorem of_procs (hinit : k'.initPid = k.initPid) (hgen : k.generationSeq ≤ k'.generationSeq)
    (hprocs : k'.procs = k.procs) : Calm k k' :=
  ⟨hinit, hgen, hprocs ▸ forall₂_same.mpr fun p _ => SameLife.refl p⟩

theorem refl (k : Kernel) : Calm k k := of_procs rfl le_rfl rfl

theorem trans (h : Calm k k') (h' : Calm k' k'') : Calm k k'' :=
  ⟨h'.initPid.trans h.initPid, h.generationSeq.trans h'.generationSeq,
    forall₂_comp h.procs h'.procs fun _ _ _ => SameLife.trans⟩

theorem of_quiet (h : QuietAll D k k') : Calm k k' :=
  ⟨h.initPid, h.generationSeq.ge, h.procs.imp fun _ _ => SameLife.of_quiet⟩

theorem of_sends (h : Sends S k k') : Calm k k' := by
  have hf := h.frame
  refine ⟨?_, ?_, h.procs.imp fun _ _ => SameLife.of_sent⟩ <;> rw [hf]

variable {g : Pcb → Pcb}

theorem modify (hg : ∀ q ∈ k.procs, q.pid = pid → SameLife q (g q)) : Calm k (k.modify pid g) :=
  ⟨rfl, le_rfl, forall₂_modify SameLife.refl hg⟩

theorem modify_all (hg : ∀ q, SameLife q (g q)) : Calm k (k.modify pid g) :=
  modify fun q _ _ => hg q

theorem modify_state {p : Pcb} (ht : Table k) (hp : k.find pid = some p)
    (hs : p.state ≠ .zombie) (hcore : (g p).core = p.core) (hg : (g p).state ≠ .zombie) :
    Calm k (k.modify pid g) := by
  obtain ⟨hmem, rfl⟩ := Kernel.find_mem hp
  refine modify fun q hq hpid => ?_
  rw [ht.eq_of_pid hq hmem hpid]
  exact SameLife.of_core hcore ⟨fun h => absurd h hg, fun h => absurd h hs⟩

end Calm

/-! ### Exits -/

/-- The effect of the exit of `p` on a process. -/
structure Died (p : Pcb) (dst : ℤ) (a b : Pcb) : Prop where
  pid : b.pid = a.pid
  generation : b.generation = a.generation
  cutime : b.cutimeTicks = a.cutimeTicks
  cstime : b.cstimeTicks = a.cstimeTicks
  parentPid : b.parentPid = if a.parentPid = p.pid then dst else a.parentPid
  dead : a.pid = p.pid → b.state = .zombie
  others : a.pid ≠ p.pid → b.exitStatus = a.exitStatus ∧ (b.state = .zombie ↔ a.state = .zombie)

/-- `p` exits, and its children go to init. -/
structure Exits (p : Pcb) (k k' : Kernel) : Prop where
  initPid : k'.initPid = k.initPid
  generationSeq : k.generationSeq ≤ k'.generationSeq
  procs : List.Forall₂ (Died p (reparentTo k)) k.procs k'.procs

variable {a b c p : Pcb} {dst status : ℤ} {k' k₁ : Kernel}

theorem Died.of_same (hs : SameLife a b) (hd : Died p' dst b c)
    (hp : p'.pid = p.pid) : Died p dst a c where
  pid := hd.pid.trans hs.pid
  generation := hd.generation.trans hs.generation
  cutime := hd.cutime.trans hs.cutime
  cstime := hd.cstime.trans hs.cstime
  parentPid := by rw [hd.parentPid, hs.parentPid, hp]
  dead h := hd.dead (hs.pid.trans (h.trans hp.symm))
  others h := by
    obtain ⟨h1, h2⟩ := hd.others fun he => h (hs.pid.symm.trans (he.trans hp))
    exact ⟨h1.trans hs.exitStatus, h2.trans hs.zombie⟩

theorem Died.then_same (hd : Died p dst a b) (hs : SameLife b c) : Died p dst a c where
  pid := hs.pid.trans hd.pid
  generation := hs.generation.trans hd.generation
  cutime := hs.cutime.trans hd.cutime
  cstime := hs.cstime.trans hd.cstime
  parentPid := hs.parentPid.trans hd.parentPid
  dead h := hs.zombie.mpr (hd.dead h)
  others h := by
    obtain ⟨h1, h2⟩ := hd.others h
    exact ⟨hs.exitStatus.trans h1, hs.zombie.trans h2⟩

theorem reparentTo_congr (h : k'.initPid = k.initPid) : reparentTo k' = reparentTo k := by
  unfold reparentTo
  rw [h]

theorem Exits.of_calm (hc : Calm k k₁) (he : Exits p' k₁ k')
    (hp : p'.pid = p.pid) : Exits p k k' where
  initPid := he.initPid.trans hc.initPid
  generationSeq := hc.generationSeq.trans he.generationSeq
  procs := forall₂_comp hc.procs he.procs fun _ _ _ hs hd =>
    Died.of_same hs (reparentTo_congr hc.initPid ▸ hd) hp

theorem Exits.then_calm (he : Exits p k k₁) (hc : Calm k₁ k') : Exits p k k' where
  initPid := hc.initPid.trans he.initPid
  generationSeq := he.generationSeq.trans hc.generationSeq
  procs := forall₂_comp he.procs hc.procs fun _ _ _ hd hs => hd.then_same hs

/-- Up to its last store an exit has reparented the children and set the status. -/
structure Exiting (p : Pcb) (status dst : ℤ) (a b : Pcb) : Prop where
  pid : b.pid = a.pid
  generation : b.generation = a.generation
  cutime : b.cutimeTicks = a.cutimeTicks
  cstime : b.cstimeTicks = a.cstimeTicks
  parentPid : b.parentPid = if a.parentPid = p.pid then dst else a.parentPid
  exitStatus : b.exitStatus = if a.pid = p.pid then status else a.exitStatus
  zombie : b.state = .zombie ↔ a.state = .zombie

theorem Exiting.then_same (h1 : Exiting p status dst a b)
    (h2 : SameLife b c) : Exiting p status dst a c :=
  ⟨h2.pid.trans h1.pid, h2.generation.trans h1.generation, h2.cutime.trans h1.cutime,
    h2.cstime.trans h1.cstime, h2.parentPid.trans h1.parentPid, h2.exitStatus.trans h1.exitStatus,
    h2.zombie.trans h1.zombie⟩

theorem exiting_procs (hclose : closeFds p.pid (fun _ => true)
      (reparent (k.modify p.pid (Pcb.exiting status)) p.pid) = (some u, k₁)) :
    k₁.initPid = k.initPid ∧ k₁.generationSeq = k.generationSeq ∧ k₁.current = k.current ∧
      List.Forall₂ (Exiting p status (reparentTo k)) k.procs k₁.procs := by
  have hq₁ := reparent_quiet (k.modify p.pid (Pcb.exiting status)) p.pid
  have hq₂ := closeFds_rel quiet_fds trivial _ _ _ _ hclose
  refine ⟨hq₂.initPid.trans hq₁.initPid, hq₂.generationSeq.trans hq₁.generationSeq,
    hq₂.current.trans hq₁.current, ?_⟩
  have hstore : List.Forall₂ (Exiting p status (reparentTo k)) k.procs
      ((k.modify p.pid (Pcb.exiting status)).modifyAll
        (Pcb.reparented p.pid (reparentTo k))).procs := by
    simp only [Kernel.modifyAll, Kernel.modify, map_map]
    refine forall₂_map_right_iff.mpr (forall₂_same.mpr fun a _ => ?_)
    simp only [Function.comp_apply, Pcb.reparented]
    by_cases ha : a.pid = p.pid <;> by_cases hpar : a.parentPid = p.pid <;>
      simp only [ha, hpar, if_true, if_false, Pcb.exiting] <;>
      exact ⟨by simp [ha], rfl, rfl, rfl, by simp [hpar], by simp [ha], Iff.rfl⟩
  have hsame : List.Forall₂ SameLife
      ((k.modify p.pid (Pcb.exiting status)).modifyAll (Pcb.reparented p.pid (reparentTo k))).procs
      k₁.procs :=
    forall₂_comp hq₁.procs hq₂.procs fun _ _ _ h1 h2 =>
      (SameLife.of_quiet h1).trans (SameLife.of_quiet h2)
  exact forall₂_comp hstore hsame fun _ _ _ => Exiting.then_same

theorem Exiting.dead (h : Exiting p status dst a b) :
    Died p dst a (if b.pid = p.pid then b.dead else b) := by
  by_cases hb : b.pid = p.pid
  · rw [if_pos hb]
    exact ⟨h.pid, h.generation, h.cutime, h.cstime, h.parentPid, fun _ => rfl,
      fun ha => absurd (h.pid.symm.trans hb) ha⟩
  · rw [if_neg hb]
    refine ⟨h.pid, h.generation, h.cutime, h.cstime, h.parentPid,
      fun ha => absurd (h.pid.trans ha) hb, fun ha => ⟨?_, h.zombie⟩⟩
    rw [h.exitStatus, if_neg ha]

theorem exit_exits {gone : Bool} (hp : k.currentProc = some p)
    (hs : p.state = .running) (he : procExitCurrent status k = (some gone, k')) :
    Exits p k k' ∧ k'.current = k.current ∧
      ∃ z ∈ k'.procs, z.generation = p.generation ∧ z.state = .zombie ∧ z.exitStatus = status := by
  cases procExitCurrent_run he with
  | idle hr => exact absurd ⟨p, hp, hs⟩ hr
  | @gone p' k₁ hp' _ hclose =>
    cases hp.symm.trans hp'
    obtain ⟨hinit, hgen, hcur, hprocs⟩ := exiting_procs hclose
    obtain ⟨k₂, hq, hz⟩ := becomeZombie_eq k₁ p
    have hprocs₂ : List.Forall₂ (Exiting p status (reparentTo k)) k.procs k₂.procs :=
      forall₂_comp hprocs hq.procs fun _ _ _ h1 h2 => h1.then_same (SameLife.of_quiet h2)
    have hlast : List.Forall₂ (fun b c => c = if b.pid = p.pid then b.dead else b) k₂.procs
        (k₂.modify p.pid Pcb.dead).procs :=
      forall₂_map_right_iff.mpr (forall₂_same.mpr fun b _ => rfl)
    rw [hz]
    refine ⟨⟨hq.initPid.trans hinit, (hq.generationSeq.trans hgen).ge, ?_⟩,
      hq.current.trans hcur, ?_⟩
    · refine forall₂_comp hprocs₂ hlast fun a b c h1 h2 => ?_
      rw [h2]
      exact h1.dead
    · obtain ⟨b, hb, hpb⟩ := forall₂_mem_left hprocs₂ (currentProc_mem hp).1
      refine ⟨b.dead, Kernel.mem_modify.mpr ⟨b, hb, if_pos hpb.pid⟩, hpb.generation, rfl, ?_⟩
      exact hpb.exitStatus.trans (if_pos rfl)

/-! ### The effects of a step -/

/-- The child `c` of `p` is new. -/
structure Forks (p c : Pcb) (k k' : Kernel) : Prop where
  initPid : k'.initPid = k.initPid
  generationSeq : k'.generationSeq = k.generationSeq + 1
  procs : ∃ l, List.Forall₂ SameLife k.procs l ∧ k'.procs = l ++ [c]
  pid : 0 < c.pid
  generation : c.generation = k.generationSeq + 1
  parentPid : c.parentPid = p.pid
  times : c.cutimeTicks = 0 ∧ c.cstimeTicks = 0
  state : c.state ≠ .zombie

/-- The effect on a process when `me` takes over the times of `z`. -/
structure Took (me z a b : Pcb) : Prop where
  pid : b.pid = a.pid
  generation : b.generation = a.generation
  parentPid : b.parentPid = a.parentPid
  exitStatus : b.exitStatus = a.exitStatus
  zombie : b.state = .zombie ↔ a.state = .zombie
  cutime : b.cutimeTicks =
    if a.pid = me.pid then a.cutimeTicks + (z.utimeTicks + z.cutimeTicks) else a.cutimeTicks
  cstime : b.cstimeTicks =
    if a.pid = me.pid then a.cstimeTicks + (z.stimeTicks + z.cstimeTicks) else a.cstimeTicks

/-- `me` reaps the zombie `z`. -/
structure Reaps (me z : Pcb) (k k' : Kernel) : Prop where
  initPid : k'.initPid = k.initPid
  generationSeq : k'.generationSeq = k.generationSeq
  procs : List.Forall₂ (Took me z) (k.procs.filter (·.pid ≠ z.pid)) k'.procs

/-- A child handed out by `wait4`: who got it, and what the call returned. -/
structure Reap where
  parent : Pcb
  child : Pcb
  ret : ℤ × Option ℤ

/-- The child in the result of a pass of `wait4` made by `me`. -/
def reapResult (ustatus : Option Bool) : Option Pcb → Option WaitResult → Option Reap
  | some me, some (.reaped child) => some ⟨me, child, wait4Return ustatus (.reaped child)⟩
  | _, _ => none

def reapOf (k : Kernel) : Label → Option Reap
  | .call (.wait4 pid options ustatus) =>
    reapResult ustatus k.currentProc (wait4Pass pid options k).1
  | _ => none

/-- The scheduler removes the zombie `z`, which ran last. -/
structure Removes (z : Pcb) (k k' : Kernel) : Prop where
  current : k'.current = none
  generationSeq : k'.generationSeq = k.generationSeq
  procs : List.Forall₂ SameLife (k.procs.filter (·.pid ≠ z.pid)) k'.procs

inductive Effect (k : Kernel) : Option Reap → Kernel → Prop
  | calm {k' : Kernel} : Calm k k' → Effect k none k'
  | exits {p : Pcb} {k' : Kernel} :
    p ∈ k.procs → p.state ≠ .zombie → Exits p k k' → Effect k none k'
  | forks {p c : Pcb} {k' : Kernel} : p ∈ k.procs → p.state ≠ .zombie → Forks p c k k' →
    Effect k none k'
  | reaps {me z : Pcb} {k' : Kernel} (ret : ℤ × Option ℤ) : k.currentProc = some me →
    me.state = .running → z ∈ k.procs → z.state = .zombie → z.parentPid = me.pid →
    Reaps me z k k' → Effect k (some ⟨me, z, ret⟩) k'
  | orphan {z : Pcb} {k' : Kernel} : z ∈ k.procs → z.state = .zombie → z.parentPid = 0 →
    Removes z k k' → Effect k none k'

/-! ### The return path -/

def CurrentDead (k : Kernel) : Prop := ∀ q ∈ k.procs, k.current = some q.pid → q.state = .zombie

/-- Since `k` nothing happened, or one process exited that is still current. -/
def SinceBase (k k₁ : Kernel) : Prop :=
  Table k₁ ∧ (Calm k k₁ ∨ ∃ p ∈ k.procs, p.state ≠ .zombie ∧ Exits p k k₁ ∧ CurrentDead k₁)

theorem CurrentDead.not_running (h : CurrentDead k) (hp : k.currentProc = some p)
    (hs : p.state = .running) : False := by
  obtain ⟨hmem, hcur⟩ := currentProc_mem hp
  rw [h p hmem hcur] at hs
  cases hs

theorem CurrentDead.quiet (h : CurrentDead k) (hq : QuietAll D k k') : CurrentDead k' := by
  intro q hqm hc
  obtain ⟨p, hp, hs⟩ := hq.mem hqm
  rw [hq.current, hs.pid] at hc
  exact hs.state.zombie.mpr (h p hp hc)

theorem sinceBase_robust (k : Kernel) : Robust (SinceBase k) where
  quiet hq h := by
    refine ⟨hq.table h.1, h.2.imp (fun hc => hc.trans (Calm.of_quiet hq)) ?_⟩
    rintro ⟨p, hp, hs, hx, hd⟩
    exact ⟨p, hp, hs, hx.then_calm (Calm.of_quiet hq), hd.quiet hq⟩
  stop {k₁ p} h hp hs sig := by
    have htable : TableAll (fun _ => True) k₁ := ⟨h.1, fun _ _ => trivial⟩
    refine ⟨(htable.modify (g := Pcb.stopFor sig) (fun _ => rfl) (fun _ _ => nofun) fun _ =>
      id).toTable,
      .inl ?_⟩
    rcases h.2 with hc | ⟨_, _, _, _, hd⟩
    · exact hc.trans (Calm.modify_state h.1 (currentProc_find hp) (by rw [hs]; nofun) rfl nofun)
    · exact (hd.not_running hp hs).elim
  exit {k₁ k₂ status gone} h hr he := by
    have htable : TableAll (fun _ => True) k₁ := ⟨h.1, fun _ _ => trivial⟩
    have htable₂ := (exit_keeps ⟨fun _ h => h, fun _ h => h⟩ htable he).toTable
    obtain ⟨p₁, hp₁, hs⟩ := hr
    obtain ⟨hx, hcur, -⟩ := exit_exits hp₁ hs he
    rcases h.2 with hc | ⟨_, _, _, _, hd⟩
    · obtain ⟨p, hp, hsame⟩ := forall₂_mem hc.procs (currentProc_mem hp₁).1
      refine ⟨htable₂, .inr ⟨p, hp, fun hz => ?_, Exits.of_calm hc hx hsame.pid, ?_⟩⟩
      · rw [hsame.zombie.mpr hz] at hs
        cases hs
      · intro q hq hqc
        obtain ⟨a, _, hd⟩ := forall₂_mem hx.procs hq
        refine hd.dead ?_
        rw [hcur, (currentProc_mem hp₁).2] at hqc
        exact hd.pid.symm.trans (Option.some.inj hqc).symm
    · exact (hd.not_running hp₁ hs).elim

theorem SinceBase.effect (h : SinceBase k k₁) (hc : Calm k₁ k') : Effect k none k' := by
  rcases h.2 with hc₁ | ⟨p, hp, hs, hx, -⟩
  · exact .calm (hc₁.trans hc)
  · exact .exits hp hs (hx.then_calm hc)

/-! ### The calls -/

theorem fork_effect {env : ForkEnv} {r : ℤ} (hr : Running k)
    (he : procForkCurrent env k = (some r, k')) : Effect k none k' := by
  have hcalm : ∀ {k₀ : Kernel} {a : ℤ × ℕ}, allocPid k = (some a, k₀) → Calm k k₀ := by
    rintro k₀ ⟨pid, generation⟩ halloc
    obtain ⟨-, -, hseq, hinit, hprocs⟩ := allocPid_run halloc
    exact Calm.of_procs hinit (by omega) hprocs
  cases procForkCurrent_run he with
  | refused _ => exact .calm (Calm.refl k)
  | failed halloc => exact .calm (hcalm halloc)
  | unwound _ halloc hdup hclose =>
    have hwakes := (dupFds_rel wakes_files _ _ _ _ hdup).trans
      (closeOrphan_rel wakes_files _ _ _ _ hclose)
    exact .calm ((hcalm halloc).trans (Calm.of_quiet hwakes.quiet))
  | @forked parent _ generation k₀ k₁ hparent halloc hdup =>
    obtain ⟨hpos, hgen, hseq, hinit, hprocs⟩ := allocPid_run halloc
    have hq := (dupFds_rel wakes_files _ _ _ _ hdup).quiet
    obtain ⟨p, hp, hs⟩ := hr
    obtain rfl : p = parent := Option.some.inj (hp.symm.trans hparent)
    refine .forks (c := forkChild p r generation) (currentProc_mem hp).1 (by rw [hs]; nofun) ?_
    exact ⟨hq.initPid.trans hinit, hq.generationSeq.trans hseq,
      ⟨k₁.procs, hprocs ▸ (Calm.of_quiet hq).procs, rfl⟩, hpos, hgen, rfl, ⟨rfl, rfl⟩, nofun⟩

theorem destroy_filter (he : procDestroy p k = (some u, k')) :
    k'.initPid = k.initPid ∧ k'.generationSeq = k.generationSeq ∧ k'.current = k.current ∧
      List.Forall₂ SameLife (k.procs.filter (·.pid ≠ p.pid)) k'.procs := by
  have hq := (closeOrphan_rel wakes_files _ _ _ _ (procDestroy_run he)).quiet
  exact ⟨hq.initPid, hq.generationSeq, hq.current, (Calm.of_quiet hq).procs⟩

theorem reapOrphan_removes (hz : k.currentProc = some p) (he : reapOrphan k = (some (), k')) :
    Removes p k k' := by
  obtain ⟨-, hseq, hcur, hprocs⟩ := destroy_filter (reapOrphan_run hz he)
  exact ⟨hcur, hseq, hprocs⟩

theorem Took.of_absorb {me z a b : Pcb}
    (h : SameLife (if a.pid = me.pid then z.absorb a else a) b) :
    Took me z a b := by
  by_cases ha : a.pid = me.pid
  · rw [if_pos ha] at h
    refine ⟨h.pid, h.generation, h.parentPid, h.exitStatus, h.zombie, ?_, ?_⟩
    · rw [if_pos ha]
      exact h.cutime
    · rw [if_pos ha]
      exact h.cstime
  · rw [if_neg ha] at h
    refine ⟨h.pid, h.generation, h.parentPid, h.exitStatus, h.zombie, ?_, ?_⟩
    · rw [if_neg ha]
      exact h.cutime
    · rw [if_neg ha]
      exact h.cstime

theorem reapOf_wait4 {r : WaitResult} (ustatus : Option Bool)
    (he : wait4Pass pid options k = (some r, k')) :
    reapOf k (.call (.wait4 pid options ustatus)) = reapResult ustatus k.currentProc (some r) :=
  congrArg (fun x : Option WaitResult × Kernel => reapResult ustatus k.currentProc x.1) he

theorem wait4_effect {r : WaitResult} (ustatus : Option Bool) (ht : Table k)
    (hr : Running k) (he : wait4Pass pid options k = (some r, k')) :
    Effect k (reapResult ustatus k.currentProc (some r)) k' := by
  have hreport : ∀ {q : ℤ} {g : Pcb → Pcb}, (∀ p, (g p).core = p.core) →
      (∀ p, (g p).state = p.state) → Calm k (k.modify q g) := fun hcore hstate =>
    Calm.modify_all fun p => SameLife.of_core (hcore p) (by rw [hstate p])
  obtain ⟨me, hme, hs⟩ := hr
  rw [hme]
  cases wait4Pass_run he with
  | failed _ => exact .calm (Calm.refl k)
  | slept hme' _ =>
    cases hme.symm.trans hme'
    exact .calm (Calm.modify_state ht (currentProc_find hme) (by rw [hs]; nofun) rfl nofun)
  | stopReported _ | continueReported _ => exact .calm (hreport (fun _ => rfl) fun _ => rfl)
  | @reaped me' z k₁ hme' hz hzombie hdestroy =>
    cases hme.symm.trans hme'
    have hparent : z.parentPid = me.pid := by
      have := hz.2
      unfold waitable at this
      simp only [Bool.and_eq_true, decide_eq_true_eq] at this
      exact this.1
    obtain ⟨hinit, hseq, -, hprocs⟩ := destroy_filter hdestroy
    refine .reaps _ hme hs hz.1 hzombie hparent ⟨hinit, hseq, ?_⟩
    have hfilter : (k.modify me.pid z.absorb).procs.filter (·.pid ≠ z.pid) =
        (k.procs.filter (·.pid ≠ z.pid)).map fun a => if a.pid = me.pid then z.absorb a else a := by
      unfold Kernel.modify
      rw [filter_map]
      congr 1
      refine filter_congr fun a _ => ?_
      simp only [Function.comp_apply]
      split <;> rfl
    rw [hfilter, forall₂_map_left_iff] at hprocs
    exact hprocs.imp fun a b => Took.of_absorb

theorem call_effect {c : Call} (ht : Table k) (hr : Running k) (he : call c k = (some (), k')) :
    Effect k (reapOf k (.call c)) k' := by
  have hnone : c.waits = false → reapOf k (.call c) = none := by
    intro hc
    cases c with
    | wait4 => cases hc
    | _ => rfl
  cases call_run he with
  | quiet hc hq => exact hnone hc ▸ .calm (Calm.of_quiet hq)
  | sends hc hs => exact hnone hc ▸ .calm (Calm.of_sends hs)
  | @rests _ g hc he hg =>
    obtain ⟨p, hp, hs⟩ := hr
    unfold modifyCurrent at he
    rw [(currentProc_mem hp).2] at he
    cases he
    have hzombie : (g p).state ≠ .zombie := fun hz => by
      rcases (hg p).state with h | h <;> cases h.symm.trans hz
    exact hnone hc ▸ .calm
      (Calm.modify_state ht (currentProc_find hp) (by rw [hs]; nofun) (hg p).core hzombie)
  | fork hrun => exact fork_effect hr hrun
  | exit hrun =>
    obtain ⟨p, hp, hs⟩ := hr
    exact .exits (currentProc_mem hp).1 (by rw [hs]; nofun) (exit_exits hp hs hrun).1
  | wait4 ustatus hrun =>
    rw [reapOf_wait4 ustatus hrun]
    exact wait4_effect ustatus ht hr hrun
  | sigreturn hrun =>
    exact (sysSigreturn_keeps (sinceBase_robust k) ⟨ht, .inl (Calm.refl k)⟩ hr hrun).effect
      (Calm.refl k')

theorem sinceBase_sturdy (k : Kernel) : Sturdy (SinceBase k) where
  toRobust := sinceBase_robust k
  continues {k₁ pid g} hg h := by
    have hsame : ∀ p, SameLife p (g p) ∧ (g p).state = p.state := by
      intro p
      obtain ⟨_, _, _, _, hq⟩ := hg p
      rw [hq]
      exact ⟨⟨rfl, rfl, rfl, rfl, rfl, rfl, Iff.rfl⟩, rfl⟩
    have hcalm : Calm k₁ (k₁.modify pid g) := Calm.modify_all fun p => (hsame p).1
    refine ⟨h.1.modify fun p => ⟨(hsame p).1.pid, (hsame p).2.trans_ne⟩,
      h.2.imp (fun hc => hc.trans hcalm) ?_⟩
    rintro ⟨p, hp, hs, hx, hd⟩
    refine ⟨p, hp, hs, hx.then_calm hcalm, fun q hq hcur => ?_⟩
    obtain ⟨q₀, hq₀, hlife⟩ := forall₂_mem hcalm.procs hq
    exact hlife.zombie.mpr (hd q₀ hq₀ (hlife.pid ▸ hcur))

theorem step_effect {l : Label} (ht : Table k) (hstep : Step k l k') :
    Effect k (reapOf k l) k' := by
  cases step_run hstep with
  | call hr he => exact call_effect ht hr he
  | @dispatch pid p hp hready hrun =>
    have hnext : Table (k.modify pid fun q => { q with state := .running }) :=
      ht.modify fun _ => ⟨rfl, fun _ => nofun⟩
    have hcalm : Calm k (k.modify pid fun q => { q with state := .running }) :=
      Calm.modify_state ht hp (by rw [hready]; nofun) rfl nofun
    have hbase : SinceBase k (runNext k pid) :=
      ⟨hnext.of_procs rfl, .inl ⟨hcalm.initPid, hcalm.generationSeq, hcalm.procs⟩⟩
    exact (hrun (sinceBase_sturdy k) hbase).effect (Calm.refl k')
  | reapOrphan hz hzombie hparent he =>
    exact .orphan (currentProc_mem hz).1 hzombie hparent (reapOrphan_removes hz he)
  | passing hl hrun =>
    have hbase := hrun (sinceBase_sturdy k) ⟨ht, .inl (Calm.refl k)⟩
    cases l with
    | call | dispatch | reapOrphan => cases hl
    | _ => exact hbase.effect (Calm.refl k')

end Sbunix.Proc
