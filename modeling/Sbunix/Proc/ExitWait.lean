import Mathlib.Data.BitVec
import Sbunix.Proc.Descriptors
import Sbunix.Proc.Lives

/-!
# Exit and wait

Runs of the machine with the list of children that `wait4` handed out. While
init is alive every process has a live parent, a zombie stays until it is
handed out, once, and the child times of a process are those of the children
handed to it. A `wait4` that cannot store the status is the exception: the
child is gone, and nobody was told.
-/

namespace Sbunix.Proc

open List Lib.Kern Lib

/-- A state of the machine and the children handed out so far. -/
abbrev Logged := Kernel × List Reap

def LStep (s : Logged) (l : Label) (s' : Logged) : Prop :=
  Step s.1 l s'.1 ∧ s'.2 = s.2 ++ (reapOf s.1 l).toList

def InitAlive (k : Kernel) : Prop := ∃ p ∈ k.procs, p.pid = k.initPid ∧ p.state ≠ .zombie

instance (k : Kernel) : Decidable (InitAlive k) :=
  inferInstanceAs (Decidable (∃ p ∈ k.procs, p.pid = k.initPid ∧ p.state ≠ .zombie))

/-- Not a `wait4` with a pointer for the status through which nothing can be stored. -/
def statusStorable : Label → Bool
  | .call (.wait4 _ _ (some false)) => false
  | _ => true

/-- Init is alive, and a `wait4` can store the status where it is told to. -/
def WaitOk (s : Logged) (l : Label) : Prop := InitAlive s.1 ∧ statusStorable l = true

instance (s : Logged) (l : Label) : Decidable (WaitOk s l) :=
  inferInstanceAs (Decidable (_ ∧ _))

/-- The user time of the children in the list that were handed to generation `g`. -/
def reapedUtime (h : List Reap) (g : ℕ) : BitVec 64 :=
  ((h.filter (·.parent.generation = g)).map fun r => r.child.utimeTicks + r.child.cutimeTicks).sum

/-- The system time of the children in the list that were handed to generation `g`. -/
def reapedStime (h : List Reap) (g : ℕ) : BitVec 64 :=
  ((h.filter (·.parent.generation = g)).map fun r => r.child.stimeTicks + r.child.cstimeTicks).sum

/-- A child handed out was a zombie of its parent, and the call told the parent so. -/
structure ReapOk (r : Reap) : Prop where
  zombie : r.child.state = .zombie
  parent : r.parent.state = .running ∧ r.child.parentPid = r.parent.pid
  pid : r.ret.1 = r.child.pid
  status : r.ret.2 = none ∨ r.ret.2 = some r.child.exitStatus

structure WaitInv (k : Kernel) (h : List Reap) : Prop extends Table k where
  init : k.initPid ≠ 0
  pos : ∀ p ∈ k.procs, 0 < p.pid
  gens : (k.procs.map Pcb.generation).Nodup
  seq : ∀ p ∈ k.procs, p.generation ≤ k.generationSeq
  parents : ∀ p ∈ k.procs, p.pid ≠ k.initPid → ∃ q ∈ k.procs, q.pid = p.parentPid ∧
    q.state ≠ .zombie
  reaps : ∀ r ∈ h, ReapOk r ∧ r.parent.generation ≤ k.generationSeq ∧
    r.child.generation ≤ k.generationSeq ∧ ∀ p ∈ k.procs, p.generation ≠ r.child.generation
  once : (h.map fun r => r.child.generation).Nodup
  times : ∀ p ∈ k.procs, p.cutimeTicks = reapedUtime h p.generation ∧
    p.cstimeTicks = reapedStime h p.generation

variable {l : Label} {pid : ℤ} {k k' : Kernel} {h : List Reap} {p c me z : Pcb}

theorem generations_eq {R : Pcb → Pcb → Prop} (hR : ∀ a b, R a b → b.generation = a.generation)
    {l l' : List Pcb} (hl : List.Forall₂ R l l') :
    l'.map Pcb.generation = l.map Pcb.generation := by
  induction hl with
  | nil => rfl
  | cons hd _ ih => rw [map_cons, map_cons, ih, hR _ _ hd]

theorem WaitInv.calm (hi : WaitInv k h) (ht : Table k') (hc : Calm k k') : WaitInv k' h where
  toTable := ht
  init := hc.initPid.trans_ne hi.init
  pos q hq := by
    obtain ⟨p, hp, hs⟩ := forall₂_mem hc.procs hq
    exact hs.pid ▸ hi.pos p hp
  gens := generations_eq (fun _ _ hs => SameLife.generation hs) hc.procs ▸ hi.gens
  seq q hq := by
    obtain ⟨p, hp, hs⟩ := forall₂_mem hc.procs hq
    exact hs.generation ▸ (hi.seq p hp).trans hc.generationSeq
  parents q hq hne := by
    obtain ⟨p, hp, hs⟩ := forall₂_mem hc.procs hq
    rw [hs.pid, hc.initPid] at hne
    obtain ⟨a, ha, hpid, hz⟩ := hi.parents p hp hne
    obtain ⟨b, hb, hab⟩ := forall₂_mem_left hc.procs ha
    exact ⟨b, hb, hab.pid.trans (hpid.trans hs.parentPid.symm), fun he => hz (hab.zombie.mp he)⟩
  reaps r hr := by
    obtain ⟨hok, h1, h2, h3⟩ := hi.reaps r hr
    refine ⟨hok, h1.trans hc.generationSeq, h2.trans hc.generationSeq, fun q hq => ?_⟩
    obtain ⟨p, hp, hs⟩ := forall₂_mem hc.procs hq
    exact hs.generation ▸ h3 p hp
  once := hi.once
  times q hq := by
    obtain ⟨p, hp, hs⟩ := forall₂_mem hc.procs hq
    rw [hs.cutime, hs.cstime, hs.generation]
    exact hi.times p hp

theorem reparentTo_init (hi : k.initPid ≠ 0) : reparentTo k = k.initPid := if_pos hi

theorem WaitInv.exits (hi : WaitInv k h) (ht : Table k') (halive : InitAlive k')
    (hx : Exits p k k') :
    WaitInv k' h where
  toTable := ht
  init := hx.initPid.trans_ne hi.init
  pos q hq := by
    obtain ⟨a, ha, hd⟩ := forall₂_mem hx.procs hq
    exact hd.pid ▸ hi.pos a ha
  gens := generations_eq (fun _ _ hd => Died.generation hd) hx.procs ▸ hi.gens
  seq q hq := by
    obtain ⟨a, ha, hd⟩ := forall₂_mem hx.procs hq
    exact hd.generation ▸ (hi.seq a ha).trans hx.generationSeq
  parents q hq hne := by
    obtain ⟨a, ha, hd⟩ := forall₂_mem hx.procs hq
    rw [hd.parentPid]
    by_cases hpar : a.parentPid = p.pid
    · rw [if_pos hpar, reparentTo_init hi.init]
      obtain ⟨i, himem, hpid, hz⟩ := halive
      exact ⟨i, himem, hpid.trans hx.initPid, hz⟩
    · rw [if_neg hpar]
      rw [hd.pid, hx.initPid] at hne
      obtain ⟨b, hb, hpid, hz⟩ := hi.parents a ha hne
      obtain ⟨b', hb', hbd⟩ := forall₂_mem_left hx.procs hb
      have hbp : b.pid ≠ p.pid := fun he => hpar (hpid.symm.trans he)
      exact ⟨b', hb', hbd.pid.trans hpid, fun he => hz ((hbd.others hbp).2.mp he)⟩
  reaps r hr := by
    obtain ⟨hok, h1, h2, h3⟩ := hi.reaps r hr
    refine ⟨hok, h1.trans hx.generationSeq, h2.trans hx.generationSeq, fun q hq => ?_⟩
    obtain ⟨a, ha, hd⟩ := forall₂_mem hx.procs hq
    exact hd.generation ▸ h3 a ha
  once := hi.once
  times q hq := by
    obtain ⟨a, ha, hd⟩ := forall₂_mem hx.procs hq
    rw [hd.cutime, hd.cstime, hd.generation]
    exact hi.times a ha

theorem reaped_fresh {g : ℕ} (hg : ∀ r ∈ h, r.parent.generation ≠ g) :
    reapedUtime h g = 0 ∧ reapedStime h g = 0 := by
  have hnil : h.filter (fun r => r.parent.generation = g) = [] :=
    filter_eq_nil_iff.mpr fun r hr => by simpa using hg r hr
  unfold reapedUtime reapedStime
  rw [hnil]
  exact ⟨rfl, rfl⟩

theorem WaitInv.forks (hi : WaitInv k h) (ht : Table k') (hp : p ∈ k.procs) (hs : p.state ≠ .zombie)
    (hf : Forks p c k k') : WaitInv k' h := by
  obtain ⟨l, hl, hprocs⟩ := hf.procs
  have hmem : ∀ q ∈ k'.procs, (∃ a ∈ k.procs, SameLife a q) ∨ q = c := by
    intro q hq
    rw [hprocs] at hq
    rcases mem_append.mp hq with hq | hq
    · exact .inl (forall₂_mem hl hq)
    · exact .inr (mem_singleton.mp hq)
  have hkept : ∀ a ∈ k.procs, ∃ b ∈ k'.procs, SameLife a b := by
    intro a ha
    obtain ⟨b, hb, hs⟩ := forall₂_mem_left hl ha
    exact ⟨b, hprocs ▸ mem_append_left _ hb, hs⟩
  have hseq := hf.generationSeq
  have hgen := hf.generation
  refine ⟨ht, hf.initPid.trans_ne hi.init, ?_, ?_, ?_, ?_, ?_, hi.once, ?_⟩
  · intro q hq
    rcases hmem q hq with ⟨a, ha, hs⟩ | rfl
    · exact hs.pid ▸ hi.pos a ha
    · exact hf.pid
  · rw [hprocs, map_append, generations_eq (fun _ _ hs => SameLife.generation hs) hl, nodup_append]
    refine ⟨hi.gens, nodup_singleton _, ?_⟩
    intro g hg g' hg' he
    obtain ⟨a, ha, rfl⟩ := mem_map.mp hg
    have := hi.seq a ha
    have hc : g' = c.generation := mem_singleton.mp hg'
    omega
  · intro q hq
    rcases hmem q hq with ⟨a, ha, hs⟩ | rfl
    · have := hi.seq a ha
      rw [hs.generation]
      omega
    · omega
  · intro q hq hne
    rcases hmem q hq with ⟨a, ha, hs⟩ | rfl
    · rw [hs.pid, hf.initPid] at hne
      obtain ⟨b, hb, hpid, hz⟩ := hi.parents a ha hne
      obtain ⟨b', hb', hbs⟩ := hkept b hb
      exact ⟨b', hb', hbs.pid.trans (hpid.trans hs.parentPid.symm), fun he => hz (hbs.zombie.mp he)⟩
    · obtain ⟨p', hp', hps⟩ := hkept p hp
      exact ⟨p', hp', hps.pid.trans hf.parentPid.symm, fun he => hs (hps.zombie.mp he)⟩
  · intro r hr
    obtain ⟨hok, h1, h2, h3⟩ := hi.reaps r hr
    refine ⟨hok, by omega, by omega, fun q hq => ?_⟩
    rcases hmem q hq with ⟨a, ha, hs⟩ | rfl
    · exact hs.generation ▸ h3 a ha
    · omega
  · intro q hq
    rcases hmem q hq with ⟨a, ha, hs⟩ | rfl
    · rw [hs.cutime, hs.cstime, hs.generation]
      exact hi.times a ha
    · obtain ⟨hu, hst⟩ := reaped_fresh (h := h) (g := q.generation) fun r hr => by
        have := (hi.reaps r hr).2.1
        omega
      exact ⟨hf.times.1.trans hu.symm, hf.times.2.trans hst.symm⟩

theorem reaped_append (h : List Reap) (r : Reap) (g : ℕ) :
    reapedUtime (h ++ [r]) g = reapedUtime h g +
      (if r.parent.generation = g then r.child.utimeTicks + r.child.cutimeTicks else 0) ∧
    reapedStime (h ++ [r]) g = reapedStime h g +
      (if r.parent.generation = g then r.child.stimeTicks + r.child.cstimeTicks else 0) := by
  unfold reapedUtime reapedStime
  simp only [filter_append, map_append, sum_append]
  by_cases hg : r.parent.generation = g <;> simp [hg]

theorem WaitInv.eq_of_generation (hi : WaitInv k h) {a b : Pcb} (ha : a ∈ k.procs)
    (hb : b ∈ k.procs)
    (hg : a.generation = b.generation) : a = b :=
  inj_on_of_nodup_map hi.gens ha hb hg

theorem WaitInv.reap (hi : WaitInv k h) (ht : Table k') (hme : me ∈ k.procs) (hz : z ∈ k.procs)
    {ret : ℤ × Option ℤ}
    (hok : ReapOk ⟨me, z, ret⟩) (hr : Reaps me z k k') : WaitInv k' (h ++ [⟨me, z, ret⟩]) := by
  have hmem : ∀ q ∈ k'.procs, ∃ a ∈ k.procs, a.pid ≠ z.pid ∧ Took me z a q := by
    intro q hq
    obtain ⟨a, ha, ht⟩ := forall₂_mem hr.procs hq
    exact ⟨a, (mem_filter.mp ha).1, by simpa using (mem_filter.mp ha).2, ht⟩
  have hkept : ∀ a ∈ k.procs, a.pid ≠ z.pid → ∃ b ∈ k'.procs, Took me z a b := by
    intro a ha hne
    exact forall₂_mem_left hr.procs (mem_filter.mpr ⟨ha, by simpa using hne⟩)
  refine ⟨ht, hr.initPid.trans_ne hi.init, ?_, ?_, ?_, ?_, ?_, ?_, ?_⟩
  · intro q hq
    obtain ⟨a, ha, -, ht⟩ := hmem q hq
    exact ht.pid ▸ hi.pos a ha
  · rw [generations_eq (fun _ _ ht => Took.generation ht) hr.procs]
    exact hi.gens.sublist (filter_sublist.map _)
  · intro q hq
    obtain ⟨a, ha, -, ht⟩ := hmem q hq
    rw [ht.generation, hr.generationSeq]
    exact hi.seq a ha
  · intro q hq hne
    obtain ⟨a, ha, -, ht⟩ := hmem q hq
    rw [ht.pid, hr.initPid] at hne
    obtain ⟨b, hb, hpid, hbz⟩ := hi.parents a ha hne
    -- the parent is alive, so it is not the zombie that goes
    have hbne : b.pid ≠ z.pid := fun he => hbz (hi.toTable.eq_of_pid hb hz he ▸ hok.zombie)
    obtain ⟨b', hb', hbt⟩ := hkept b hb hbne
    exact ⟨b', hb', hbt.pid.trans (hpid.trans ht.parentPid.symm), fun he => hbz (hbt.zombie.mp he)⟩
  · intro r hrm
    rcases mem_append.mp hrm with hrm | hrm
    · obtain ⟨hrok, h1, h2, h3⟩ := hi.reaps r hrm
      refine ⟨hrok, hr.generationSeq ▸ h1, hr.generationSeq ▸ h2, fun q hq => ?_⟩
      obtain ⟨a, ha, -, ht⟩ := hmem q hq
      exact ht.generation ▸ h3 a ha
    · obtain rfl := mem_singleton.mp hrm
      refine ⟨hok, hr.generationSeq ▸ hi.seq me hme, hr.generationSeq ▸ hi.seq z hz,
        fun q hq he => ?_⟩
      obtain ⟨a, ha, hne, ht⟩ := hmem q hq
      exact hne (congrArg Pcb.pid (hi.eq_of_generation ha hz (ht.generation.symm.trans he)))
  · rw [map_append, nodup_append]
    refine ⟨hi.once, nodup_singleton _, ?_⟩
    intro g hg g' hg' he
    obtain ⟨r, hrm, rfl⟩ := mem_map.mp hg
    have hz' : g' = z.generation := mem_singleton.mp hg'
    exact (hi.reaps r hrm).2.2.2 z hz (hz'.symm.trans he.symm)
  · intro q hq
    obtain ⟨a, ha, -, ht⟩ := hmem q hq
    obtain ⟨hu, hst⟩ := reaped_append h ⟨me, z, ret⟩ q.generation
    obtain ⟨hau, hast⟩ := hi.times a ha
    have hiff : me.generation = q.generation ↔ a.pid = me.pid := by
      rw [ht.generation]
      constructor
      · intro he
        rw [hi.eq_of_generation hme ha he]
      · intro he
        rw [hi.toTable.eq_of_pid ha hme he]
    rw [hu, hst, ht.cutime, ht.cstime, ht.generation, ← hau, ← hast]
    simp only [ht.generation] at hiff
    simp only [hiff]
    split <;> simp

theorem WaitInv.no_orphan (hi : WaitInv k h) (halive : InitAlive k) (hz : z ∈ k.procs)
    (hzombie : z.state = .zombie) (hparent : z.parentPid = 0) : False := by
  have hne : z.pid ≠ k.initPid := by
    intro he
    obtain ⟨i, hmem, hpid, hs⟩ := halive
    rw [hi.toTable.eq_of_pid hmem hz (hpid.trans he.symm)] at hs
    exact hs hzombie
  obtain ⟨q, hq, hpid, -⟩ := hi.parents z hz hne
  have := hi.pos q hq
  omega

variable {o : Option Reap} {q : Pcb}

theorem WaitInv.seq_le (hi : WaitInv k h) (halive : InitAlive k)
    (he : Effect k o k') : k.generationSeq ≤ k'.generationSeq := by
  cases he with
  | calm hc => exact hc.generationSeq
  | exits _ _ hx => exact hx.generationSeq
  | forks _ _ hf => exact hf.generationSeq ▸ Nat.le_succ _
  | reaps _ _ _ _ _ _ hr => exact hr.generationSeq.ge
  | orphan hz hzombie hparent _ => exact (hi.no_orphan halive hz hzombie hparent).elim

theorem WaitInv.effect (hi : WaitInv k h) (ht : Table k') (halive : InitAlive k)
    (halive' : InitAlive k')
    (hret : ∀ r ∈ o, r.ret.1 = r.child.pid ∧
      (r.ret.2 = none ∨ r.ret.2 = some r.child.exitStatus)) (he : Effect k o k') :
    WaitInv k' (h ++ o.toList) := by
  cases he with
  | calm hc => simpa using hi.calm ht hc
  | exits hp hs hx => simpa using hi.exits ht halive' hx
  | forks hp hs hf => simpa using hi.forks ht hp hs hf
  | reaps ret hme hs hz hzombie hparent hr =>
    obtain ⟨hpid, hstatus⟩ := hret _ rfl
    exact hi.reap ht (currentProc_mem hme).1 hz ⟨hzombie, ⟨hs, hparent⟩, hpid, hstatus⟩ hr
  | orphan hz hzombie hparent _ =>
    exact (hi.no_orphan halive hz hzombie hparent).elim

theorem reapOf_ret (hok : statusStorable l = true) :
    ∀ r ∈ reapOf k l, r.ret.1 = r.child.pid ∧
      (r.ret.2 = none ∨ r.ret.2 = some r.child.exitStatus) := by
  intro r hr
  cases l with
  | call c =>
    cases c with
    | wait4 pid options ustatus =>
      change reapResult ustatus k.currentProc _ = some r at hr
      unfold reapResult at hr
      split at hr
      · cases hr
        rcases ustatus with _ | _ | _
        · exact ⟨rfl, .inl rfl⟩
        · cases hok
        · exact ⟨rfl, .inr rfl⟩
      · cases hr
    | _ => cases hr
  | _ => cases hr

theorem step_table (ht : Table k) (hstep : Step k l k') : Table k' := by
  have hall : TableAll (fun _ => True) k := ⟨ht, fun _ _ => trivial⟩
  have hlocal : Local (fun _ => True) :=
    ⟨⟨fun _ h => h, fun _ h => h⟩, fun _ h => h, fun _ _ h => h⟩
  exact (step_keeps hlocal (fun _ _ h => h) hall hstep).toTable

/-! ### Zombies stay until they are handed out -/

/-- The zombie `z` is still in the table, or has been handed out. -/
def StillThere (z : Pcb) (s : Logged) : Prop :=
  (∃ z' ∈ s.1.procs, z'.generation = z.generation ∧ z'.pid = z.pid ∧
    z'.exitStatus = z.exitStatus ∧ z'.state = .zombie) ∨
  ∃ r ∈ s.2, r.child.generation = z.generation ∧ r.child.pid = z.pid ∧
    r.child.exitStatus = z.exitStatus

theorem StillThere.effect (hi : WaitInv k h) (halive : InitAlive k)
    (hz : StillThere z (k, h)) (he : Effect k o k') : StillThere z (k', h ++ o.toList) := by
  rcases hz with ⟨a, ha, hg, hp, hst, hs⟩ | ⟨r, hr, hrest⟩
  swap
  · exact .inr ⟨r, mem_append_left _ hr, hrest⟩
  have hsame : ∀ b ∈ k'.procs, SameLife a b → StillThere z (k', h ++ o.toList) := fun b hb hab =>
    .inl ⟨b, hb, hab.generation.trans hg, hab.pid.trans hp, hab.exitStatus.trans hst,
      hab.zombie.mpr hs⟩
  cases he with
  | calm hc =>
    obtain ⟨b, hb, hab⟩ := forall₂_mem_left hc.procs ha
    exact hsame b hb hab
  | @exits p _ hpm hps hx =>
    obtain ⟨b, hb, hd⟩ := forall₂_mem_left hx.procs ha
    have hne : a.pid ≠ p.pid := fun he => hps (hi.toTable.eq_of_pid ha hpm he ▸ hs)
    obtain ⟨hst', hz'⟩ := hd.others hne
    exact .inl ⟨b, hb, hd.generation.trans hg, hd.pid.trans hp, hst'.trans hst, hz'.mpr hs⟩
  | forks _ _ hf =>
    obtain ⟨l, hl, hprocs⟩ := hf.procs
    obtain ⟨b, hb, hab⟩ := forall₂_mem_left hl ha
    exact hsame b (hprocs ▸ mem_append_left _ hb) hab
  | @reaps me w _ ret _ _ hw _ _ hr =>
    by_cases hne : a.pid = w.pid
    · obtain rfl := hi.toTable.eq_of_pid ha hw hne
      exact .inr ⟨⟨me, a, ret⟩, by simp, hg, hp, hst⟩
    · obtain ⟨b, hb, ht⟩ := forall₂_mem_left hr.procs (mem_filter.mpr ⟨ha, by simpa using hne⟩)
      exact .inl ⟨b, hb, ht.generation.trans hg, ht.pid.trans hp, ht.exitStatus.trans hst,
        ht.zombie.mpr hs⟩
  | orphan hw hzombie hparent _ => exact (hi.no_orphan halive hw hzombie hparent).elim

/-! ### Parents -/

/-- The parent of `p` is still `q`, or `q` has exited and it is init. -/
def ParentOrInit (p q : Pcb) (k : Kernel) : Prop :=
  ∀ p' ∈ k.procs, p'.generation = p.generation →
    (p'.parentPid = q.pid ∧ ∃ q' ∈ k.procs, q'.generation = q.generation ∧ q'.pid = q.pid ∧
      q'.state ≠ .zombie) ∨
    (p'.parentPid = k.initPid ∧ ∀ q' ∈ k.procs, q'.generation = q.generation → q'.state = .zombie)

theorem ParentOrInit.exits {p x : Pcb} (hi : WaitInv k h) (halive' : InitAlive k')
    (hxm : x ∈ k.procs) (hx : Exits x k k') (hpq : ParentOrInit p q k) : ParentOrInit p q k' := by
  intro p' hp' hg
  obtain ⟨a, ha, hd⟩ := forall₂_mem hx.procs hp'
  rcases hpq a ha (hd.generation.symm.trans hg) with ⟨hpar, q₀, hq₀, hqg, hqp, hqs⟩ | ⟨hpar, hdead⟩
  · by_cases hqx : q.pid = x.pid
    · -- the parent exits
      obtain rfl := hi.toTable.eq_of_pid hq₀ hxm (hqp.trans hqx)
      refine .inr ⟨?_, fun q' hq' hg' => ?_⟩
      · rw [hd.parentPid, if_pos (hpar.trans hqx), reparentTo_init hi.init, hx.initPid]
      · obtain ⟨b, hb, hbd⟩ := forall₂_mem hx.procs hq'
        refine hbd.dead (congrArg Pcb.pid (hi.eq_of_generation hb hq₀ ?_))
        exact hbd.generation.symm.trans (hg'.trans hqg.symm)
    · obtain ⟨b, hb, hbd⟩ := forall₂_mem_left hx.procs hq₀
      have hne : q₀.pid ≠ x.pid := fun he => hqx (hqp.symm.trans he)
      refine .inl ⟨?_, b, hb, hbd.generation.trans hqg, hbd.pid.trans hqp,
        fun he => hqs ((hbd.others hne).2.mp he)⟩
      rw [hd.parentPid, if_neg fun he => hqx (hpar.symm.trans he)]
      exact hpar
  · have hne : k.initPid ≠ x.pid := by
      intro he
      obtain ⟨i, him, hipid, his⟩ := halive'
      obtain ⟨b, hb, hbd⟩ := forall₂_mem hx.procs him
      refine his (hbd.dead ?_)
      rw [← hbd.pid, hipid, hx.initPid, he]
    refine .inr ⟨?_, fun q' hq' hg' => ?_⟩
    · rw [hd.parentPid, if_neg fun he => hne (hpar.symm.trans he), hx.initPid]
      exact hpar
    · obtain ⟨b, hb, hbd⟩ := forall₂_mem hx.procs hq'
      by_cases hbx : b.pid = x.pid
      · exact hbd.dead hbx
      · exact (hbd.others hbx).2.mpr (hdead b hb (hbd.generation.symm.trans hg'))

theorem ParentOrInit.effect {p : Pcb} (hi : WaitInv k h) (halive : InitAlive k)
    (halive' : InitAlive k') (hpseq : p.generation ≤ k.generationSeq)
    (hqseq : q.generation ≤ k.generationSeq) (hpq : ParentOrInit p q k) (he : Effect k o k') :
    ParentOrInit p q k' := by
  -- a process that changes neither its parent nor its state passes on what is known
  have hkeep : ∀ {R : Pcb → Pcb → Prop}, (∀ a b, R a b → b.pid = a.pid ∧
    b.generation = a.generation ∧
      b.parentPid = a.parentPid ∧ (b.state = .zombie ↔ a.state = .zombie)) →
        k'.initPid = k.initPid →
      (∀ b ∈ k'.procs, (∃ a ∈ k.procs, R a b) ∨ k.generationSeq < b.generation) →
      (∀ a ∈ k.procs, a.state ≠ .zombie → ∃ b ∈ k'.procs, R a b) → ParentOrInit p q k' := by
    intro R hR hinit hfrom hto p' hp' hg
    rcases hfrom p' hp' with ⟨a, ha, hap⟩ | hlt
    swap
    · omega
    obtain ⟨-, hag, hapar, -⟩ := hR a p' hap
    rcases hpq a ha (hag.symm.trans hg) with ⟨hpar, q₀, hq₀, hqg, hqp, hqs⟩ | ⟨hpar, hdead⟩
    · obtain ⟨b, hb, hqb⟩ := hto q₀ hq₀ hqs
      obtain ⟨hbp, hbg, -, hbz⟩ := hR q₀ b hqb
      exact .inl ⟨hapar.trans hpar, b, hb, hbg.trans hqg, hbp.trans hqp, fun he => hqs (hbz.mp he)⟩
    · refine .inr ⟨hapar.trans (hpar.trans hinit.symm), fun q' hq' hg' => ?_⟩
      rcases hfrom q' hq' with ⟨b, hb, hbq⟩ | hlt
      · obtain ⟨-, hbg, -, hbz⟩ := hR b q' hbq
        exact hbz.mpr (hdead b hb (hbg.symm.trans hg'))
      · omega
  cases he with
  | calm hc =>
    exact hkeep (R := SameLife) (fun _ _ hs => ⟨hs.pid, hs.generation, hs.parentPid, hs.zombie⟩)
      hc.initPid
      (fun b hb => .inl (forall₂_mem hc.procs hb)) fun a ha _ => forall₂_mem_left hc.procs ha
  | exits hxm hxs hx => exact hpq.exits hi halive' hxm hx
  | forks _ _ hf =>
    obtain ⟨l, hl, hprocs⟩ := hf.procs
    refine hkeep (R := SameLife) (fun _ _ hs => ⟨hs.pid, hs.generation, hs.parentPid, hs.zombie⟩)
      hf.initPid ?_ ?_
    · intro b hb
      rw [hprocs] at hb
      rcases mem_append.mp hb with hb | hb
      · exact .inl (forall₂_mem hl hb)
      · have := hf.generation
        rw [mem_singleton.mp hb]
        exact .inr (by omega)
    · intro a ha _
      obtain ⟨b, hb, hab⟩ := forall₂_mem_left hl ha
      exact ⟨b, hprocs ▸ mem_append_left _ hb, hab⟩
  | @reaps me w _ ret _ _ hw hws _ hr =>
    refine hkeep (R := Took me w) (fun _ _ ht => ⟨ht.pid, ht.generation, ht.parentPid, ht.zombie⟩)
      hr.initPid ?_ ?_
    · intro b hb
      obtain ⟨a, ha, hab⟩ := forall₂_mem hr.procs hb
      exact .inl ⟨a, (mem_filter.mp ha).1, hab⟩
    · intro a ha hs
      have hne : a.pid ≠ w.pid := fun he => hs (hi.toTable.eq_of_pid ha hw he ▸ hws)
      exact forall₂_mem_left hr.procs (mem_filter.mpr ⟨ha, by simpa using hne⟩)
  | orphan hw hzombie hparent _ => exact (hi.no_orphan halive hw hzombie hparent).elim

/-! ### A zombie can be reaped -/

theorem closeLoop_returns {ofile : ℕ → Option ℕ} {i n : ℕ}
    (hk : FdInv (fun f => (slotsAt ofile f i n : ℤ)) none k) :
    ∃ k', Kern.loop (fun fd => match ofile fd with
      | none => pure ()
      | some f => fileclose f) i n k = (some (), k') := by
  induction n generalizing i k with
  | zero => exact ⟨k, rfl⟩
  | succ n ih =>
    have hsum : (fun f => (slotsAt ofile f i (n + 1) : ℤ)) =
        points (ofile i) + fun f => (slotsAt ofile f (i + 1) n : ℤ) := by
      funext f
      exact slotsAt_succ ofile f i n
    rw [hsum] at hk
    rcases ho : ofile i with _ | f
    · rw [ho, points_none, zero_add] at hk
      obtain ⟨k', he⟩ := ih hk
      refine ⟨k', ?_⟩
      change (_ >>= fun _ => _ : Kern Kernel Unit) k = _
      simp only [ho]
      rw [bind_some (pure_apply () k)]
      exact he
    · -- the slot holds a reference, so the count is positive
      have hpos : ¬ (k.ftable f).refcnt < 1 := by
        have := hk.balance f
        simp only [ho, Pi.add_apply, points, if_true] at this
        omega
      obtain ⟨k₁, hclose⟩ : ∃ k₁, fileclose f k = (some (), k₁) := by
        unfold fileclose
        simp only [hpos, if_false]
        exact ⟨_, rfl⟩
      have hk₁ := fileclose_fd hk hclose
      rw [ho, add_sub_cancel_left] at hk₁
      obtain ⟨k', he⟩ := ih hk₁
      refine ⟨k', ?_⟩
      change (_ >>= fun _ => _ : Kern Kernel Unit) k = _
      simp only [ho]
      rw [bind_some hclose]
      exact he

theorem zombie_reapable (hi : WaitInv k h) (hfd : FdInv 0 none k) (hz : z ∈ k.procs)
    (hzombie : z.state = .zombie) (hq : k.currentProc = some q) (hs : q.state = .running)
    (hparent : q.pid = z.parentPid) (options : BitVec 32) :
    ∃ k', wait4Pass z.pid options k = (some (.reaped z), k') := by
  have hne : z.pid ≠ q.pid := by
    intro he
    rw [hi.toTable.eq_current hq hz he, hs] at hzombie
    cases hzombie
  have hfind : k.procs.find? (fun p => waitable q z.pid p && reportable options p) = some z := by
    have hpos := hi.pos z hz
    rcases hf : k.procs.find? (fun p => waitable q z.pid p && reportable options p) with _ | p
    · have := find?_eq_none.mp hf z hz
      simp [waitable, wait4Match, reportable, hparent, hpos, hzombie] at this
    · have := find?_some hf
      simp only [waitable, wait4Match, hpos, if_true, Bool.and_eq_true, decide_eq_true_eq] at this
      rw [hi.toTable.eq_of_pid (mem_of_find?_eq_some hf) hz this.1.2]
  unfold wait4Pass
  rw [get_bind]
  simp only [hq, hfind]
  unfold wait4Take
  rw [if_pos hzombie, modify_bind]
  have hz' : z ∈ (k.modify q.pid z.absorb).procs := Kernel.mem_modify.mpr ⟨z, hz, if_neg hne⟩
  have hfd' : FdInv 0 none (k.modify q.pid z.absorb) :=
    hfd.modify_same fun _ => SameFd.of_state rfl rfl rfl rfl
  have hremoved : FdInv (0 + fun f => (z.slots f : ℤ)) none { k.modify q.pid z.absorb with
      procs := (k.modify q.pid z.absorb).procs.filter (·.pid ≠ z.pid) } := hfd'.remove hz' rfl rfl
  rw [zero_add] at hremoved
  obtain ⟨k', hclose⟩ := closeLoop_returns hremoved
  have hdestroy : procDestroy z (k.modify q.pid z.absorb) = (some (), k') := by
    unfold procDestroy
    rw [get_bind, Kern.ite_apply, if_neg, modify_bind]
    · exact hclose
    · rw [Kernel.modify_current, (currentProc_mem hq).2]
      exact fun he => hne (Option.some.inj he).symm
  exact ⟨k', bind_some hdestroy⟩

/-! ### Runs -/

def RunInv (s : Logged) : Prop := Table s.1 ∧ FdInv 0 none s.1 ∧ (InitAlive s.1 → WaitInv s.1 s.2)

variable {s s' : Logged}

theorem lstep_inv (hi : RunInv s) (hok : WaitOk s l) (hstep : LStep s l s') : RunInv s' := by
  obtain ⟨ht, hfd, hw⟩ := hi
  obtain ⟨hstep, hlog⟩ := hstep
  have ht' := step_table ht hstep
  refine ⟨ht', step_fd hfd hstep, fun halive' => ?_⟩
  rw [hlog]
  exact (hw hok.1).effect ht' hok.1 halive' (reapOf_ret hok.2) (step_effect ht hstep)

theorem boot_runInv (hpid : 0 < pid) (entry sp : BitVec 64) :
    RunInv (bootKernel pid entry sp, []) := by
  have hboot := boot_fd pid entry sp
  refine ⟨hboot.toTable, hboot, fun _ => ?_⟩
  exact {
    toTable := hboot.toTable
    init := hpid.ne'
    pos := by
      intro p hp
      obtain rfl := mem_singleton.mp hp
      exact hpid
    gens := nodup_singleton _
    seq := by
      intro p hp
      obtain rfl := mem_singleton.mp hp
      exact le_rfl
    parents := by
      intro p hp hne
      obtain rfl := mem_singleton.mp hp
      exact absurd rfl hne
    reaps := fun r hr => absurd hr not_mem_nil
    once := nodup_nil
    times := by
      intro p hp
      obtain rfl := mem_singleton.mp hp
      exact ⟨rfl, rfl⟩ }

theorem run_inv (hpid : 0 < pid) {entry sp : BitVec 64}
    (h : Reaches LStep WaitOk (bootKernel pid entry sp, []) s) : RunInv s :=
  h.invariant (boot_runInv hpid entry sp) fun _ _ _ => lstep_inv

theorem run_later (hs : RunInv s) (hinit : InitAlive s.1)
    (hrun : Reaches LStep WaitOk s s') (hinit' : InitAlive s'.1) :
    (∀ z ∈ s.1.procs, z.state = .zombie → StillThere z s') ∧
    ∀ p ∈ s.1.procs, p.pid ≠ s.1.initPid → ∀ q ∈ s.1.procs, q.pid = p.parentPid →
      ParentOrInit p q s'.1 := by
  have hw := hs.2.2 hinit
  have hinv : RunInv s' ∧ s.1.generationSeq ≤ s'.1.generationSeq ∧ (InitAlive s'.1 →
      (∀ z ∈ s.1.procs, z.state = .zombie → StillThere z s') ∧
      ∀ p ∈ s.1.procs, p.pid ≠ s.1.initPid → ∀ q ∈ s.1.procs, q.pid = p.parentPid →
        ParentOrInit p q s'.1) := by
    refine hrun.invariant (I := fun t => RunInv t ∧ s.1.generationSeq ≤ t.1.generationSeq ∧
      (InitAlive t.1 → (∀ z ∈ s.1.procs, z.state = .zombie → StillThere z t) ∧
        ∀ p ∈ s.1.procs, p.pid ≠ s.1.initPid → ∀ q ∈ s.1.procs, q.pid = p.parentPid →
          ParentOrInit p q t.1)) ⟨hs, le_rfl, fun _ => ⟨fun z hz hzs => ?_, ?_⟩⟩ ?_
    · exact .inl ⟨z, hz, rfl, rfl, rfl, hzs⟩
    · intro p hp hne q hq hpar p' hp' hg
      obtain rfl := hw.eq_of_generation hp' hp hg
      obtain ⟨q', hq', hpid, hlive⟩ := hw.parents p' hp hne
      obtain rfl := hw.toTable.eq_of_pid hq hq' (hpar.trans hpid.symm)
      exact .inl ⟨hpar.symm, q, hq, rfl, rfl, hlive⟩
    · rintro t l t' ⟨ht, hseq, hrest⟩ hok hstep
      have heff := step_effect ht.1 hstep.1
      have htw := ht.2.2 hok.1
      refine ⟨lstep_inv ht hok hstep, hseq.trans (htw.seq_le hok.1 heff), fun halive' => ?_⟩
      obtain ⟨hz, hp⟩ := hrest hok.1
      refine ⟨fun z hzm hzs => ?_, fun p hpm hne q hq hpar => ?_⟩
      · have := (hz z hzm hzs).effect htw hok.1 heff
        rwa [← hstep.2] at this
      · exact (hp p hpm hne q hq hpar).effect htw hok.1 halive' ((hw.seq p hpm).trans hseq)
          ((hw.seq q hq).trans hseq) heff
  exact hinv.2.2 hinit'

/-- While init is alive, and as long as every `wait4` can store the status: every
other process has a live parent; the child times of a process are those of the
children handed to it; what was handed out was a zombie of the caller, with its
pid and status; a zombie is handed to its parent on demand, and until then stays
in the table; nothing is handed out twice; and the parent of a process changes to
init when it exits, and not otherwise. -/
theorem exit_wait_bookkeeping (pid : ℤ) (hpid : 0 < pid) (entry sp : BitVec 64) (k : Kernel)
    (h : List Reap) (hrun : Reaches LStep WaitOk (bootKernel pid entry sp, []) (k, h))
    (hinit : InitAlive k) :
    (∀ p ∈ k.procs, p.pid ≠ k.initPid → ∃ q ∈ k.procs, q.pid = p.parentPid ∧ q.state ≠ .zombie) ∧
    (∀ p ∈ k.procs, p.cutimeTicks = reapedUtime h p.generation ∧
      p.cstimeTicks = reapedStime h p.generation) ∧
    (∀ r ∈ h, ReapOk r) ∧
    (∀ p, k.currentProc = some p → ∀ status k', Step k (.call (.exit status)) k' →
      ∃ z ∈ k'.procs, z.generation = p.generation ∧ z.state = .zombie ∧ z.exitStatus = status) ∧
    (∀ z ∈ k.procs, z.state = .zombie → ∀ q, k.currentProc = some q → q.state = .running →
      q.pid = z.parentPid → ∀ options, ∃ k', wait4Pass z.pid options k = (some (.reaped z), k')) ∧
    ∀ k' h', Reaches LStep WaitOk (k, h) (k', h') → InitAlive k' →
      (∀ z ∈ k.procs, z.state = .zombie →
        ((∃ z' ∈ k'.procs, z'.generation = z.generation ∧ z'.pid = z.pid ∧
            z'.exitStatus = z.exitStatus ∧ z'.state = .zombie) ∧
          (h'.map fun r => r.child.generation).count z.generation = 0) ∨
        ((∃ r ∈ h', r.child.generation = z.generation ∧ r.child.pid = z.pid ∧
            r.child.exitStatus = z.exitStatus) ∧
          (h'.map fun r => r.child.generation).count z.generation = 1)) ∧
      ∀ p ∈ k.procs, p.pid ≠ k.initPid → ∀ q ∈ k.procs, q.pid = p.parentPid →
        ParentOrInit p q k' := by
  have hs : RunInv (k, h) := run_inv hpid hrun
  have hw : WaitInv k h := hs.2.2 hinit
  refine ⟨hw.parents, hw.times, fun r hr => (hw.reaps r hr).1, ?_, ?_, ?_⟩
  · intro p hp status k' hstep
    obtain ⟨q, hq, hrunning, -⟩ := hstep.1
    cases hp.symm.trans hq
    obtain ⟨gone, hexit⟩ := discard_eq_some hstep.2
    exact (exit_exits hp hrunning hexit).2.2
  · intro z hz hzombie q hq hrunning hparent options
    exact zombie_reapable hw hs.2.1 hz hzombie hq hrunning hparent options
  · intro k' h' hlater hinit'
    obtain ⟨hzombies, hparents⟩ := run_later hs hinit hlater hinit'
    have hw' : WaitInv k' h' := (run_inv hpid (hrun.trans hlater)).2.2 hinit'
    refine ⟨fun z hz hzombie => ?_, hparents⟩
    rcases hzombies z hz hzombie with ⟨z', hz', hg, hrest⟩ | ⟨r, hr, hg, hrest⟩
    · refine .inl ⟨⟨z', hz', hg, hrest⟩, count_eq_zero.mpr fun hmem => ?_⟩
      obtain ⟨r, hr, hrg⟩ := mem_map.mp hmem
      exact (hw'.reaps r hr).2.2.2 z' hz' (hg.trans hrg.symm)
    · exact .inr ⟨⟨r, hr, hg, hrest⟩, count_eq_one_of_mem hw'.once (mem_map.mpr ⟨r, hr, hg⟩)⟩

/-- Carry out labels under the condition, and note the children handed out. -/
def runLogged : List Label → Logged → Option Logged
  | [], s => some s
  | l :: ls, s =>
    if WaitOk s l then
      (runLabels [l] s.1).bind fun k' => runLogged ls (k', s.2 ++ (reapOf s.1 l).toList)
    else none

theorem runLogged_reaches {ls : List Label} (h : runLogged ls s = some s') :
    Reaches LStep WaitOk s s' := by
  induction ls generalizing s with
  | nil =>
    cases h
    exact .refl
  | cons l ls ih =>
    unfold runLogged at h
    split at h
    · next hok =>
      obtain ⟨k₁, h1, h2⟩ := Option.bind_eq_some_iff.mp h
      have hfirst : LStep s l (k₁, s.2 ++ (reapOf s.1 l).toList) := ⟨runLabels_single h1, rfl⟩
      exact (Reaches.single hok hfirst).trans (ih h2)
    · cases h

def forkAndExit : List Label :=
  [.dispatch 1, .enter fun _ => 0x10000, .call (.fork .ok), .call .yield, .dispatch 2,
    .enter fun _ => 0x10000, .tick false, .call (.exit 7), .dispatch 1]

theorem exit_wait_one_child : ∃ k h, runLogged (forkAndExit ++ [.call (.wait4 (-1) 0 (some true))])
        (bootKernel 1 0x10000 0x20000, []) = some (k, h) ∧
      h.map (fun r => (r.child.pid, r.ret)) = [(2, (2, some 7))] ∧
      ∀ p ∈ k.procs, p.cutimeTicks = reapedUtime h p.generation ∧
        p.cstimeTicks = reapedStime h p.generation := by
  have hrun : (runLogged (forkAndExit ++ [.call (.wait4 (-1) 0 (some true))])
      (bootKernel 1 0x10000 0x20000, [])).any (fun s => InitAlive s.1 ∧
        s.2.map (fun r => (r.child.pid, r.ret)) = [(2, (2, some 7))]) = true := by decide +kernel
  obtain ⟨⟨k, h⟩, hk, hend⟩ := (Option.any_eq_true _ _).mp hrun
  obtain ⟨hinit, hret⟩ := of_decide_eq_true hend
  exact ⟨k, h, hk, hret, (exit_wait_bookkeeping 1 (by decide) 0x10000 0x20000 k h
    (runLogged_reaches hk) hinit).2.1⟩

/-- The parent waits with a status pointer that cannot be written: the zombie is
gone, and the call returned an error in place of its pid. -/
theorem wait4_bad_pointer_loses_child :
    ∃ k k', runLabels forkAndExit (bootKernel 1 0x10000 0x20000) = some k ∧
      Step k (.call (.wait4 (-1) 0 (some false))) k' ∧ InitAlive k' ∧
      ∃ z ∈ k.procs, z.pid = 2 ∧ z.parentPid = 1 ∧ z.state = .zombie ∧ z.exitStatus = 7 ∧
        (∀ p ∈ k'.procs, p.generation ≠ z.generation) ∧
        ∃ r, reapOf k (.call (.wait4 (-1) 0 (some false))) = some r ∧
          r.child.generation = z.generation ∧ r.ret = (-EFAULT, none) := by
  have hrun : (runLabels forkAndExit (bootKernel 1 0x10000 0x20000)).any (fun k =>
      (runLabels [.call (.wait4 (-1) 0 (some false))] k).any fun k' =>
        decide (InitAlive k') && k.procs.any fun z =>
          decide (z.pid = 2 ∧ z.parentPid = 1 ∧ z.state = .zombie ∧ z.exitStatus = 7 ∧
            (∀ p ∈ k'.procs, p.generation ≠ z.generation)) &&
          (reapOf k (.call (.wait4 (-1) 0 (some false)))).any fun r =>
            decide (r.child.generation = z.generation ∧ r.ret = (-EFAULT, none))) = true := by
    decide +kernel
  obtain ⟨k, hk, hk2⟩ := (Option.any_eq_true _ _).mp hrun
  obtain ⟨k', hk', hend⟩ := (Option.any_eq_true _ _).mp hk2
  rw [Bool.and_eq_true, any_eq_true] at hend
  obtain ⟨hinit, z, hz, hz2⟩ := hend
  rw [Bool.and_eq_true] at hz2
  obtain ⟨h1, h2, h3, h4, h5⟩ := of_decide_eq_true hz2.1
  obtain ⟨r, hr, hr2⟩ := (Option.any_eq_true _ _).mp hz2.2
  exact ⟨k, k', hk, runLabels_single hk', of_decide_eq_true hinit, z, hz, h1, h2, h3, h4, h5, r, hr,
    of_decide_eq_true hr2⟩

end Sbunix.Proc
