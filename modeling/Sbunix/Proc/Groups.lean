import Sbunix.Proc.Moves

/-!
# Process groups and sessions

A process group lies within one session. `setpgid` and `setsid` compare the ids
of the processes in the table, so the invariant is about the leader as well: a
process whose group is named after a process in the table is in its session.
`alloc_proc` skips the pids in use and not the group ids in use; a fork keeps
the invariant as long as it does not hand out the id of a group that has lost
its leader.
-/

namespace Sbunix.Proc

open List Lib.Kern Lib

/-- Processes of one group are in one session, and in the session of the process
that the group is named after. -/
structure Grouped (k : Kernel) : Prop where
  session : ∀ p ∈ k.procs, ∀ q ∈ k.procs, p.pgid = q.pgid → p.sid = q.sid
  leader : ∀ p ∈ k.procs, ∀ q ∈ k.procs, p.pgid = q.pid → p.sid = q.sid

/-- Some free pid comes before `g` when the search starts at `next_pid`. -/
def passedOver (k : Kernel) (g : ℤ) : Prop :=
  ∃ c, 0 < c ∧ c ≤ INT_MAX ∧ k.nextPid ≤ c ∧ (c < g ∨ g < k.nextPid) ∧ pidTaken k c = false

/-- A fork does not reach the id of a group without its leader. -/
def groupsLed (k : Kernel) : Label → Prop
  | .call (.fork _) => ∀ p ∈ k.procs, pidTaken k p.pgid = true ∨ passedOver k p.pgid
  | _ => True

variable {W : Powers} {pid : ℤ} {k k' : Kernel}

theorem Grouped.sameIds (h : Grouped k) (hmem : ∀ q ∈ k'.procs, ∃ p ∈ k.procs, SameIds p q) :
    Grouped k' where
  session p hp q hq he := by
    obtain ⟨p₀, hp₀, ep⟩ := hmem p hp
    obtain ⟨q₀, hq₀, eq⟩ := hmem q hq
    rw [← ep.sid, ← eq.sid]
    exact h.session p₀ hp₀ q₀ hq₀ (by rw [ep.pgid, eq.pgid, he])
  leader p hp q hq he := by
    obtain ⟨p₀, hp₀, ep⟩ := hmem p hp
    obtain ⟨q₀, hq₀, eq⟩ := hmem q hq
    rw [← ep.sid, ← eq.sid]
    exact h.leader p₀ hp₀ q₀ hq₀ (by rw [ep.pgid, eq.pid, he])

theorem Grouped.of_procs (h : Grouped k) (hprocs : k'.procs = k.procs) : Grouped k' :=
  ⟨hprocs ▸ h.session, hprocs ▸ h.leader⟩

/-! ### Steps that move nobody -/

theorem Move.sameIds (hr : ¬ W.regroups) (h : Move W k k') :
    ∀ q ∈ k'.procs, ∃ p ∈ k.procs, SameIds p q := by
  cases h with
  | atom ha => exact ha.steady.mem
  | job _ _ _ hreg | fork _ _ _ _ _ _ hreg => exact absurd hreg hr
  | dispatch pid _ _ _ =>
    intro q hq
    obtain ⟨p, hp, rfl⟩ := Kernel.mem_modify.mp hq
    refine ⟨p, hp, ?_⟩
    split <;> exact ⟨rfl, rfl, rfl⟩
  | release => exact fun q hq => ⟨q, hq, .refl q⟩

theorem Grouped.moves (h : Grouped k) (hr : ¬ W.regroups) (hm : Moves W k k') : Grouped k' :=
  hm.invariant h fun _ _ hk hmove => hk.sameIds (hmove.sameIds hr)

/-! ### `setpgid` and `setsid` -/

/-- A process may join a group if the group's members and the process it is named
after are in its session. -/
theorem Grouped.join (h : Grouped k) {p : Pcb} {g : ℤ}
    (hmember : ∀ q ∈ k.procs, q.pgid = g → q.sid = p.sid)
    (hleader : ∀ q ∈ k.procs, q.pid = g → q.sid = p.sid)
    (hone : ∀ q ∈ k.procs, q.pid = p.pid → q = p) :
    Grouped (k.modify p.pid fun q => { q with pgid := g }) := by
  have hmem : ∀ q ∈ (k.modify p.pid fun q => { q with pgid := g }).procs,
      ∃ q₀ ∈ k.procs, q.pid = q₀.pid ∧ q.sid = q₀.sid ∧
        (q.pgid = q₀.pgid ∨ q.pgid = g ∧ q.sid = p.sid) := by
    intro q hq
    obtain ⟨q₀, hq₀, rfl⟩ := Kernel.mem_modify.mp hq
    refine ⟨q₀, hq₀, ?_⟩
    split
    · next hpid => exact ⟨rfl, rfl, .inr ⟨rfl, by rw [hone q₀ hq₀ hpid]⟩⟩
    · exact ⟨rfl, rfl, .inl rfl⟩
  constructor
  · intro a ha b hb he
    obtain ⟨a₀, ha₀, -, sa, ga⟩ := hmem a ha
    obtain ⟨b₀, hb₀, -, sb, gb⟩ := hmem b hb
    rcases ga with ga | ⟨ga, sa'⟩ <;> rcases gb with gb | ⟨gb, sb'⟩
    · rw [sa, sb]
      exact h.session a₀ ha₀ b₀ hb₀ (by rw [← ga, ← gb, he])
    · rw [sa, sb']
      exact hmember a₀ ha₀ (by rw [← ga, he, gb])
    · rw [sa', sb]
      exact (hmember b₀ hb₀ (by rw [← gb, ← he, ga])).symm
    · rw [sa', sb']
  · intro a ha b hb he
    obtain ⟨a₀, ha₀, -, sa, ga⟩ := hmem a ha
    obtain ⟨b₀, hb₀, pb, sb, -⟩ := hmem b hb
    rcases ga with ga | ⟨ga, sa'⟩
    · rw [sa, sb]
      exact h.leader a₀ ha₀ b₀ hb₀ (by rw [← ga, he, pb])
    · rw [sa', sb]
      exact (hleader b₀ hb₀ (by rw [← pb, ← he, ga])).symm

variable {c r : ℤ} {n : ℕ}

theorem setpgid_grouped (h : Grouped k) (ht : Table k) {pgid : ℤ}
    (he : sysSetpgid pid pgid k = (some r, k')) : Grouped k' := by
  unfold sysSetpgid at he
  rcases hme : k.currentProc with _ | me
  · simp only [hme] at he
    cases he
    exact h
  simp only [hme] at he
  split at he
  · cases he
    exact h
  generalize hp : (if pid = 0 then some me else k.find pid) = target at he
  rcases target with _ | p
  · cases he
    exact h
  have hpmem : p ∈ k.procs := by
    split_ifs at hp
    · cases hp
      exact (currentProc_mem hme).1
    · exact (Kernel.find_mem hp).1
  dsimp only at he
  generalize (if pgid = 0 then p.pid else pgid) = g at he
  split_ifs at he with hkin hexec hsess hgroup
  any_goals
    cases he
    exact h
  cases he
  obtain ⟨hsid, -⟩ := not_or.mp hsess
  rw [not_not] at hsid
  -- whoever the group is named after is in the caller's session
  have hlead : ∃ l ∈ k.procs, l.pid = g ∧ l.sid = p.sid := by
    by_cases hg : g = p.pid
    · exact ⟨p, hpmem, hg.symm, rfl⟩
    rcases hl : k.find g with _ | l
    · exact absurd ⟨hg, by rw [hl]; rfl⟩ hgroup
    obtain ⟨hlmem, hlpid⟩ := Kernel.find_mem hl
    refine ⟨l, hlmem, hlpid, ?_⟩
    rw [hl] at hgroup
    simp only [Option.all_some, decide_eq_true_eq, not_and, not_not] at hgroup
    rw [hgroup hg, hsid]
  obtain ⟨l, hl, hlpid, hlsid⟩ := hlead
  refine h.join ?_ ?_ fun q hq hpid => ht.eq_of_pid hq hpmem hpid
  · intro q hq hqg
    rw [← hlsid]
    exact h.leader q hq l hl (hqg.trans hlpid.symm)
  · intro q hq hqp
    rw [ht.eq_of_pid hq hl (hqp.trans hlpid.symm), hlsid]

theorem setsid_grouped (h : Grouped k) (ht : Table k) (he : sysSetsid k = (some r, k')) :
    Grouped k' := by
  unfold sysSetsid at he
  rcases hme : k.currentProc with _ | me
  · simp only [hme] at he
    cases he
    exact h
  simp only [hme] at he
  split at he
  · cases he
    exact h
  next hfree =>
  have hmemem := (currentProc_mem hme).1
  -- nobody else is in a group named after the caller
  have halone : ∀ q ∈ k.procs, q.pid ≠ me.pid → q.pgid ≠ me.pid := by
    intro q hq hne hg
    exact hfree (any_eq_true.mpr ⟨q, hq, by simp [hne, ht.used q hq, hg]⟩)
  have hgrouped : Grouped (k.modify me.pid fun q => { q with sid := me.pid, pgid := me.pid }) := by
    have hmem : ∀ q ∈ (k.modify me.pid fun q => { q with sid := me.pid, pgid := me.pid }).procs,
        (q.pid = me.pid ∧ q.pgid = me.pid ∧ q.sid = me.pid) ∨
          (q ∈ k.procs ∧ q.pid ≠ me.pid ∧ q.pgid ≠ me.pid) := by
      intro q hq
      obtain ⟨q₀, hq₀, rfl⟩ := Kernel.mem_modify.mp hq
      split
      · next hpid => exact .inl ⟨hpid, rfl, rfl⟩
      · next hpid => exact .inr ⟨hq₀, hpid, halone q₀ hq₀ hpid⟩
    constructor
    · intro a ha b hb hab
      rcases hmem a ha with ⟨-, ga, sa⟩ | ⟨ha₀, -, ga⟩ <;>
        rcases hmem b hb with ⟨-, gb, sb⟩ | ⟨hb₀, -, gb⟩
      · rw [sa, sb]
      · exact absurd (hab.symm.trans ga) gb
      · exact absurd (hab.trans gb) ga
      · exact h.session a ha₀ b hb₀ hab
    · intro a ha b hb hab
      rcases hmem a ha with ⟨-, ga, sa⟩ | ⟨ha₀, -, ga⟩ <;>
        rcases hmem b hb with ⟨pb, -, sb⟩ | ⟨hb₀, pb, -⟩
      · rw [sa, sb]
      · exact absurd (hab.symm.trans ga) pb
      · exact absurd (hab.trans pb) ga
      · exact h.leader a ha₀ b hb₀ hab
  cases he
  split
  · exact hgrouped.of_procs rfl
  · exact hgrouped

/-! ### The search for a pid -/

def pidStart (c : ℤ) : ℤ := if c ≤ 0 then 1 else c

theorem pickPid_succ (n : ℕ) (c : ℤ) : pickPid k (n + 1) c = if pidTaken k (pidStart c) then
    pickPid k n (if pidStart c = INT_MAX then -INT_MAX - 1 else pidStart c + 1) else
      some (pidStart c) := rfl

theorem pidStart_bounds (hc : c ≤ INT_MAX) : 0 < pidStart c ∧ pidStart c ≤ INT_MAX := by
  unfold pidStart INT_MAX at *
  split <;> omega

def pidTried (c : ℤ) (i : ℕ) : ℤ := 1 + (pidStart c - 1 + i) % INT_MAX

theorem pidTried_next (hc : c ≤ INT_MAX) (i : ℕ) :
    pidTried (if pidStart c = INT_MAX then -INT_MAX - 1 else pidStart c + 1) i =
      pidTried c (i + 1) := by
  have hstart := pidStart_bounds hc
  unfold pidTried
  generalize pidStart c = s at *
  unfold pidStart INT_MAX at *
  split <;> split <;> omega

theorem pickPid_none (hc : c ≤ INT_MAX) (h : pickPid k n c = none) :
    ∀ i < n, pidTaken k (pidTried c i) = true := by
  induction n generalizing c with
  | zero => exact fun i hi => absurd hi (Nat.not_lt_zero i)
  | succ n ih =>
    have hstart := pidStart_bounds hc
    rw [pickPid_succ] at h
    split at h
    · next htaken =>
      rintro (_ | i) hi
      · rwa [show pidTried c 0 = pidStart c by unfold pidTried INT_MAX at *; omega]
      · rw [← pidTried_next hc]
        exact ih (by unfold INT_MAX at *; split <;> omega) h i (by omega)
    · cases h

/-- A round for each process and one more find a free pid: the pids tried are distinct. -/
theorem pickPid_isSome (hc : c ≤ INT_MAX) (hfew : k.procs.length < INT_MAX) :
    pickPid k (k.procs.length + 1) c ≠ none := by
  intro h
  have htaken := pickPid_none hc h
  have hsub : (List.range (k.procs.length + 1)).map (pidTried c) ⊆ k.procs.map Pcb.pid := by
    intro d hd
    obtain ⟨i, hi, rfl⟩ := mem_map.mp hd
    obtain ⟨q, hq, hpid⟩ := any_eq_true.mp (htaken i (mem_range.mp hi))
    exact mem_map.mpr ⟨q, hq, (of_decide_eq_true hpid).2⟩
  have hnodup : ((List.range (k.procs.length + 1)).map (pidTried c)).Nodup := by
    refine List.Nodup.map_on (fun i hi j hj he => ?_) nodup_range
    rw [mem_range] at hi hj
    unfold pidTried INT_MAX at *
    omega
  have := (subperm_of_subset hnodup hsub).length_le
  simp at this

theorem pickPid_mono {m : ℕ} {d : ℤ} (h : pickPid k n c = some d) (hm : n ≤ m) :
    pickPid k m c = some d := by
  induction n generalizing m c with
  | zero => cases h
  | succ n ih =>
    obtain ⟨m, rfl⟩ := Nat.exists_eq_add_of_le' (Nat.one_le_of_lt hm)
    rw [pickPid_succ] at h ⊢
    split at h
    · next htaken =>
      rw [if_pos htaken]
      exact ih h (by omega)
    · next hfree =>
      rw [if_neg hfree]
      exact h

def KERN_BASE : ℕ := 0x80000000
def PHYMEM_END : ℕ := 0x88000000
def NPAGES : ℕ := (PHYMEM_END - KERN_BASE) / 4096

/-- Each process has a page of its own, `page_alloc` in `alloc_proc`, for its `struct pcb`. So the
search ends, whatever the counter, at a pid that no process has, and pids are distinct in every
run. -/
theorem pid_search (k : Kernel) (hnext : k.nextPid ≤ INT_MAX)
    (page : Fin k.procs.length → Fin NPAGES) (hpage : Function.Injective page) :
    (∃ pid, (∀ n, k.procs.length < n → pickPid k n k.nextPid = some pid) ∧ 0 < pid ∧
      ∀ p ∈ k.procs, p.state ≠ .unused → p.pid ≠ pid) ∧
    ∀ init entry sp k', 0 < init → Reaches Step (fun _ _ => True) (bootKernel init entry sp) k' →
      (k'.procs.map Pcb.pid).Nodup := by
  refine ⟨?_, fun init entry sp k' hinit hrun => ?_⟩
  · have hcard : k.procs.length ≤ NPAGES := by simpa using Fintype.card_le_of_injective page hpage
    have hfew : (k.procs.length : ℤ) < INT_MAX := by
      unfold NPAGES PHYMEM_END KERN_BASE at hcard
      unfold INT_MAX
      omega
    obtain ⟨pid, hpick⟩ := Option.ne_none_iff_exists'.mp (pickPid_isSome hnext hfew)
    refine ⟨pid, fun n hn => pickPid_mono hpick hn, pickPid_pos hpick, fun p hp hused hpid => ?_⟩
    have hfree := pickPid_free hpick
    simp only [pidTaken, any_eq_false] at hfree
    exact hfree p hp (by simp [hused, hpid])
  · exact (hrun.invariant (I := Sound) (.boot hinit entry sp) fun _ _ _ hk _ => hk.step).nodup

/-- The last pid and the first two are taken, one of them by a zombie, and the counter is at
the last pid. -/
def wrapping : Kernel := { bootKernel 1 0 0 with
  procs := [{ newPcb INT_MAX 0 with state := .ready }, { newPcb 1 0 with state := .ready },
    { newPcb 2 0 with state := .zombie }]
  nextPid := INT_MAX }

theorem pid_search_wraps : pickPid wrapping 4 INT_MAX = some 3 ∧
    pickPid wrapping NPAGES INT_MAX = some 3 := by
  obtain ⟨⟨pid, hpick, -⟩, -⟩ :=
    pid_search wrapping le_rfl (fun i => ⟨i, i.isLt.trans (by decide)⟩) fun i j h => by
      simpa [Fin.ext_iff] using h
  have hthree : pickPid wrapping 4 INT_MAX = some 3 := by decide +kernel
  exact ⟨hthree, (hpick NPAGES (by decide)).trans ((hpick 4 (by decide)).symm.trans hthree)⟩

/-! ### `fork` -/

theorem pickPid_le {s d : ℤ} (hc : 0 < c) (hmax : c ≤ INT_MAX) (hs : s ≤ c)
    (hfree : pidTaken k c = false) (h : pickPid k n s = some d) : s ≤ d ∧ d ≤ c := by
  induction n generalizing s with
  | zero => cases h
  | succ n ih =>
    rw [pickPid] at h
    have hstart : s ≤ (if s ≤ 0 then 1 else s) ∧ (if s ≤ 0 then 1 else s) ≤ c := by
      split <;> omega
    generalize (if s ≤ 0 then 1 else s) = s' at h hstart
    split at h
    · next htaken =>
      -- `s'` is taken, so it is before `c` and the increment does not wrap
      have hne : s' ≠ c := by
        rintro rfl
        rw [hfree] at htaken
        cases htaken
      have hno : s' ≠ INT_MAX := by omega
      rw [if_neg hno] at h
      have := ih (by omega) h
      omega
    · cases h
      exact hstart

theorem allocPid_unled (hled : ∀ p ∈ k.procs, pidTaken k p.pgid = true ∨ passedOver k p.pgid)
    {generation : ℕ} {k₀ : Kernel} (h : allocPid k = (some (pid, generation), k₀)) :
    ∀ p ∈ k.procs, p.pgid ≠ pid := by
  unfold allocPid at h
  split at h
  · cases h
  next c hc =>
  cases h
  rintro p hp rfl
  rcases hled p hp with htaken | ⟨c, hpos, hmax, hnext, hbefore, hfree⟩
  · rw [pickPid_free hc] at htaken
    cases htaken
  · have := pickPid_le hpos hmax hnext hfree hc
    omega

theorem Grouped.fork (h : Grouped k) {parent : Pcb} (hparent : parent ∈ k.procs)
    (generation : ℕ) (hfresh : ∀ p ∈ k.procs, p.pgid ≠ pid) :
    Grouped { k with procs := k.procs ++ [forkChild parent pid generation] } := by
  -- the child has its parent's group and session
  have hmem : ∀ q ∈ k.procs ++ [forkChild parent pid generation],
      ∃ q₀ ∈ k.procs, q.sid = q₀.sid ∧ q.pgid = q₀.pgid ∧ (q.pid = q₀.pid ∨ q.pid = pid) := by
    intro q hq
    rcases mem_append.mp hq with hq | hq
    · exact ⟨q, hq, rfl, rfl, .inl rfl⟩
    · rw [mem_singleton.mp hq]
      exact ⟨parent, hparent, rfl, rfl, .inr rfl⟩
  constructor
  · intro a ha b hb he
    obtain ⟨a₀, ha₀, sa, ga, -⟩ := hmem a ha
    obtain ⟨b₀, hb₀, sb, gb, -⟩ := hmem b hb
    rw [sa, sb]
    exact h.session a₀ ha₀ b₀ hb₀ (by rw [← ga, ← gb, he])
  · intro a ha b hb he
    obtain ⟨a₀, ha₀, sa, ga, -⟩ := hmem a ha
    obtain ⟨b₀, hb₀, sb, -, pb | pb⟩ := hmem b hb
    · rw [sa, sb]
      exact h.leader a₀ ha₀ b₀ hb₀ (by rw [← ga, he, pb])
    · exact absurd (by rw [← ga, he, pb]) (hfresh a₀ ha₀)

theorem fork_grouped (h : Grouped k) {env : ForkEnv} (hled : groupsLed k (.call (.fork env)))
    (he : procForkCurrent env k = (some r, k')) : Grouped k' := by
  cases procForkCurrent_run he with
  | refused _ => exact h
  | failed halloc => exact h.of_procs (allocPid_procs halloc)
  | unwound _ halloc hdup hclose =>
    have hwakes := (dupFds_rel wakes_files _ _ _ _ hdup).trans
      (closeOrphan_rel wakes_files _ _ _ _ hclose)
    refine (h.of_procs (allocPid_procs halloc)).sameIds fun q hq => ?_
    obtain ⟨p, hp, hs⟩ := hwakes.mem hq
    exact ⟨p, hp, hs.pid.symm, by rw [hs.frame], by rw [hs.frame]⟩
  | @forked parent _ generation k₀ k₁ hparent halloc hdup =>
    have hprocs : k₁.procs = k.procs := (dupFds_procs _ _ _ _ hdup).trans (allocPid_procs halloc)
    refine (h.of_procs hprocs).fork ?_ generation ?_
    · exact hprocs ▸ (currentProc_mem hparent).1
    · exact hprocs ▸ allocPid_unled hled halloc

/-! ### Runs -/

theorem Grouped.step (h : Grouped k) (hk : Sound k) {l : Label} (hled : groupsLed k l)
    (hstep : Step k l k') : Grouped k' := by
  by_cases hr : l.regroups
  · cases l with
    | call c =>
      obtain ⟨-, he⟩ := hstep
      cases c with
      | fork env =>
        obtain ⟨r, he⟩ := discard_eq_some he
        exact fork_grouped h hled he
      | setpgid pid pgid =>
        obtain ⟨r, he⟩ := discard_eq_some he
        exact setpgid_grouped h hk.toTable he
      | setsid =>
        obtain ⟨r, he⟩ := discard_eq_some he
        exact setsid_grouped h hk.toTable he
      | _ => exact hr.elim
    | _ => exact hr.elim
  · exact h.moves hr (hstep.moves hk)

theorem Grouped.boot (pid : ℤ) (entry sp : BitVec 64) : Grouped (bootKernel pid entry sp) where
  session p hp q hq _ := by
    rw [mem_singleton.mp hp, mem_singleton.mp hq]
  leader p hp q hq _ := by
    rw [mem_singleton.mp hp, mem_singleton.mp hq]

/-- In every run whose forks do not reach the id of a group without its leader,
the processes of a group are in one session. -/
theorem groups_within_session {pid : ℤ} (hpid : 0 < pid) (entry sp : BitVec 64) {k : Kernel}
    (h : Reaches Step groupsLed (bootKernel pid entry sp) k) :
    ∀ p ∈ k.procs, ∀ q ∈ k.procs, p.pgid = q.pgid → p.sid = q.sid := by
  have hinv : Sound k ∧ Grouped k := by
    refine h.invariant (I := fun k => Sound k ∧ Grouped k)
      ⟨.boot hpid entry sp, .boot pid entry sp⟩ ?_
    rintro k l k' ⟨hk, hg⟩ hled hstep
    exact ⟨hk.step hstep, hg.step hk hled hstep⟩
  exact hinv.2.session

/-- Init forks; its child starts a session, forks twice, and the second of its children makes a
group of its own. -/
theorem groups_within_session_fork : ∃ k,
    Reaches Step groupsLed (bootKernel 1 0x10000 0x20000) k ∧
    k.procs.map (fun p => (p.pid, p.pgid, p.sid)) = [(1, 1, 1), (2, 2, 2), (3, 2, 2), (4, 4, 2)] ∧
    ∀ p ∈ k.procs, ∀ q ∈ k.procs, p.pgid = q.pgid → p.sid = q.sid := by
  have hrun : (runUnder (fun k _ => k.procs.all fun p => pidTaken k p.pgid)
      [.dispatch 1, .enter fun _ => 0x10000, .call (.fork .ok), .call .yield, .dispatch 2,
        .enter fun _ => 0x10000, .call .setsid, .call (.fork .ok), .call (.fork .ok),
        .call (.setpgid 4 0)]
      (bootKernel 1 0x10000 0x20000)).any (fun k => k.procs.map
        (fun p => (p.pid, p.pgid, p.sid)) = [(1, 1, 1), (2, 2, 2), (3, 2, 2), (4, 4, 2)]) =
          true := by
    decide +kernel
  obtain ⟨k, hk, hlen⟩ := (Option.any_eq_true _ _).mp hrun
  have hreach : Reaches Step groupsLed (bootKernel 1 0x10000 0x20000) k := by
    refine (runUnder_reaches hk).mono fun k l hall => ?_
    unfold groupsLed
    split
    · exact fun p hp => .inl (all_eq_true.mp hall p hp)
    · trivial
  exact ⟨k, hreach, of_decide_eq_true hlen, groups_within_session (by decide) _ _ hreach⟩

/-- Init forks, its child starts a session, forks in turn and exits, and init
reaps it: process 3 is left in group 2. -/
def leaderGone : List Label :=
  [.dispatch 1, .enter fun _ => 0x10000, .call (.fork .ok), .call .yield, .dispatch 2,
    .enter fun _ => 0x10000, .call .setsid, .call (.fork .ok), .call (.exit 0), .dispatch 1,
    .call (.wait4 2 0 none)]

/-- Every process has a pid below `next_pid`, and the running one may fork. -/
def mayFork (k : Kernel) : Prop :=
  0 < k.nextPid ∧ (∀ p ∈ k.procs, p.pid < k.nextPid) ∧
    k.currentProc.any (fun p => p.isUser ∧ p.rlimNproc = RLIM_INFINITY ∧
      p.state = .running ∧ p.resume = .trap)

instance (k : Kernel) : Decidable (mayFork k) := by
  unfold mayFork
  infer_instance

theorem failedFork_step (h : mayFork k) : Step k (.call (.fork .noPgtable)) { k with
      nextPid := if INT_MAX ≤ k.nextPid then 1 else k.nextPid + 1
      generationSeq := k.generationSeq + 1 } := by
  obtain ⟨hpos, hbelow, hcur⟩ := h
  obtain ⟨me, hme, hany⟩ := (Option.any_eq_true _ _).mp hcur
  obtain ⟨huser, hlim, hrun, htrap⟩ := of_decide_eq_true hany
  have hfree : pidTaken k k.nextPid = false := by
    rw [pidTaken, any_eq_false]
    intro q hq
    have := hbelow q hq
    simp only [decide_eq_true_eq, not_and]
    omega
  have hpick : pickPid k (k.procs.length + 1) k.nextPid = some k.nextPid := by
    have hstart : (if k.nextPid ≤ 0 then 1 else k.nextPid) = k.nextPid := if_neg (by omega)
    rw [pickPid, hstart, if_neg (by simp [hfree])]
  have halloc : allocPid k = (some (k.nextPid, k.generationSeq + 1), { k with
      nextPid := if INT_MAX ≤ k.nextPid then 1 else k.nextPid + 1
      generationSeq := k.generationSeq + 1 }) := by
    rw [allocPid, hpick]
  refine ⟨⟨me, hme, hrun, htrap⟩, ?_⟩
  refine (bind_some (a := -ENOMEM) ?_).trans rfl
  unfold procForkCurrent
  rw [get_bind]
  simp only [hme]
  rw [if_neg (by simp [huser]), if_neg (by simp [hlim]), if_neg (by decide), bind_some halloc]
  rfl

theorem failedForks_reach (h : mayFork k) (n : ℕ) (hn : k.nextPid + n ≤ INT_MAX) :
    Reaches Step (fun _ _ => True) k
      { k with nextPid := k.nextPid + n, generationSeq := k.generationSeq + n } := by
  induction n with
  | zero =>
    rw [Nat.cast_zero, add_zero, add_zero]
    exact .refl
  | succ n ih =>
    have hmay : mayFork { k with
        nextPid := k.nextPid + n, generationSeq := k.generationSeq + n } := by
      obtain ⟨hpos, hbelow, hcur⟩ := h
      refine ⟨by dsimp only; omega, fun p hp => ?_, hcur⟩
      exact lt_of_lt_of_le (hbelow p hp) (by dsimp only; omega)
    refine (ih (by omega)).tail (a := .call (.fork .noPgtable)) trivial ?_
    have hstep := failedFork_step hmay
    rw [if_neg (by dsimp only; omega)] at hstep
    rwa [Nat.cast_succ, ← add_assoc, ← add_assoc]

/-- Init forks again, and the child makes itself the leader of a group. -/
def leaderAgain : List Label :=
  [.call (.fork .ok), .call .yield, .dispatch 2, .enter fun _ => 0x10000, .call (.setpgid 0 0)]

/-- The state with `next_pid` wrapped around. -/
def wrapped (k : Kernel) : Kernel :=
  { k with nextPid := 1, generationSeq := k.generationSeq + 2147483643 + 1 }

def spansSessions (k : Kernel) : Bool :=
  k.procs.any fun p => k.procs.any fun q =>
    p.state ≠ .zombie ∧ q.state ≠ .zombie ∧ p.pgid = q.pgid ∧ p.sid ≠ q.sid

/-- Pid 2 is handed out again while process 3 is in group 2: the new process 2
may lead a group of that name in another session. -/
theorem group_spans_sessions :
    ∃ k, Reaches Step (fun _ _ => True) (bootKernel 1 0x10000 0x20000) k ∧
    ∃ p ∈ k.procs, ∃ q ∈ k.procs, p.state ≠ .zombie ∧ q.state ≠ .zombie ∧
      p.pgid = q.pgid ∧ p.sid ≠ q.sid := by
  have hgone : (runLabels leaderGone (bootKernel 1 0x10000 0x20000)).any (fun k => mayFork k ∧
      k.nextPid = 4 ∧ (runLabels leaderAgain (wrapped k)).any spansSessions) = true := by
    decide +kernel
  obtain ⟨k₁, hk₁, hmay, hnext, hrest⟩ := runLabels_any hgone
  obtain ⟨k₂, hk₂, hspan⟩ := (Option.any_eq_true _ _).mp hrest
  have hmax : Reaches Step (fun _ _ => True) k₁
      { k₁ with nextPid := INT_MAX, generationSeq := k₁.generationSeq + 2147483643 } := by
    have := failedForks_reach hmay 2147483643 (by rw [hnext]; decide)
    rwa [hnext] at this
  have hwrap : Step { k₁ with nextPid := INT_MAX, generationSeq := k₁.generationSeq + 2147483643 }
      (.call (.fork .noPgtable)) (wrapped k₁) := by
    obtain ⟨-, hbelow, hcur⟩ := hmay
    have hlt : k₁.nextPid < INT_MAX := by
      rw [hnext]
      decide
    have hstep := failedFork_step (k := { k₁ with
      nextPid := INT_MAX, generationSeq := k₁.generationSeq + 2147483643 })
      ⟨(by decide : (0 : ℤ) < INT_MAX), fun p hp => (hbelow p hp).trans hlt, hcur⟩
    rwa [if_pos le_rfl] at hstep
  refine ⟨k₂, (runLabels_reaches hk₁).trans
    ((hmax.tail trivial hwrap).trans (runLabels_reaches hk₂)), ?_⟩
  obtain ⟨p, hp, hspan⟩ := any_eq_true.mp hspan
  obtain ⟨q, hq, hspan⟩ := any_eq_true.mp hspan
  exact ⟨p, hp, q, hq, of_decide_eq_true hspan⟩

end Sbunix.Proc
