import Sbunix.Lib.RoundRobin
import Sbunix.Proc.ExitWait

/-!
# Round-robin fairness

`next_ready_proc` scans the process list cyclically from behind the process that
ran last. While a process waits to be run, the processes in front of it in the
order of the scan only become fewer: forked processes are new, and what has run
is behind. A process is named by its generation, since pids are used again.
-/

namespace Sbunix.Proc

open Lib List
open Option hiding filter_map map_map

/-- Where `next_ready_proc` begins: behind the current process, or at the head. -/
def scanStart (k : Kernel) : ℕ :=
  match k.current with
  | none => 0
  | some pid =>
    let next := k.procs.findIdx (·.pid = pid) + 1
    if next < k.procs.length then next else 0

def nextReadyProc (k : Kernel) : Option Pcb :=
  if k.procs = [] then none
  else cycleFind (·.state = .ready) k.procs (scanStart k) k.procs.length (scanStart k)

/-- The steps of the kernel as `scheduler_run` makes them. -/
def Scheduled (k : Kernel) : Label → Prop
  | .dispatch pid => (nextReadyProc k).map Pcb.pid = some pid
  | _ => True

instance (k : Kernel) : DecidablePred (Scheduled k) := fun l =>
  match l with
  | .dispatch pid => inferInstanceAs (Decidable ((nextReadyProc k).map Pcb.pid = some pid))
  | .call _ | .enter _ | .ret _ _ | .reapOrphan | .tick _ | .tty _ | .wake _ | .wakeChan _ =>
    .isTrue trivial

/-! ### Who ran last -/

variable {pid : ℤ} {z p : Pcb} {k k' : Kernel}

theorem sameCurrent_robust (c : Option ℤ) : Robust fun k => k.current = c where
  quiet hq h := hq.current.trans h
  stop h _ _ _ := h
  exit h hr he := by
    obtain ⟨p, hp, hs⟩ := hr
    exact (exit_exits hp hs he).2.1.trans h

theorem Sends.current {S : ℕ → Prop} (h : Sends S k k') : k'.current = k.current := by
  rw [h.frame]

theorem modifyCurrent_current {g : Pcb → Pcb} (he : modifyCurrent g k = (some (), k')) :
    k'.current = k.current := by
  rcases modifyCurrent_run he with rfl | ⟨_, _, rfl⟩ <;> rfl

theorem fork_current {env : ForkEnv} {r : ℤ} (he : procForkCurrent env k = (some r, k')) :
    k'.current = k.current := by
  have halloc : ∀ {k₀ : Kernel} {a : ℤ × ℕ}, allocPid k = (some a, k₀) →
      k₀.current = k.current := by
    intro k₀ a h
    unfold allocPid at h
    split at h
    · cases h
    · cases h
      rfl
  cases procForkCurrent_run he with
  | refused _ => rfl
  | failed h => exact halloc h
  | unwound _ h hdup hclose =>
    exact ((dupFds_rel wakes_files _ _ _ _ hdup).trans
      (closeOrphan_rel wakes_files _ _ _ _ hclose)).quiet.current.trans
      (halloc h)
  | forked _ h hdup => exact (dupFds_rel wakes_files _ _ _ _ hdup).quiet.current.trans (halloc h)

theorem wait4_current {options : BitVec 32} {r : WaitResult}
    (he : wait4Pass pid options k = (some r, k')) : k'.current = k.current := by
  cases wait4Pass_run he with
  | failed _ | slept _ _ | stopReported _ | continueReported _ => rfl
  | reaped _ _ _ hdestroy => exact (destroy_filter hdestroy).2.2.1

theorem call_current {c : Call} (hr : Running k) (he : call c k = (some (), k')) :
    k'.current = k.current := by
  cases call_run he with
  | quiet _ hq => exact hq.current
  | sends _ hs => exact hs.current
  | rests _ he _ => exact modifyCurrent_current he
  | fork hrun => exact fork_current hrun
  | exit hrun => exact (sameCurrent_robust k.current).exit rfl hr hrun
  | wait4 _ hrun => exact wait4_current hrun
  | sigreturn hrun => exact sysSigreturn_keeps (sameCurrent_robust k.current) rfl hr hrun

theorem sameCurrent_sturdy (c : Option ℤ) : Sturdy fun k => k.current = c :=
  ⟨sameCurrent_robust c, fun _ h => h⟩

/-- What a step leaves in `current`. -/
def currentAfter (k : Kernel) : Label → Option ℤ
  | .dispatch pid => some pid
  | .reapOrphan => none
  | _ => k.current

theorem step_current {l : Label} (hstep : Step k l k') : k'.current = currentAfter k l := by
  cases step_run hstep with
  | call hr he => exact call_current hr he
  | @dispatch pid _ _ _ hrun => exact hrun (sameCurrent_sturdy (some pid)) rfl
  | reapOrphan hz _ _ he => exact (reapOrphan_removes hz he).current
  | passing hl hrun =>
    have hc := hrun (sameCurrent_sturdy k.current) rfl
    cases l with
    | call | dispatch | reapOrphan => cases hl
    | _ => exact hc

/-! ### The order of the processes -/

/-- The processes in the order of the list, by pid and generation. -/
def ids (k : Kernel) : List (ℤ × ℕ) := k.procs.map fun p => (p.pid, p.generation)

def order (k : Kernel) : List ℕ := (ids k).map Prod.snd

def generationOf (k : Kernel) (pid : ℤ) : Option ℕ := ((ids k).find? (·.1 = pid)).map Prod.snd

def lastRun (k : Kernel) : Option ℕ := k.current.bind (generationOf k)

/-- What a step does to the list: nothing, a new process at the end, or a zombie
taken out that is not current. -/
inductive Shift (k k' : Kernel) : Prop
  | same : ids k' = ids k → k.generationSeq ≤ k'.generationSeq → Shift k k'
  | added (pid : ℤ) : ids k' = ids k ++ [(pid, k.generationSeq + 1)] →
    k'.generationSeq = k.generationSeq + 1 → Shift k k'
  | removed {z : Pcb} : z ∈ k.procs → z.state = .zombie → ids k' = (ids k).filter (·.1 ≠ z.pid) →
    k'.generationSeq = k.generationSeq → k'.current ≠ some z.pid → Shift k k'

theorem ids_eq {R : Pcb → Pcb → Prop} (hR : ∀ a b, R a b → b.pid = a.pid ∧
    b.generation = a.generation)
    {l l' : List Pcb} (h : List.Forall₂ R l l') :
    l'.map (fun p => (p.pid, p.generation)) = l.map fun p => (p.pid, p.generation) := by
  induction h with
  | nil => rfl
  | cons hd _ ih => rw [map_cons, map_cons, ih, (hR _ _ hd).1, (hR _ _ hd).2]

theorem ids_filter : (k.procs.filter (·.pid ≠ z.pid)).map (fun p => (p.pid, p.generation)) =
    (ids k).filter (·.1 ≠ z.pid) := by
  rw [ids, filter_map]
  rfl

variable {l : Label} {g : ℕ}

theorem currentAfter_reap {r : Reap} (h : reapOf k l = some r) : currentAfter k l = k.current := by
  cases l with
  | dispatch pid | reapOrphan => cases h
  | _ => rfl

theorem step_shift (ht : Table k) (hstep : Step k l k') : Shift k k' := by
  have hcur := step_current hstep
  have heffect := step_effect ht hstep
  generalize ho : reapOf k l = o at heffect
  cases heffect with
  | calm hc => exact .same (ids_eq (fun _ _ h => ⟨h.pid, h.generation⟩) hc.procs) hc.generationSeq
  | exits _ _ hx =>
    exact .same (ids_eq (fun _ _ h => ⟨h.pid, h.generation⟩) hx.procs) hx.generationSeq
  | @forks _ c _ _ _ hf =>
    obtain ⟨l, hl, hprocs⟩ := hf.procs
    refine .added c.pid ?_ hf.generationSeq
    rw [ids, hprocs, map_append, ids_eq (fun _ _ h => ⟨h.pid, h.generation⟩) hl, ← hf.generation]
    rfl
  | @reaps me z _ _ hme hrun hz hzombie _ hr =>
    refine .removed hz hzombie ?_ hr.generationSeq fun he => ?_
    · rw [ids, ids_eq (fun _ _ h => ⟨h.pid, h.generation⟩) hr.procs, ids_filter]
    · obtain ⟨hmem, hpid⟩ := currentProc_mem hme
      rw [hcur, currentAfter_reap ho, hpid] at he
      rw [ht.eq_of_pid hmem hz (Option.some.inj he), hzombie] at hrun
      cases hrun
  | orphan hz hzombie _ hr =>
    refine .removed hz hzombie ?_ hr.generationSeq ?_
    · rw [ids, ids_eq (fun _ _ h => ⟨h.pid, h.generation⟩) hr.procs, ids_filter]
    · rw [hr.current]
      nofun

theorem order_eq_map (k : Kernel) : order k = k.procs.map Pcb.generation := by
  rw [order, ids, map_map]
  rfl

theorem mem_ids : (pid, g) ∈ ids k ↔ ∃ p ∈ k.procs, p.pid = pid ∧ p.generation = g := by
  simp [ids]

theorem mem_order : g ∈ order k ↔ ∃ p ∈ k.procs, p.generation = g := by
  rw [order_eq_map]
  exact mem_map

theorem generationOf_find (k : Kernel) (pid : ℤ) :
    generationOf k pid = (k.find pid).map Pcb.generation := by
  rw [generationOf, ids, find?_map, Option.map_map]
  rfl

theorem mem_of_generationOf (h : generationOf k pid = some g) : (pid, g) ∈ ids k := by
  rw [generationOf_find] at h
  obtain ⟨p, hp, rfl⟩ := map_eq_some_iff.mp h
  obtain ⟨hmem, hpid⟩ := Kernel.find_mem hp
  exact mem_ids.mpr ⟨p, hmem, hpid, rfl⟩

/-- Generations tell processes apart and are handed out in order; the process
that ran last is still there. -/
structure SchedInv (k : Kernel) : Prop extends Table k where
  gens : (order k).Nodup
  seq : ∀ g ∈ order k, g ≤ k.generationSeq
  present : ∀ pid, k.current = some pid → ∃ g, generationOf k pid = some g

theorem SchedInv.eq_of_generation (hi : SchedInv k) {q : Pcb} (hp : p ∈ k.procs) (hq : q ∈ k.procs)
    (h : p.generation = q.generation) : p = q := by
  have hgens := hi.gens
  rw [order_eq_map] at hgens
  exact inj_on_of_nodup_map hgens hp hq h

theorem SchedInv.order_filter (hi : SchedInv k) (hz : z ∈ k.procs) :
    ((ids k).filter (·.1 ≠ z.pid)).map Prod.snd = (order k).filter (· ≠ z.generation) := by
  have hsame : ∀ i ∈ ids k, (decide (i.1 ≠ z.pid)) = decide (i.2 ≠ z.generation) := by
    intro ⟨pid, g⟩ h
    obtain ⟨p, hp, rfl, rfl⟩ := mem_ids.mp h
    have hiff : p.pid = z.pid ↔ p.generation = z.generation :=
      ⟨fun h => by rw [hi.toTable.eq_of_pid hp hz h], fun h => by rw [hi.eq_of_generation hp hz h]⟩
    simp only [ne_eq, hiff]
  rw [order, filter_map, filter_congr hsame]
  rfl

theorem Shift.generationOf (hs : Shift k k') (hcur : k'.current = some pid)
    (h : generationOf k pid = some g) : generationOf k' pid = some g := by
  unfold Proc.generationOf at h ⊢
  obtain ⟨i, hi, rfl⟩ := map_eq_some_iff.mp h
  cases hs with
  | same hids _ => rw [hids, hi, map_some]
  | added q hids _ => rw [hids, find?_append, hi, some_or, map_some]
  | @removed z hz _ hids _ hne =>
    have hkeep : ∀ j : ℤ × ℕ, (j.1 ≠ z.pid ∧ j.1 = pid) ↔ j.1 = pid := by
      refine fun j => ⟨And.right, fun hj => ⟨fun h => ?_, hj⟩⟩
      exact hne (hcur.trans (congrArg some (hj.symm.trans h)))
    rw [hids, find?_filter]
    simp only [decide_eq_true_eq, hkeep, hi, map_some]

theorem SchedInv.shift (hi : SchedInv k) (ht : Table k') (hs : Shift k k')
    (hcur : ∀ pid, k'.current = some pid → ∃ g, Proc.generationOf k pid = some g) :
    SchedInv k' where
  toTable := ht
  gens := by
    cases hs with
    | same hids _ =>
      rw [order, hids]
      exact hi.gens
    | added q hids _ =>
      rw [order, hids, map_append]
      refine hi.gens.append (nodup_singleton _) fun g hg hnew => ?_
      have hle := hi.seq g hg
      rw [map_singleton, mem_singleton] at hnew
      omega
    | removed hz _ hids _ _ =>
      rw [order, hids, hi.order_filter hz]
      exact hi.gens.filter _
  seq g hg := by
    cases hs with
    | same hids hseq =>
      rw [order, hids] at hg
      exact (hi.seq g hg).trans hseq
    | added q hids hseq =>
      rw [order, hids, map_append, mem_append] at hg
      rcases hg with hg | hg
      · exact (hi.seq g hg).trans (by omega)
      · rw [map_singleton, mem_singleton] at hg
        omega
    | removed hz _ hids hseq _ =>
      rw [order, hids, hi.order_filter hz] at hg
      exact hseq ▸ hi.seq g (mem_of_mem_filter hg)
  present pid hpid := by
    obtain ⟨g, hg⟩ := hcur pid hpid
    exact ⟨g, hs.generationOf hpid hg⟩

theorem SchedInv.current_old (hi : SchedInv k) (hstep : Step k l k') (pid : ℤ)
    (hpid : k'.current = some pid) : ∃ g, Proc.generationOf k pid = some g := by
  rw [step_current hstep] at hpid
  cases l with
  | dispatch q =>
    obtain ⟨-, p, hp, -⟩ := hstep.1
    cases hpid
    exact ⟨p.generation, by rw [generationOf_find, hp, map_some]⟩
  | reapOrphan => cases hpid
  | _ => exact hi.present pid hpid

theorem SchedInv.step (hi : SchedInv k) (hstep : Step k l k') : SchedInv k' :=
  hi.shift (step_table hi.toTable hstep) (step_shift hi.toTable hstep) (hi.current_old hstep)

theorem SchedInv.boot (pid : ℤ) (entry sp : BitVec 64) : SchedInv (bootKernel pid entry sp) where
  nodup := nodup_singleton _
  used p hp := by
    rw [mem_singleton.mp hp]
    exact nofun
  gens := nodup_singleton _
  seq g hg := (mem_singleton.mp hg).le
  present pid h := by cases h

/-! ### The scan and the order -/

theorem scan_turns (hi : SchedInv k) :
    (k.procs.rotate (scanStart k)).map Pcb.generation = turns (order k) (lastRun k) := by
  rw [map_rotate, ← order_eq_map]
  unfold scanStart lastRun
  rcases hcur : k.current with _ | pid
  · exact rotate_zero _
  · obtain ⟨g, hg⟩ := hi.present pid hcur
    rw [bind_some, hg]
    rw [generationOf_find] at hg
    obtain ⟨c, hc, rfl⟩ := map_eq_some_iff.mp hg
    obtain ⟨hcp, a, b, hprocs, ha⟩ := find?_eq_some_iff_append.mp hc
    have horder : order k = a.map Pcb.generation ++ c.generation :: b.map Pcb.generation := by
      rw [order_eq_map, hprocs, map_append, map_cons]
    have hfresh : c.generation ∉ a.map Pcb.generation := by
      have hgens := hi.gens
      rw [horder] at hgens
      exact fun h => disjoint_of_nodup_append hgens h (mem_cons_self ..)
    have hidx : k.procs.findIdx (·.pid = pid) = (order k).idxOf c.generation := by
      rw [horder, idxOf_append_of_notMem hfresh, idxOf_cons_self, hprocs, findIdx_append,
        if_neg (by simpa using ha), findIdx_cons, hcp, length_map]
      simp
    have hlen : k.procs.length = (order k).length := by rw [order_eq_map, length_map]
    have hle : (order k).idxOf c.generation < (order k).length :=
      idxOf_lt_length_of_mem (by simp [horder])
    dsimp only
    rw [hidx, hlen]
    split
    · rfl
    · -- the current process is the last of the list
      have hlast : (order k).idxOf c.generation + 1 = (order k).length := by omega
      rw [rotate_zero, turns, hlast, rotate_length]

theorem scanStart_lt (h : k.procs ≠ []) : scanStart k < k.procs.length := by
  have hpos := length_pos_iff.mpr h
  unfold scanStart
  split
  · exact hpos
  · dsimp only
    split
    · assumption
    · exact hpos

theorem nextReadyProc_turns (hi : SchedInv k) (h : nextReadyProc k = some p) :
    p ∈ k.procs ∧ ∃ u v : List Pcb, turns (order k) (lastRun k) =
      u.map Pcb.generation ++ p.generation :: v.map Pcb.generation ∧
      ∀ q ∈ u, q ∈ k.procs ∧ q.state ≠ .ready := by
  unfold nextReadyProc at h
  split at h
  · cases h
  · next hne =>
    rw [cycleFind_eq (scanStart_lt hne)] at h
    have hmem : ∀ {q}, q ∈ k.procs.rotate (scanStart k) → q ∈ k.procs := mem_rotate.mp
    obtain ⟨-, u, v, hsplit, hu⟩ := find?_eq_some_iff_append.mp h
    refine ⟨hmem (mem_of_find?_eq_some h), u, v, ?_, fun q hq => ⟨hmem ?_, ?_⟩⟩
    · rw [← scan_turns hi, hsplit, map_append, map_cons]
    · rw [hsplit]
      exact mem_append_left _ hq
    · simpa using hu q hq

/-! ### Waiting -/

def Waiting (g : ℕ) (k : Kernel) : Prop := ∃ p ∈ k.procs, p.generation = g ∧ p.state = .ready

instance (g : ℕ) (k : Kernel) : Decidable (Waiting g k) :=
  inferInstanceAs (Decidable (∃ p ∈ k.procs, p.generation = g ∧ p.state = .ready))

def dispatched (k : Kernel) : Label → Option ℕ
  | .dispatch pid => generationOf k pid
  | _ => none

/-- From `k` on the process of generation `g` stays ready and is not dispatched,
and the scheduler destroys no zombie; `ds` are the generations dispatched. -/
inductive Period (g : ℕ) (k : Kernel) : List ℕ → Kernel → Prop
  | start : Waiting g k → Period g k [] k
  | step {ds : List ℕ} {k₁ k₂ : Kernel} {l : Label} : Period g k ds k₁ → Scheduled k₁ l →
    Step k₁ l k₂ → l ≠ .reapOrphan → dispatched k₁ l ≠ some g → Waiting g k₂ →
    Period g k (ds ++ (dispatched k₁ l).toList) k₂

theorem Shift.before (hi : SchedInv k) (hs : Shift k k') (hw : Waiting g k) {c : Option ℕ}
    (hc : ∀ y ∈ c, ∃ pid, k'.current = some pid ∧ (pid, y) ∈ ids k) {x : ℕ}
    (hx : x ∈ before (order k') c g) : x ∈ before (order k) c g ∨ k.generationSeq < x := by
  have hmem : ∀ y ∈ c, y ∈ order k := by
    intro y hy
    obtain ⟨pid, -, h⟩ := hc y hy
    exact mem_map_of_mem h
  cases hs with
  | same hids _ =>
    rw [order, hids] at hx
    exact .inl hx
  | added q hids _ =>
    rw [order, hids, map_append] at hx
    rcases mem_before_add hi.gens hmem hx with h | rfl
    · exact .inl h
    · exact .inr (Nat.lt_succ_self _)
  | @removed z hz hzombie hids _ hne =>
    rw [order, hids, hi.order_filter hz] at hx
    refine .inl (mem_before_filter hi.gens hmem (fun y hy => ?_) ?_ hx)
    · obtain ⟨pid, hcur, hid⟩ := hc y hy
      obtain ⟨p, hp, rfl, rfl⟩ := mem_ids.mp hid
      refine decide_eq_true fun h => hne ?_
      rw [hcur, hi.eq_of_generation hp hz h]
    · obtain ⟨p, hp, rfl, hready⟩ := hw
      refine decide_eq_true fun h => ?_
      rw [hi.eq_of_generation hp hz h, hzombie] at hready
      cases hready

theorem picked_before (hi : SchedInv k) (hw : Waiting g k) (h : nextReadyProc k = some p)
    (hne : p.generation ≠ g) : p.generation ∈ before (order k) (lastRun k) g := by
  obtain ⟨-, u, v, hturns, hu⟩ := nextReadyProc_turns hi h
  refine mem_before hturns (fun hmem => ?_) hne
  obtain ⟨q, hq, hqg⟩ := mem_map.mp hmem
  obtain ⟨t, ht, htg, hready⟩ := hw
  obtain ⟨hqm, hnot⟩ := hu q hq
  rw [hi.eq_of_generation hqm ht (hqg.trans htg.symm)] at hnot
  exact hnot hready

/-- What has run in the period is old and not in front of the waiting process. -/
structure Passed (g : ℕ) (ds : List ℕ) (k : Kernel) : Prop extends SchedInv k where
  waiting : Waiting g k
  once : ds.Nodup
  behind : ∀ d ∈ ds, d ∉ before (order k) (lastRun k) g
  old : ∀ d ∈ ds, d ≤ k.generationSeq

theorem Shift.seq_le (hs : Shift k k') : k.generationSeq ≤ k'.generationSeq := by
  cases hs with
  | same _ h => exact h
  | added _ _ h | removed _ _ _ h _ => omega

variable {ds : List ℕ}

theorem lastRun_step (hi : SchedInv k) (hstep : Step k l k') :
    lastRun k' = (currentAfter k l).bind (generationOf k) := by
  unfold lastRun
  rw [← step_current hstep]
  rcases hcur : k'.current with _ | pid
  · rfl
  · obtain ⟨y, hy⟩ := hi.current_old hstep pid hcur
    rw [bind_some, bind_some, hy, (step_shift hi.toTable hstep).generationOf hcur hy]

theorem Passed.advance {new : List ℕ} (hp : Passed g ds k) (hstep : Step k l k')
    (hw : Waiting g k') (honce : new.Nodup)
    (hfront : ∀ d ∈ new, d ∈ Lib.before (order k) (lastRun k) g)
    (hleft : ∀ x ∈ Lib.before (order k) (lastRun k') g,
      x ∈ Lib.before (order k) (lastRun k) g ∧ x ∉ new) :
    Passed g (ds ++ new) k' := by
  have hs := step_shift hp.toTable hstep
  have hnew : ∀ d ∈ new, d ≤ k.generationSeq := fun d hd =>
    hp.seq d (mem_of_mem_before (hfront d hd))
  have hold : ∀ d ∈ ds ++ new, d ≤ k.generationSeq := fun d hd =>
    (mem_append.mp hd).elim (hp.old d) (hnew d)
  have hlast : ∀ y ∈ lastRun k', ∃ pid, k'.current = some pid ∧ (pid, y) ∈ ids k := by
    intro y hy
    rw [lastRun_step hp.toSchedInv hstep, ← step_current hstep] at hy
    obtain ⟨pid, hpid, hgen⟩ := bind_eq_some_iff.mp hy
    exact ⟨pid, hpid, mem_of_generationOf hgen⟩
  refine ⟨hp.toSchedInv.step hstep, hw, ?_, fun d hd hx => ?_,
    fun d hd => (hold d hd).trans hs.seq_le⟩
  · exact hp.once.append honce fun d hd hd' => hp.behind d hd (hfront d hd')
  · rcases hs.before hp.toSchedInv hp.waiting hlast hx with hx | hlt
    · obtain ⟨hx, hnotnew⟩ := hleft d hx
      exact (mem_append.mp hd).elim (fun h => hp.behind d h hx) hnotnew
    · exact absurd (hold d hd) (not_le.mpr hlt)

theorem Passed.step (hp : Passed g ds k) (hsched : Scheduled k l)
    (hstep : Step k l k') (hno : l ≠ .reapOrphan) (hne : dispatched k l ≠ some g)
    (hw : Waiting g k') :
    Passed g (ds ++ (dispatched k l).toList) k' := by
  have hlast := lastRun_step hp.toSchedInv hstep
  have hidle : dispatched k l = none → currentAfter k l = k.current →
      Passed g (ds ++ (dispatched k l).toList) k' := by
    intro hd hc
    have hsame : lastRun k' = lastRun k := by
      rw [hlast, hc]
      rfl
    rw [hd]
    refine hp.advance hstep hw nodup_nil (fun d h => by cases h) fun x hx => ⟨?_, nofun⟩
    rwa [hsame] at hx
  cases l with
  | dispatch pid =>
    obtain ⟨p, hpick, rfl⟩ := map_eq_some_iff.mp hsched
    have hmem := (nextReadyProc_turns hp.toSchedInv hpick).1
    have hgen : generationOf k p.pid = some p.generation := by
      rw [generationOf_find, hp.toTable.find_eq hmem, map_some]
    have hfront := picked_before hp.toSchedInv hp.waiting hpick fun h =>
      hne (hgen.trans (congrArg some h))
    obtain ⟨t, ht, rfl, -⟩ := hp.waiting
    obtain ⟨hgone, hsub⟩ := before_pick hp.gens (mem_order.mpr ⟨t, ht, rfl⟩) hfront
    have hran : lastRun k' = some p.generation := hlast.trans hgen
    change Passed _ (ds ++ (generationOf k p.pid).toList) k'
    rw [hgen]
    refine hp.advance hstep hw (nodup_singleton _) (fun d hd => ?_) fun x hx => ?_
    · rw [mem_singleton.mp hd]
      exact hfront
    · rw [hran] at hx
      exact ⟨hsub x hx, fun h => hgone (mem_singleton.mp h ▸ hx)⟩
  | reapOrphan => exact absurd rfl hno
  | _ => exact hidle rfl rfl

theorem Period.passed (hi : SchedInv k) (h : Period g k ds k') : Passed g ds k' := by
  induction h with
  | start hw => exact ⟨hi, hw, nodup_nil, nofun, nofun⟩
  | step _ hsched hstep hno hne hw ih => exact ih.step hsched hstep hno hne hw

/-- In every run, while a process stays ready without being dispatched and the
scheduler reaps no zombie, no other process is dispatched twice. -/
theorem no_process_dispatched_twice (pid : ℤ) (entry sp : BitVec 64) {k k' : Kernel} {g : ℕ}
    {ds : List ℕ} (hrun : Reaches Step Scheduled (bootKernel pid entry sp) k)
    (hperiod : Period g k ds k') : ds.Nodup := by
  have hi : SchedInv k :=
    hrun.invariant (SchedInv.boot pid entry sp) fun _ _ _ hi _ hstep => hi.step hstep
  exact (hperiod.passed hi).once

/-- Init has forked two children and yields; the first child runs before the second. -/
def yieldsTo (k : Kernel) : Prop :=
  Waiting 3 k ∧ (runLabels [.call .yield] k).any fun k₁ =>
    Waiting 3 k₁ ∧ Scheduled k₁ (.dispatch 2) ∧ dispatched k₁ (.dispatch 2) = some 2 ∧
      (runLabels [.dispatch 2] k₁).any fun k₂ => Waiting 3 k₂

instance : DecidablePred yieldsTo := fun _ => inferInstanceAs (Decidable (_ ∧ _))

theorem yieldsTo.period {k : Kernel} (h : yieldsTo k) : ∃ k', Period 3 k [2] k' := by
  obtain ⟨hw, h⟩ := h
  obtain ⟨k₁, h1, hP⟩ := (any_eq_true _ _).mp h
  obtain ⟨hw₁, hsched, hd, h⟩ := of_decide_eq_true hP
  obtain ⟨k₂, h2, hP⟩ := (any_eq_true _ _).mp h
  have hyield : Period 3 k [] k₁ :=
    .step (.start hw) (l := .call .yield) trivial (runLabels_single h1) nofun nofun hw₁
  have hrun := Period.step hyield hsched (runLabels_single h2) nofun (by rw [hd]; decide)
    (of_decide_eq_true hP)
  rw [hd] at hrun
  exact ⟨k₂, hrun⟩

theorem second_child_waits_once : ∃ k k', Reaches Step Scheduled (bootKernel 1 0 0) k ∧
    Period 3 k [2] k' ∧ [2].Nodup := by
  have hrun : (runUnder (fun k l => decide (Scheduled k l))
      [.dispatch 1, .enter (fun _ => 0), .call (.fork .ok), .call (.fork .ok)]
      (bootKernel 1 0 0)).any yieldsTo = true := by
    decide +kernel
  obtain ⟨k, hk, hP⟩ := (any_eq_true _ _).mp hrun
  obtain ⟨k', hperiod⟩ := (of_decide_eq_true hP).period
  have hreach := (runUnder_reaches hk).mono fun _ _ h => of_decide_eq_true h
  exact ⟨k, k', hreach, hperiod, no_process_dispatched_twice 1 0 0 hreach hperiod⟩

end Sbunix.Proc
