import Sbunix.Proc.Fairness
import Sbunix.Procfs.Nodes

/-!
# A node shows the process it was looked up for

Pids are used again, generations are not. A held node keeps the generation of
the process it was looked up for, and what reads a process through it compares
generations. The listing of the directory and the `root` link read no process.
-/

namespace Sbunix.Procfs

open List

open Proc (Kernel Pcb SchedInv Shift)
open Lib Function

/-! ### Nodes keep their process -/

/-- The node in place `i` is that of the process instance it was looked up for. -/
structure NodeOk (w : World) (i : ℕ) : Prop where
  inUse : (w.pool i).inUse = true
  generation : (w.pool i).generation = w.owner i
  old : w.owner i ≤ w.k.generationSeq
  pid : ∀ p ∈ w.k.procs, p.generation = w.owner i → p.pid = (w.pool i).pid

structure NodeInv (w : World) : Prop where
  sched : SchedInv w.k
  node : ∀ i, Held w i → NodeOk w i

variable {k k' : Kernel} {pn : ProcNode} {pid : ℤ} {p : Pcb} {w w' : World} {i : ℕ}

theorem mem_ids_of_shift (hs : Shift k k') {e : ℤ × ℕ} (he : e ∈ Proc.ids k') :
    e ∈ Proc.ids k ∨ k.generationSeq < e.2 := by
  cases hs with
  | same hids _ => exact .inl (hids ▸ he)
  | added pid hids _ =>
    rw [hids, mem_append, mem_singleton] at he
    rcases he with he | rfl
    · exact .inl he
    · exact .inr (Nat.lt_succ_self _)
  | removed _ _ hids _ _ =>
    rw [hids] at he
    exact .inl (mem_of_mem_filter he)

section

variable (hi : NodeInv w)
include hi

theorem NodeInv.kernel {l : Proc.Label} (info' : ℤ → ProcInfo)
    (hstep : Proc.Step w.k l k') : NodeInv { w with k := k', info := info' } where
  sched := hi.sched.step hstep
  node i hheld := by
    have hs := Proc.step_shift hi.sched.toTable hstep
    obtain ⟨huse, hgen, hold, hpid⟩ := hi.node i hheld
    refine ⟨huse, hgen, hold.trans hs.seq_le, fun p hp hpg => ?_⟩
    have hid : (p.pid, p.generation) ∈ Proc.ids k' := Proc.mem_ids.mpr ⟨p, hp, rfl, rfl⟩
    rcases mem_ids_of_shift hs hid with hid | hlt
    · obtain ⟨q, hq, hqp, hqg⟩ := Proc.mem_ids.mp hid
      exact hqp ▸ hpid q hq (hqg.trans hpg)
    · exact absurd (hpg ▸ hold) (not_le.mpr hlt)

theorem NodeInv.set {pn : ProcNode} {g : ℕ}
    (hpn : 0 < pn.refcnt → pn.inUse = true ∧ pn.generation = g ∧ g ≤ w.k.generationSeq ∧
      ∀ p ∈ w.k.procs, p.generation = g → p.pid = pn.pid) :
    NodeInv { setNode w i pn with owner := update w.owner i g } where
  sched := hi.sched
  node j hheld := by
    have hok : ∀ {q : ProcNode} {o : ℕ}, update w.pool i pn j = q →
        update w.owner i g j = o → q.inUse = true ∧ q.generation = o ∧
          o ≤ w.k.generationSeq ∧ (∀ p ∈ w.k.procs, p.generation = o → p.pid = q.pid) →
        NodeOk { setNode w i pn with owner := update w.owner i g } j := by
      rintro q o rfl rfl ⟨huse, hgen, hold, hpid⟩
      exact ⟨huse, hgen, hold, hpid⟩
    unfold Held at hheld
    by_cases hj : j = i
    · subst hj
      have hpool : update w.pool j pn j = pn := update_self ..
      exact hok hpool (update_self ..) (hpn (hpool ▸ hheld))
    · have hpool : update w.pool i pn j = w.pool j := update_of_ne hj ..
      have hheld' : 0 < (w.pool j).refcnt := hpool ▸ hheld
      obtain ⟨huse, hgen, hold, hpid⟩ := hi.node j hheld'
      exact hok hpool (update_of_ne hj ..) ⟨huse, hgen, hold, hpid⟩

theorem NodeInv.set_same
    (hpn : 0 < pn.refcnt → Held w i ∧ pn.inUse = true)
    (hgen : pn.generation = (w.pool i).generation)
    (hpid : pn.pid = (w.pool i).pid) : NodeInv (setNode w i pn) := by
  have hset : NodeInv { setNode w i pn with owner := update w.owner i (w.owner i) } := by
    refine hi.set fun hrefs => ?_
    obtain ⟨hheld, huse⟩ := hpn hrefs
    have hok := hi.node i hheld
    exact ⟨huse, hgen.trans hok.generation, hok.old,
      fun p hp hpg => (hok.pid p hp hpg).trans hpid.symm⟩
  rwa [update_eq_self] at hset

theorem NodeInv.make (kind : ProcKind) {g o : ℕ} (hgen : g = o)
    (hold : o ≤ w.k.generationSeq) (hpid : ∀ p ∈ w.k.procs, p.generation = o → p.pid = pid) :
    NodeInv (makeNode w kind pid g o).2 := by
  unfold makeNode
  split
  · exact hi
  · exact hi.set fun _ => ⟨rfl, hgen, hold, hpid⟩

theorem NodeInv.get (hheld : Held w i) : NodeInv (inodeGet w i) :=
  hi.set_same (fun _ => ⟨hheld, (hi.node i hheld).inUse⟩) rfl rfl

theorem NodeInv.put (hheld : Held w i) : NodeInv (inodePut w i) := by
  refine hi.set_same (fun hrefs => ⟨hheld, ?_⟩) rfl rfl
  have hne : (w.pool i).refcnt - 1 ≠ 0 := Nat.pos_iff_ne_zero.mp hrefs
  simp only [(hi.node i hheld).inUse, hne, Bool.true_and, ne_eq, not_false_eq_true, decide_true]

end

theorem procFindByPid_mem (h : procFindByPid k pid = some p) : p ∈ k.procs ∧ p.pid = pid := by
  refine ⟨mem_of_find?_eq_some h, ?_⟩
  have := find?_some h
  simp only [decide_eq_true_eq] at this
  exact this.1

theorem NodeInv.root (hi : NodeInv w) (name : Name) : NodeInv (procRootLookup w name).2 := by
  unfold procRootLookup
  split
  · exact hi
  · split
    · exact hi
    · split
      · exact hi
      · next pid _ pcb hfind =>
        obtain ⟨hmem, hpid⟩ := procFindByPid_mem hfind
        refine hi.make .piddir rfl (hi.sched.seq _ (Proc.mem_order.mpr ⟨pcb, hmem, rfl⟩))
          fun p hp hpg => ?_
        rw [hi.sched.eq_of_generation hp hmem hpg, hpid]

theorem NodeInv.lookup (hi : NodeInv w) (hheld : Held w i) (name : Name) :
    NodeInv (piddirLookup w i name).2 := by
  unfold piddirLookup
  split
  · exact hi.get hheld
  · split
    · exact hi
    · split
      · exact hi
      · next kind _ =>
        have hok := hi.node i hheld
        exact hi.make kind hok.generation hok.old hok.pid

theorem NodeInv.step (hi : NodeInv w) {l : Label} (hstep : Step w l w') : NodeInv w' := by
  cases hstep with
  | kernel info' h => exact hi.kernel info' h
  | root name => exact hi.root name
  | lookup name hheld _ => exact hi.lookup hheld name
  | get hheld => exact hi.get hheld
  | put hheld => exact hi.put hheld

theorem NodeInv.boot (pid : ℤ) (entry sp : BitVec 64) (info : ℤ → ProcInfo) :
    NodeInv (bootWorld pid entry sp info) :=
  ⟨SchedInv.boot pid entry sp, fun _ h => absurd h (lt_irrefl 0)⟩

/-! ### What a node answers -/

/-- What `readlink` returns of a link with this target. -/
def linkBytes (src : List UInt8) (n : ℕ) : ℤ × List UInt8 :=
  let s := cstr (src.take 256)
  let copy := min n (min 255 s.length)
  (copy, s.take copy)

def ProcKind.isFile : ProcKind → Bool
  | .status | .cmdline | .stat | .statm => true
  | _ => false

def ProcKind.isLink : ProcKind → Bool
  | .cwd | .exe | .root => true
  | _ => false

/-- What is read through the node in place `i` is of the process instance it was
looked up for, and of no other. -/
structure Shows (w : World) (i : ℕ) : Prop where
  file : (w.pool i).kind.isFile = true → ∀ p ∈ w.k.procs, p.generation = w.owner i → ∀ off n,
    ∃ t, fileText (w.pool i).kind (takeSnap p (w.info p.pid)) = some t ∧
      perform w i (.read off n) = .bytes (window t off n)
  cwd : (w.pool i).kind = .cwd → ∀ p ∈ w.k.procs, p.generation = w.owner i → ∀ n,
    perform w i (.readlink n) = .bytes (linkBytes (w.info p.pid).cwdPath n)
  exe : (w.pool i).kind = .exe → ∀ p ∈ w.k.procs, p.generation = w.owner i → ∀ n,
    perform w i (.readlink n) = .bytes (linkBytes (w.info p.pid).exePath n)
  -- once the process is gone
  goneFile : (w.pool i).kind.isFile = true → (∀ p ∈ w.k.procs, p.generation ≠ w.owner i) →
    ∀ off n, perform w i (.read off n) = .bytes (-ESRCH, [])
  goneLink : (w.pool i).kind = .cwd ∨ (w.pool i).kind = .exe →
    (∀ p ∈ w.k.procs, p.generation ≠ w.owner i) →
    ∀ n, perform w i (.readlink n) = .bytes (-ESRCH, [])
  -- what is read of no process
  listing : (w.pool i).kind = .piddir → ∀ off n,
    perform w i (.getdents off n) = .entry (piddirGetdents i off n)
  root : (w.pool i).kind = .root → ∀ n, perform w i (.readlink n) = .bytes (linkBytes (text "/") n)
  -- what a node of its kind does not do
  noRead : (w.pool i).kind.isFile = false → ∀ off n, (perform w i (.read off n)).failed
  noLink : (w.pool i).kind.isLink = false → ∀ n, (perform w i (.readlink n)).failed
  noListing : (w.pool i).kind ≠ .piddir → ∀ off n, (perform w i (.getdents off n)).failed

theorem procFindByPid_eq (ht : Proc.Table k) (hp : p ∈ k.procs) :
    procFindByPid k p.pid = some p := by
  have hfind : (procFindByPid k p.pid).isSome := by
    rw [procFindByPid, find?_isSome]
    exact ⟨p, hp, by simpa using ht.used p hp⟩
  obtain ⟨q, hq⟩ := Option.isSome_iff_exists.mp hfind
  obtain ⟨hmem, hpid⟩ := procFindByPid_mem hq
  rw [hq, ht.eq_of_pid hmem hp hpid]

theorem nodePcb_alive (hi : NodeInv w) (hheld : Held w i) (hp : p ∈ w.k.procs)
    (hpg : p.generation = w.owner i) : nodePcb w (w.pool i) = some p := by
  have hok := hi.node i hheld
  have hsame : p.generation = (w.pool i).generation := hpg.trans hok.generation.symm
  unfold nodePcb
  rw [← hok.pid p hp hpg, procFindByPid_eq hi.sched.toTable hp]
  exact if_neg fun h => h hsame

theorem nodePcb_gone (hi : NodeInv w) (hheld : Held w i)
    (hgone : ∀ p ∈ w.k.procs, p.generation ≠ w.owner i) : nodePcb w (w.pool i) = none := by
  unfold nodePcb
  split
  · rfl
  · next pcb hfind =>
    rw [if_pos fun h => ?_]
    exact hgone pcb (procFindByPid_mem hfind).1 (h.trans (hi.node i hheld).generation)

theorem perform_read (hkind : (w.pool i).kind.isFile = true) (off n : ℕ) :
    perform w i (.read off n) = .bytes (piddirFileRead w (w.pool i) off n) := by
  unfold perform
  generalize w.pool i = pn at *
  obtain ⟨kind, pid, generation, inUse, refcnt⟩ := pn
  cases kind <;> first | rfl | cases hkind

theorem fileText_isFile {kind : ProcKind} (hkind : kind.isFile = true) (s : ProcSnap) :
    ∃ t, fileText kind s = some t := by
  cases kind <;> first | exact ⟨_, rfl⟩ | cases hkind

theorem perform_readlink (hkind : (w.pool i).kind = .cwd ∨ (w.pool i).kind = .exe ∨
    (w.pool i).kind = .root)
    (n : ℕ) : perform w i (.readlink n) = .bytes (piddirLinkReadlink w (w.pool i) n) := by
  unfold perform
  rcases hkind with h | h | h <;> simp only [h]

theorem readlink_eq {src : List UInt8} {n : ℕ}
    (h : pcbLinkTarget w pn 256 = (((cstr (src.take 256)).length : ℤ),
    (cstr (src.take 256)).take 255)) :
    piddirLinkReadlink w pn n = linkBytes src n := by
  unfold piddirLinkReadlink linkBytes
  rw [h]
  generalize cstr (src.take 256) = s
  have hpos : ¬ ((s.length : ℤ) < 0) := by omega
  have hcut : (if 255 < (s.length : ℤ).toNat then 255 else (s.length : ℤ).toNat) =
      min 255 s.length := by
    rw [Int.toNat_natCast]
    split <;> omega
  have hroom : ∀ c : ℕ, (if n < c then n else c) = min n c := fun c => by
    split <;> omega
  dsimp only
  rw [if_neg hpos, hcut, hroom, take_take]
  congr 2
  omega

theorem readlink_pcb (hp : nodePcb w pn = some p) (hroot : pn.kind ≠ .root)
    (n : ℕ) : piddirLinkReadlink w pn n =
      linkBytes (if pn.kind = .cwd then (w.info p.pid).cwdPath else (w.info p.pid).exePath) n := by
  refine readlink_eq ?_
  unfold pcbLinkTarget
  rw [if_neg (by decide), if_neg hroot, hp]

theorem readlink_gone (hp : nodePcb w pn = none) (hroot : pn.kind ≠ .root) (n : ℕ) :
    piddirLinkReadlink w pn n = (-ESRCH, []) := by
  have htarget : pcbLinkTarget w pn 256 = (-ESRCH, []) := by
    unfold pcbLinkTarget
    rw [if_neg (by decide), if_neg hroot, hp]
  unfold piddirLinkReadlink
  rw [htarget]
  rfl

theorem readlink_root (hroot : pn.kind = .root) (n : ℕ) :
    piddirLinkReadlink w pn n = linkBytes (text "/") n := by
  refine readlink_eq ?_
  unfold pcbLinkTarget
  rw [if_neg (by decide), if_pos hroot]
  rfl

theorem NodeInv.shows (hi : NodeInv w) (hheld : Held w i) : Shows w i where
  file hkind p hp hpg off n := by
    obtain ⟨t, ht⟩ := fileText_isFile hkind (takeSnap p (w.info p.pid))
    refine ⟨t, ht, ?_⟩
    rw [perform_read hkind, piddirFileRead, nodePcb_alive hi hheld hp hpg]
    simp only [ht]
  cwd hkind p hp hpg n := by
    rw [perform_readlink (.inl hkind),
      readlink_pcb (nodePcb_alive hi hheld hp hpg) (by simp [hkind]),
      if_pos hkind]
  exe hkind p hp hpg n := by
    rw [perform_readlink (.inr (.inl hkind)),
      readlink_pcb (nodePcb_alive hi hheld hp hpg) (by simp [hkind]), if_neg (by simp [hkind])]
  goneFile hkind hgone off n := by
    rw [perform_read hkind, piddirFileRead, nodePcb_gone hi hheld hgone]
  goneLink hkind hgone n := by
    rw [perform_readlink (hkind.imp_right .inl), readlink_gone (nodePcb_gone hi hheld hgone)]
    rcases hkind with h | h <;> simp [h]
  listing hkind off n := by
    unfold perform
    simp only [hkind]
  root hkind n := by
    rw [perform_readlink (.inr (.inr hkind)), readlink_root hkind]
  noRead hkind off n := by
    unfold perform
    generalize w.pool i = pn at *
    obtain ⟨kind, pid, generation, inUse, refcnt⟩ := pn
    cases kind <;> first | exact trivial | exact (by decide : -EISDIR < 0) | exact nomatch hkind
  noLink hkind n := by
    unfold perform
    generalize w.pool i = pn at *
    obtain ⟨kind, pid, generation, inUse, refcnt⟩ := pn
    cases kind <;> first | exact trivial | exact nomatch hkind
  noListing hkind off n := by
    unfold perform
    generalize w.pool i = pn at *
    obtain ⟨kind, pid, generation, inUse, refcnt⟩ := pn
    cases kind <;> first | exact absurd rfl hkind | exact trivial | exact (by decide : -ENOTDIR < 0)

/-- In every run, whatever forks, exits, is waited for and gets a pid again: what is
read through a held node is of the process instance it was looked up for. -/
theorem held_node_shows_its_process (pid : ℤ) (entry sp : BitVec 64)
    (info : ℤ → ProcInfo) {w : World}
    {i : ℕ} (hrun : Reaches Step (fun _ _ => True) (bootWorld pid entry sp info) w)
    (hheld : Held w i) :
    Shows w i :=
  (hrun.invariant (NodeInv.boot pid entry sp info) fun _ _ _ hi _ hstep => hi.step hstep).shows
    hheld

/-- Init forks a child and looks up its directory and the `root` link in it. -/
def lookups : List Label :=
  [.kernel (.dispatch 1), .kernel (.enter fun _ => 0), .kernel (.call (.fork .ok)),
    .root (text "2"),
    .lookup 0 (text "root"), .lookup 0 (text "stat")]

def childDies : List Label :=
  [.kernel (.call .yield), .kernel (.dispatch 2), .kernel (.enter fun _ => 0),
    .kernel (.call (.exit 0)), .kernel (.dispatch 1), .kernel (.call (.wait4 (-1) 0 none))]

def blank : ProcInfo := ⟨[], [], [], 0, 0, []⟩

theorem held_node_shows_its_process_stat : ∃ w, Reaches Step (fun _ _ => True)
    (bootWorld 1 0 0 fun _ => blank) w ∧ Held w 2 ∧ (w.pool 2).kind = .stat ∧
    (∃ p ∈ w.k.procs, p.generation = w.owner 2) ∧ Shows w 2 := by
  have hrun : (runWorld lookups (bootWorld 1 0 0 fun _ => blank)).any fun w =>
      Held w 2 ∧ (w.pool 2).kind = .stat ∧ ∃ p ∈ w.k.procs, p.generation = w.owner 2 := by
    decide +kernel
  obtain ⟨w, hw, hP⟩ := (Option.any_eq_true _ _).mp hrun
  obtain ⟨hheld, hkind, halive⟩ := of_decide_eq_true hP
  have hreach := runWorld_reaches hw
  exact ⟨w, hreach, hheld, hkind, halive, held_node_shows_its_process 1 0 0 (fun _ => blank)
    hreach hheld⟩

/-- The directory of a process that is gone is still listed, and its `root` link read. -/
theorem gone_directory_listed : ∃ w, Reaches Step (fun _ _ => True)
    (bootWorld 1 0 0 fun _ => blank) w ∧ Held w 0 ∧ Held w 1 ∧
    (∀ p ∈ w.k.procs, p.generation ≠ w.owner 0 ∧ p.generation ≠ w.owner 1) ∧
    perform w 0 (.getdents 0 64) = .entry (32, some ⟨0, 1, 32, DT_REG, text "status"⟩, 1) ∧
    perform w 1 (.readlink 64) = .bytes (1, text "/") := by
  have hrun : (runWorld (lookups ++ childDies) (bootWorld 1 0 0 fun _ => blank)).any fun w =>
      Held w 0 ∧ Held w 1 ∧ (∀ p ∈ w.k.procs, p.generation ≠ w.owner 0 ∧ p.generation ≠ w.owner 1) ∧
      perform w 0 (.getdents 0 64) = .entry (32, some ⟨0, 1, 32, DT_REG, text "status"⟩, 1) ∧
      perform w 1 (.readlink 64) = .bytes (1, text "/") := by
    decide +kernel
  obtain ⟨w, hw, hP⟩ := (Option.any_eq_true _ _).mp hrun
  exact ⟨w, runWorld_reaches hw, of_decide_eq_true hP⟩

end Sbunix.Procfs
