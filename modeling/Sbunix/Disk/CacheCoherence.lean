import Sbunix.Lib.Machine
import Sbunix.Disk.CrashAtomicity

/-!
# Coherence of the buffer cache

A run of the cache and the log after a mount: blocks are fetched and released,
filled buffers are logged or written, transactions begin and end. Beside the
machine a run carries the map from block numbers to the contents last logged or
written, which is what every fetch must return, and the buffers callers hold.
-/

namespace Sbunix.Disk

open Lib Kern Function

/-- One call on the cache or the log. A buffer is filled right before it is logged or written. -/
inductive CacheOp
  | beginOp
  | bread (b : ℕ)
  | logWrite (i : ℕ) (v : Block)
  | bwrite (i : ℕ) (v : Block)
  | brelse (i : ℕ)
  | endOp

structure CacheState where
  machine : Machine
  held : List ℕ
  contents : ℕ → Block

instance (g : Geometry) : DecidablePred g.InLog := fun b =>
  inferInstanceAs (Decidable (g.start ≤ b ∧ b < g.start + g.size))

/-- The blocks `end_op` gives new contents are those of the log; what it installs at
home must be what was logged. -/
def Geometry.afterCommit (g : Geometry) (ws : List (ℕ × Block)) (contents : ℕ → Block) (b : ℕ) :
    Block :=
  if g.InLog b then applyWrites ws contents b else contents b

inductive CacheStep (g : Geometry) : CacheState → CacheOp → CacheState → Prop
  | beginOp {s m'} : beginOp s.machine = (some (), m') →
      CacheStep g s .beginOp ⟨m', s.held, s.contents⟩
  | bread {s m'} (b i : ℕ) : bread b s.machine = (some i, m') →
      CacheStep g s (.bread b) ⟨m', i :: s.held, s.contents⟩
  | logWrite {s m'} (i : ℕ) (v : Block) : (do setData i v; logWrite i) s.machine = (some (), m') →
      CacheStep g s (.logWrite i v)
        ⟨m', s.held, update s.contents (s.machine.buf i).blockno v⟩
  | bwrite {s m'} (i : ℕ) (v : Block) : (do setData i v; bwrite i) s.machine = (some (), m') →
      CacheStep g s (.bwrite i v)
        ⟨m', s.held, update s.contents (s.machine.buf i).blockno v⟩
  | brelse {s m'} (i : ℕ) : brelse i s.machine = (some (), m') →
      CacheStep g s (.brelse i) ⟨m', s.held.erase i, s.contents⟩
  | endOp {s m'} : endOp s.machine = (some (), m') → CacheStep g s .endOp
        ⟨m', s.held, g.afterCommit (m'.writes.drop s.machine.writes.length) s.contents⟩

/-- How the filesystem uses the cache: it touches only buffers it holds, logs only home
blocks, and leaves the writing of a logged buffer to `end_op`. -/
def Issued (g : Geometry) (s : CacheState) : CacheOp → Prop
  | .logWrite i _ => i ∈ s.held ∧ g.Home (s.machine.buf i).blockno
  | .bwrite i _ => i ∈ s.held ∧ (s.machine.buf i).dirty = false
  | .brelse i => i ∈ s.held
  | _ => True

/-- A run starts when `recover_from_log` has returned, on whatever disk it found. -/
def Mounted (g : Geometry) (s : CacheState) : Prop :=
  ∃ d, recoverFromLog (boot g d) = (some (), s.machine) ∧ s.held = [] ∧
    s.contents = applyWrites s.machine.writes d

structure CacheInv (g : Geometry) (s : CacheState) : Prop where
  log : LogInv g s.machine.disk s.held s.machine
  contents : s.machine.view = s.contents
  rest : s.machine.log.outstanding = false → s.machine.log.nblocks = 0

/-! ## Mounting -/

structure Rested (g : Geometry) (m : Machine) : Prop where
  at_log : m.log.At g
  nblocks : m.log.nblocks = 0
  clean : ∀ j ∈ m.lru, (m.buf j).dirty = false

variable {g : Geometry} {held : List ℕ} {m m' : Machine} {b i : ℕ} {s : CacheState} {v : Block}
    {P : ℕ → Block}

theorem Rested.logInv (h : Rested g m)
    (hc : Coherent m) (hm : ∀ j ∈ held, j ∈ m.lru ∧ (m.buf j).valid = true)
    (hn : ∀ j ∈ m.lru, (held.count j : ℤ) ≤ (m.buf j).refcnt) :
    LogInv g m.disk held m where
  coherent := hc
  at_log := h.at_log
  disk := rfl
  le := by rw [h.nblocks]; exact Nat.zero_le _
  home := by simp [h.nblocks]
  inj := by simp [h.nblocks]
  logged := by simp [h.nblocks]
  dirty j hj hd := by simp [h.clean j hj] at hd
  held_mem := hm
  held_count := hn

theorem checkEntries_some {lh : Block} {n : ℕ} {ok : Bool}
    (he : checkEntries lh i n m = (some ok, m')) :
    ∃ blocks, m' = { m with log := { m.log with blocks := blocks } } ∧
      (∀ k < i, blocks k = m.log.blocks k) ∧
      (ok = true → ∀ k, i ≤ k → k < i + n → m.log.oob (blocks k) = false) := by
  induction n generalizing i m with
  | zero =>
    obtain ⟨-, rfl⟩ := pure_eq_some.mp he
    exact ⟨m.log.blocks, rfl, fun _ _ => rfl, fun _ k h1 h2 => by omega⟩
  | succ n ih =>
    unfold checkEntries at he
    rw [get_bind, Kern.ite_apply] at he
    split at he
    · obtain ⟨rfl, rfl⟩ := pure_eq_some.mp he
      exact ⟨m.log.blocks, rfl, fun _ _ => rfl, fun h => by simp at h⟩
    · next hok =>
      rw [bind_some (setLog_apply _ _)] at he
      obtain ⟨blocks, rfl, hold, hnew⟩ := ih he
      refine ⟨blocks, rfl, fun k hk => ?_, fun h k h1 h2 => ?_⟩
      · rw [hold k (by omega)]
        exact update_of_ne (by omega) _ _
      · rcases Nat.lt_or_eq_of_le h1 with hlt | rfl
        · exact hnew h k hlt (by omega)
        · rw [hold i (by omega)]
          simpa using hok

theorem installTrans_wrote (hc : Coherent m)
    (hne : ∀ i < m.log.nblocks, m.log.blocks i ≠ m.log.start + 1 + i)
    (he : installTrans m = (some (), m')) : ∃ ws, Wrote m m' ws ∧ m'.log = m.log := by
  have hloop := Kern.Spec.loop (I := fun _ s => ∃ ws, Wrote m s ws ∧ s.log = m.log)
    (b := installBlock) (i := 0) (n := m.log.nblocks) (E := fun _ => True) ?_
  · unfold installTrans at he
    rw [get_bind] at he
    exact (hloop m ⟨[], Wrote.refl hc, rfl⟩).1 () m' he
  · rintro i - hi s ⟨ws, hw, hl⟩
    refine ⟨fun a s' he => ?_, fun _ _ => trivial⟩
    have hne' : s.log.blocks i ≠ s.log.start + 1 + i := by
      rw [hl]
      exact hne i (by omega)
    rcases installBlock_spec hw.coherent hne' with ⟨s'', _, hn, _⟩ | ⟨s'', he', hp⟩
    · simp [hn] at he
    · obtain rfl : s'' = s' := by simpa [he'] using he
      exact ⟨_, hw.trans hc hp.1, hp.2.trans hl⟩

theorem writeLogHeader_wrote (hc : Coherent m)
    (he : writeLogHeader m = (some (), m')) : ∃ ws, Wrote m m' ws ∧ m'.log = m.log := by
  rcases writeLogHeader_spec hc with ⟨_, hn⟩ | ⟨m'', he', hp⟩
  · simp [hn] at he
  · obtain rfl : m'' = m' := by simpa [he'] using he
    exact ⟨_, hp⟩

variable {m₀ : Machine} {s' : CacheState} {op : CacheOp} {j : ℕ}

theorem clearLog_wrote {ws : List (ℕ × Block)} (hc : Coherent m₀) (hw : Wrote m₀ m ws)
    (he : (do setLog fun l => { l with nblocks := 0 }; writeLogHeader) m = (some (), m')) :
    ∃ vs, Wrote m₀ m' vs ∧ m'.log = { m.log with nblocks := 0 } := by
  rw [bind_some (setLog_apply _ _)] at he
  have hw' := hw.withLog { m.log with nblocks := 0 }
  obtain ⟨vs, hv, hl⟩ := writeLogHeader_wrote hw'.coherent he
  exact ⟨ws ++ vs, hw'.trans hc hv, hl⟩

theorem brelse_wrote {m₁ : Machine} (hc : Coherent m₀) (hf : Fetched m₀ m₁ b i)
    (l : Log) (he : brelse i { m₁ with log := l } = (some (), m')) :
    Wrote m₀ m' [] ∧ m'.log = l := by
  obtain ⟨m'', he', hr⟩ := brelse_spec (hf.coherent.withLog l) hf.mem
    (show 0 < (m₁.buf i).refcnt from hf.pinned hc)
  obtain rfl : m'' = m' := by simpa [he'] using he
  exact ⟨wrote_of_fetched_released hf hr, hr.log⟩

theorem Log.not_oob_ne {l : Log} (hl : l.At g) (h : l.oob b = false)
    (hi : i < LOG_HDR_MAX) : b ≠ l.start + 1 + i := by
  obtain ⟨hs, hz, -⟩ := hl
  have h1 := g.size_gt
  have h2 := g.log_le
  have h3 := g.disk_lt
  have hmod : (l.start + l.size) % 2 ^ 32 = g.start + g.size := by
    rw [hs, hz]
    exact Nat.mod_eq_of_lt (by omega)
  rintro rfl
  unfold Log.oob at h
  rw [hmod, hs] at h
  simp only [Bool.or_eq_false_iff, Bool.and_eq_false_iff, decide_eq_false_iff_not] at h
  omega

theorem recoverFromLog_wrote {d : ℕ → Block} (he : recoverFromLog (boot g d) = (some (), m)) :
    ∃ ws, Wrote (boot g d) m ws ∧ m.log.At g ∧ m.log.nblocks = 0 := by
  have hc : Coherent (boot g d) := coherent_binit _ _
  unfold recoverFromLog at he
  rw [get_bind] at he
  obtain ⟨hb, m₁, h₁, he⟩ := bind_eq_some.mp he
  have hf := bread_some hc h₁
  have hat : m₁.log.At g := hf.log ▸ ⟨rfl, rfl, rfl⟩
  rw [get_bind, Kern.ite_apply] at he
  split at he
  · obtain ⟨⟨⟩, m₂, h₂, he⟩ := bind_eq_some.mp he
    obtain ⟨hw, hl⟩ := brelse_wrote hc hf m₁.log h₂
    obtain ⟨ws, hw', hl'⟩ := clearLog_wrote hc hw he
    rw [hl] at hl'
    exact ⟨ws, hw', hl' ▸ hat, by rw [hl']⟩
  next hn =>
  rw [bind_some (setLog_apply _ _)] at he
  obtain ⟨ok, m₂, h₂, he⟩ := bind_eq_some.mp he
  obtain ⟨blocks, rfl, -, hok⟩ := checkEntries_some h₂
  rw [Kern.ite_apply] at he
  split at he
  · obtain ⟨⟨⟩, m₃, h₃, he⟩ := bind_eq_some.mp he
    obtain ⟨hw, hl⟩ := brelse_wrote hc hf _ h₃
    obtain ⟨ws, hw', hl'⟩ := clearLog_wrote hc hw he
    rw [hl] at hl'
    exact ⟨ws, hw', hl' ▸ hat, by rw [hl']⟩
  next hok' =>
  obtain ⟨⟨⟩, m₃, h₃, he⟩ := bind_eq_some.mp he
  obtain ⟨hw, hl⟩ := brelse_wrote hc hf _ h₃
  have hat₃ : m₃.log.At g := by
    rw [hl]
    exact hat
  rw [get_bind, Kern.ite_apply] at he
  split at he
  · obtain ⟨⟨⟩, m₄, h₄, he⟩ := bind_eq_some.mp he
    have hne : ∀ i < m₃.log.nblocks, m₃.log.blocks i ≠ m₃.log.start + 1 + i := by
      intro i hi
      rw [hl] at hi ⊢
      have := hok (by simpa using hok') i (Nat.zero_le _) (by simpa using hi)
      exact Log.not_oob_ne (l := m₁.log) hat this (lt_of_lt_of_le hi (not_lt.mp hn))
    obtain ⟨vs, hv, hl₄⟩ := installTrans_wrote hw.coherent hne h₄
    obtain ⟨ws, hw', hl'⟩ := clearLog_wrote hc (hw.trans hc hv) he
    rw [hl₄] at hl'
    exact ⟨ws, hw', hl' ▸ hat₃, by rw [hl']⟩
  · next h0 =>
    cases he
    exact ⟨[], hw, hat₃, by omega⟩

theorem Mounted.inv (h : Mounted g s) : CacheInv g s := by
  obtain ⟨d, he, hheld, hcont⟩ := h
  obtain ⟨ws, hw, hat, hn⟩ := recoverFromLog_wrote he
  have hidle := (idle_boot g d).wrote (coherent_binit _ _) hw
  have hr : Rested g s.machine := ⟨hat, hn, fun j hj => (hidle j hj).2⟩
  refine ⟨?_, ?_, fun _ => hn⟩
  · rw [hheld]
    refine hr.logInv hw.coherent (by simp) fun j hj => ?_
    rw [(hidle j hj).1]
    simp
  · rw [hcont, hw.view, view_boot, hw.writes]
    rfl

/-! ## One call -/

theorem fillLog_outstanding
    (he : (do setData i v; logWrite i) m = (some (), m')) : m.log.outstanding = true := by
  by_contra ho
  unfold setData logWrite at he
  rw [modify_bind, get_bind, Kern.ite_apply, if_pos (by simpa [Machine.setBuf] using ho)] at he
  simp at he

theorem LogInv.store (h : LogInv g P held m) (hd : (m.buf i).dirty = false)
    (hs : Stored m m' i b v) : LogInv g m'.disk held m' := by
  have hsame : ∀ j, (m'.buf j).valid = (m.buf j).valid ∧
      (m'.buf j).blockno = (m.buf j).blockno ∧ (m'.buf j).refcnt = (m.buf j).refcnt ∧
      (m'.buf j).dirty = (m.buf j).dirty := by
    intro j
    rw [hs.buf]
    split
    · next hj => subst hj; simp [hd]
    · simp
  refine h.congr hs.coherent hs.log rfl (fun j => (hsame j).2.2.2) (fun j _ => (hsame j).2.1) ?_ ?_
  · intro j hj
    rw [(hsame j).1, hs.lru]
    exact h.held_mem j hj
  · intro j hj
    rw [(hsame j).2.2.1]
    exact h.held_count j (hs.lru ▸ hj)

theorem LogInv.begin (h : LogInv g P held m) (hrest : m.log.outstanding = false → m.log.nblocks = 0)
    (he : beginOp m = (some (), m')) :
    LogInv g P held m' ∧ m'.view = m.view ∧ m'.disk = m.disk ∧ m'.log.outstanding = true ∧
      ∀ j, m'.buf j = m.buf j := by
  unfold beginOp at he
  rw [get_bind, Kern.ite_apply] at he
  split at he
  · simp at he
  next ho =>
  have h0 := hrest (by simpa using ho)
  rw [setLog_apply, Prod.mk.injEq] at he
  obtain ⟨-, rfl⟩ := he
  refine ⟨⟨h.coherent.withLog _, h.at_log, h.disk, Nat.zero_le _, by simp, by simp, by simp, ?_,
    h.held_mem, h.held_count⟩, rfl, rfl, rfl, fun _ => rfl⟩
  intro j hj hd
  obtain ⟨k, hk, -⟩ := h.dirty j hj hd
  omega

theorem TxnInv.applyWrites_view (h : TxnInv g P held m) (hb : ¬ g.InLog b) :
    applyWrites h.endOpWrites m.view b = m.view b := by
  unfold TxnInv.endOpWrites
  rw [commitWrites_notMem h.txn _ _ _ hb]
  by_cases hh : ∃ i < h.txn.n, h.txn.home i = b
  · obtain ⟨i, hi, rfl⟩ := hh
    rw [post_home h.txn m.view hi, ← h.post_eq_view, post_home h.txn P hi]
  · push Not at hh
    exact post_of_notMem h.txn m.view hh

theorem LogInv.endOp (h : LogInv g P held m) (he : endOp m = (some (), m')) :
    LogInv g m'.disk held m' ∧ m'.log.nblocks = 0 ∧
      m'.view = g.afterCommit (m'.writes.drop m.writes.length) m.view ∧
      ∀ j, (m.buf j).refcnt ≠ 0 → (m'.buf j).valid = (m.buf j).valid ∧
        (m'.buf j).blockno = (m.buf j).blockno := by
  have ho : m.log.outstanding = true := by
    by_contra ho
    unfold Disk.endOp at he
    rw [get_bind, Kern.ite_apply, if_pos (by simpa using ho)] at he
    simp at he
  have ht : TxnInv g P held m := ⟨h, ho⟩
  obtain ⟨hw, hclean, bufs, hl⟩ := (ht.endOp_spec m rfl).1 () m' he
  have hmem := h.coherent.mem_iff hw.coherent
  have hr : Rested g m' := ⟨by rw [hl]; exact h.at_log, by rw [hl], hclean⟩
  refine ⟨hr.logInv hw.coherent ?_ ?_, by rw [hl], ?_, hw.pinned⟩
  · intro j hj
    obtain ⟨hjl, hv⟩ := h.held_mem j hj
    have hpos : 0 < held.count j := List.count_pos_iff.mpr hj
    have hcnt := h.held_count j hjl
    exact ⟨(hmem j).mpr hjl, (hw.pinned j (by omega)).1.trans hv⟩
  · intro j hj
    rw [hw.refcnt]
    exact h.held_count j ((hmem j).mp hj)
  · funext b
    rw [hw.writes, List.drop_left, hw.view, Geometry.afterCommit]
    split
    · rfl
    · next hb => exact ht.applyWrites_view hb

theorem CacheInv.step (h : CacheInv g s)
    (hi : Issued g s op) (hs : CacheStep g s op s') : CacheInv g s' := by
  obtain ⟨hlog, hcont, hrest⟩ := h
  cases hs with
  | beginOp he =>
    obtain ⟨h1, h2, h3, h4, -⟩ := hlog.begin hrest he
    exact ⟨h3 ▸ h1, h2.trans hcont, fun h => by simp [h4] at h⟩
  | bread b i he =>
    have hf := bread_some hlog.coherent he
    exact ⟨hf.disk ▸ hlog.read he, (funext hf.view).trans hcont, hf.log ▸ hrest⟩
  | logWrite i v he =>
    obtain ⟨hheld, hhome⟩ := hi
    obtain ⟨hl, hv⟩ := hlog.held_mem i hheld
    obtain ⟨hbuf, hdisk, hlru⟩ := hlog.fillLog_buf hheld he
    have h1 := hlog.write hheld hhome he
    refine ⟨hdisk ▸ h1, ?_, ?_⟩
    · rw [← hcont]
      exact (coherent_fill hlog.coherent hl hv hdisk hlru hbuf).2
    · intro hout
      obtain ⟨-, ⟨_, _, _, rfl⟩ | ⟨_, rfl⟩⟩ := fillLog_cases he
      · simp [fillLog_outstanding he] at hout
      · simp [fillLog_outstanding he] at hout
  | bwrite i v he =>
    obtain ⟨hheld, hd⟩ := hi
    obtain ⟨hl, hv⟩ := hlog.held_mem i hheld
    have hst := hlog.coherent.store hl hv rfl v
    obtain rfl := (Prod.mk.inj ((store_apply rfl v).symm.trans he)).2
    exact ⟨hlog.store hd hst, by rw [hst.view, hcont], hst.log ▸ hrest⟩
  | brelse i he =>
    have hr := hlog.released hi he
    exact ⟨hr.disk ▸ hlog.release hi he, (funext hr.view).trans hcont, hr.log ▸ hrest⟩
  | endOp he =>
    obtain ⟨h1, h2, h3, -⟩ := hlog.endOp he
    exact ⟨h1, by rw [h3, hcont], fun _ => h2⟩

theorem CacheInv.of_reaches {s₀ : CacheState} (h₀ : Mounted g s₀)
    (hr : Reaches (CacheStep g) (Issued g) s₀ s) : CacheInv g s :=
  hr.invariant h₀.inv fun _ _ _ h hi hs => h.step hi hs

/-! ## Recycling -/

/-- Only `bread` gives a buffer to another block, and it takes a clean one nobody holds. -/
theorem bread_keeps_busy (he : bread b m = (some i, m'))
    (hj : (m.buf j).refcnt ≠ 0 ∨ (m.buf j).dirty = true) :
    (m'.buf j).blockno = (m.buf j).blockno ∧ (m'.buf j).valid = (m.buf j).valid ∧
      (m'.buf j).data = (m.buf j).data := by
  rcases bread_cases b m with ⟨k, _, hk⟩ | ⟨k, _, hr, hk⟩ | ⟨_, _, hk⟩
  · obtain rfl := (Prod.mk.inj (hk.symm.trans he)).2
    by_cases hjk : j = k
    · subst hjk
      simp [Machine.setBuf]
    · simp [Machine.setBuf, update_of_ne hjk]
  · obtain rfl := (Prod.mk.inj (hk.symm.trans he)).2
    obtain ⟨h0, hd⟩ := Machine.evictable_iff.mp (List.find?_some hr)
    have hjk : j ≠ k := by
      rintro rfl
      simp [h0, hd] at hj
    simp [Machine.setBuf, Machine.toHead, update_of_ne hjk]
  · simp [hk] at he

/-- A buffer in use keeps its block through every call; one that is only dirty keeps it
until the `end_op` that commits it. -/
theorem CacheInv.keeps_busy (h : CacheInv g s) (hi : Issued g s op) (hs : CacheStep g s op s')
    (hj : (s.machine.buf j).refcnt ≠ 0 ∨ (s.machine.buf j).dirty = true ∧ op ≠ .endOp) :
    (s'.machine.buf j).blockno = (s.machine.buf j).blockno ∧
      (s'.machine.buf j).valid = (s.machine.buf j).valid := by
  obtain ⟨hlog, -, hrest⟩ := h
  cases hs with
  | beginOp he =>
    obtain ⟨-, -, -, -, hb⟩ := hlog.begin hrest he
    simp [hb]
  | bread b i he =>
    obtain ⟨h1, h2, -⟩ := bread_keeps_busy he (hj.imp id And.left)
    exact ⟨h1, h2⟩
  | logWrite i v he =>
    obtain ⟨hbuf, -, -⟩ := hlog.fillLog_buf hi.1 he
    simp only [hbuf]
    by_cases hji : j = i
    · subst hji
      simp
    · simp [update_of_ne hji]
  | bwrite i v he =>
    obtain ⟨hl, hv⟩ := hlog.held_mem i hi.1
    have hst := hlog.coherent.store hl hv rfl v
    obtain rfl := (Prod.mk.inj ((store_apply rfl v).symm.trans he)).2
    simp only [hst.buf]
    split
    · next hji => subst hji; simp
    · simp
  | brelse i he =>
    have hr := hlog.released hi he
    simp only [hr.buf]
    split
    · next hji => subst hji; simp
    · simp
  | endOp he =>
    obtain ⟨-, -, -, hp⟩ := hlog.endOp he
    have hne : (s.machine.buf j).refcnt ≠ 0 := hj.resolve_right fun h => h.2 rfl
    exact ⟨(hp j hne).2, (hp j hne).1⟩

/-! ## The coherence theorem -/

/-- In every state a run reaches, a block has at most one valid buffer; fetching a block
returns what was last logged or written for it, and returns whenever some buffer is clean
and released; no call gives a pinned or an uncommitted buffer to another block, and neither
does any fetch inside `end_op`. -/
theorem buffer_cache_coherent (g : Geometry) (s₀ s : CacheState) (h₀ : Mounted g s₀)
    (hr : Reaches (CacheStep g) (Issued g) s₀ s) :
    (∀ i < NBUF, ∀ j < NBUF, (s.machine.buf i).valid = true → (s.machine.buf j).valid = true →
      (s.machine.buf i).blockno = (s.machine.buf j).blockno → i = j) ∧
    (∀ b i m', bread b s.machine = (some i, m') → i < NBUF ∧ (m'.buf i).valid = true ∧
      (m'.buf i).blockno = b ∧ (m'.buf i).data = s.contents b) ∧
    (∀ b, (∃ j < NBUF, s.machine.evictable j = true) → ∃ i m', bread b s.machine = (some i, m')) ∧
    (∀ op s', Issued g s op → CacheStep g s op s' → ∀ j,
      (s.machine.buf j).refcnt ≠ 0 ∨ (s.machine.buf j).dirty = true ∧ op ≠ .endOp →
      (s'.machine.buf j).blockno = (s.machine.buf j).blockno ∧
        (s'.machine.buf j).valid = (s.machine.buf j).valid) ∧
    (∀ m b i m', bread b m = (some i, m') → ∀ j, (m.buf j).refcnt ≠ 0 ∨ (m.buf j).dirty = true →
      (m'.buf j).blockno = (m.buf j).blockno ∧ (m'.buf j).valid = (m.buf j).valid ∧
        (m'.buf j).data = (m.buf j).data) := by
  have h := CacheInv.of_reaches h₀ hr
  have hc := h.log.coherent
  refine ⟨?_, ?_, ?_, ?_, ?_⟩
  · intro i hi j hj
    exact hc.unique i ((hc.mem_lru i).mpr hi) j ((hc.mem_lru j).mpr hj)
  · intro b i m' he
    have hf := bread_some hc he
    refine ⟨(hf.coherent.mem_lru i).mp hf.mem, hf.valid, hf.blockno, ?_⟩
    rw [hf.data, h.contents]
  · rintro b ⟨j, hj, he⟩
    exact bread_returns b ((hc.mem_lru j).mpr hj) he
  · intro op s' hi hs j hj
    exact h.keeps_busy hi hs hj
  · intro m b i m' he j hj
    exact bread_keeps_busy he hj

/-- A blank disk and one block logged, which a second fetch sees before the commit. -/
theorem buffer_cache_coherent_one_block :
    let v : Block := Bytes.setWord Bytes.zero 0 7
    let m₁ := ((do
      recoverFromLog
      beginOp
      let i ← bread 60
      setData i v
      logWrite i
      brelse i : Kern Machine Unit) (boot mkfsGeometry fun _ => Bytes.zero)).2
    ∃ i m', bread 60 m₁ = (some i, m') ∧ (m'.buf i).data = v := by
  intro v m₁
  let s₀ : CacheState :=
    ⟨(recoverFromLog (boot mkfsGeometry fun _ => Bytes.zero)).2, [], fun _ => Bytes.zero⟩
  have h₀ : Mounted mkfsGeometry s₀ := ⟨fun _ => Bytes.zero, rfl, rfl, rfl⟩
  have h₁ : Reaches (CacheStep mkfsGeometry) (Issued mkfsGeometry) s₀ _ :=
    .tail (a := CacheOp.beginOp) .refl trivial (.beginOp rfl)
  have h₂ := h₁.tail (a := CacheOp.bread 60) trivial (.bread 60 30 rfl)
  have h₃ := h₂.tail (a := CacheOp.logWrite 30 v) ⟨by simp, by unfold Geometry.Home; decide⟩
    (.logWrite 30 v rfl)
  have h₄ := h₃.tail (a := CacheOp.brelse 30) (by simp [Issued]) (.brelse 30 rfl)
  obtain ⟨-, hread, -⟩ := buffer_cache_coherent mkfsGeometry s₀ _ h₀ h₄
  refine ⟨30, _, rfl, ?_⟩
  exact (hread 60 30 _ rfl).2.2.2.trans rfl

end Sbunix.Disk
