import Sbunix.Lib.Machine
import Sbunix.Lib.RedoLog
import Sbunix.Disk.Log

/-!
# Crash atomicity of the log

A transaction is any run of filesystem code between `begin_op` and `end_op`:
blocks are fetched, fetched buffers are filled and logged, buffers are
released. The machine may stop after any prefix of the block writes that
`end_op` issues, and again during every recovery that follows. The writes of
`end_op` are the commit of a redo transaction and those of `recover_from_log`
its replay, so the blocks outside the log end up all old or all new.
-/

namespace Sbunix.Disk

open Lib List Kern Function

/-! ## The log as a redo log -/

def headerBlocks (lh : Block) : List ℕ := (List.range (lh.word 0)).map fun i => lh.word (i + 1)

def Geometry.redoLog (g : Geometry) : RedoLog ℕ Block where
  area := {b | g.InLog b}
  hdr := g.start
  slot i := g.start + 1 + i
  cap := LOG_HDR_MAX
  dec := headerBlocks
  hdr_mem := ⟨le_rfl, by have := g.size_gt; omega⟩
  slot_mem i hi := ⟨by omega, by have := g.size_gt; omega⟩
  slot_ne i _ := by omega
  slot_inj i _ j _ h := by omega

theorem headerBlocks_nil {lh : Block} : headerBlocks lh = [] ↔ lh.word 0 = 0 := by
  simp [headerBlocks]

theorem headerBlocks_fillHeader {n : ℕ} {blocks : ℕ → ℕ} (lh : Block) (hn : n ≤ LOG_HDR_MAX)
    (hb : ∀ i < n, blocks i < 2 ^ 32) :
    headerBlocks (fillHeader n blocks lh) = (List.range n).map blocks := by
  unfold headerBlocks
  rw [fillHeader_n blocks lh hn]
  apply map_congr_left
  intro i hi
  rw [mem_range] at hi
  exact fillHeader_block lh hn hi (hb i hi)

variable {g : Geometry} {b : ℕ} {l : Log} {m₀ s : Machine} {ws : List (ℕ × Block)}

theorem Geometry.Home.not_inLog (h : g.Home b) : ¬ g.InLog b := by
  intro hl
  have := h.1
  have := hl.2
  omega

theorem Geometry.Home.lt (h : g.Home b) : b < 2 ^ 32 :=
  h.2.trans g.disk_lt

def Log.At (l : Log) (g : Geometry) : Prop :=
  l.start = g.start ∧ l.size = g.size ∧ l.diskSize = g.diskSize

theorem Geometry.Home.not_oob (h : g.Home b) (hl : l.At g) : l.oob b = false := by
  obtain ⟨hs, hz, hd⟩ := hl
  have h1 := h.1
  have h2 := h.2
  have h3 := g.start_ge
  have h4 := g.log_le
  have h5 := g.disk_lt
  have hmod : (g.start + g.size) % 2 ^ 32 = g.start + g.size := Nat.mod_eq_of_lt (by omega)
  unfold Log.oob
  rw [hs, hz, hd, hmod]
  simp only [Bool.or_eq_false_iff, beq_eq_false_iff_ne, Bool.and_eq_false_iff,
    decide_eq_false_iff_not]
  omega

/-! ## Transactions -/

/-- Between transactions: nothing is dirty and the log on the disk is empty. -/
structure Quiescent (g : Geometry) (m : Machine) : Prop where
  coherent : Coherent m
  at_log : m.log.At g
  clean : ∀ j ∈ m.lru, (m.buf j).dirty = false
  empty : (m.disk g.start).word 0 = 0

/-- Filesystem code from `begin_op` in state `m₀` up to `m`, holding the buffers `held`. -/
inductive Transaction (g : Geometry) (m₀ : Machine) : List ℕ → Machine → Prop
  | start {m} : beginOp m₀ = (some (), m) → Transaction g m₀ [] m
  | read {held m m'} (b i : ℕ) : Transaction g m₀ held m → bread b m = (some i, m') →
      Transaction g m₀ (i :: held) m'
  | write {held m m'} (i : ℕ) (v : Block) : Transaction g m₀ held m → i ∈ held →
      g.Home (m.buf i).blockno → (do setData i v; logWrite i) m = (some (), m') →
      Transaction g m₀ held m'
  | release {held m m'} (i : ℕ) : Transaction g m₀ held m → i ∈ held →
      brelse i m = (some (), m') → Transaction g m₀ (held.erase i) m'

/-- The dirty buffers are those the log names, over the disk contents `P`, and every
buffer in `held` is pinned. -/
structure LogInv (g : Geometry) (P : ℕ → Block) (held : List ℕ) (m : Machine) : Prop where
  coherent : Coherent m
  at_log : m.log.At g
  disk : m.disk = P
  le : m.log.nblocks ≤ LOG_HDR_MAX
  home : ∀ i < m.log.nblocks, g.Home (m.log.blocks i)
  inj : ∀ i < m.log.nblocks, ∀ j < m.log.nblocks, m.log.blocks i = m.log.blocks j → i = j
  logged : ∀ i < m.log.nblocks, ∃ j ∈ m.lru, m.log.bufs i = some j ∧ (m.buf j).dirty = true ∧
    (m.buf j).blockno = m.log.blocks i
  dirty : ∀ j ∈ m.lru, (m.buf j).dirty = true →
    ∃ i < m.log.nblocks, m.log.blocks i = (m.buf j).blockno
  held_mem : ∀ j ∈ held, j ∈ m.lru ∧ (m.buf j).valid = true
  held_count : ∀ j ∈ m.lru, (held.count j : ℤ) ≤ (m.buf j).refcnt

/-- What holds inside a transaction over the disk contents `P`. -/
structure TxnInv (g : Geometry) (P : ℕ → Block) (held : List ℕ) (m : Machine) : Prop
    extends LogInv g P held m where
  outstanding : m.log.outstanding = true

variable {i : ℕ} {held : List ℕ} {m m' : Machine} {P d : ℕ → Block} {v : Block}

theorem TxnInv.start (h : Quiescent g m₀)
    (he : beginOp m₀ = (some (), m)) : TxnInv g m₀.disk [] m := by
  unfold beginOp at he
  rw [get_bind] at he
  split at he
  · simp at he
  · simp only [setLog, modify_apply, Prod.mk.injEq, true_and] at he
    subst he
    have hc := h.coherent
    exact
      { coherent := ⟨hc.nodup, hc.mem_lru, hc.unique, hc.clean, hc.dirty_valid, hc.refcnt_nonneg⟩
        at_log := h.at_log
        disk := rfl
        outstanding := rfl
        le := Nat.zero_le _
        home := by simp
        inj := by simp
        logged := by simp
        dirty := fun j hj hd => by simp [h.clean j hj] at hd
        held_mem := by simp
        held_count := fun j hj => by simpa using hc.refcnt_nonneg j hj }

section

variable (h : LogInv g P held m)
include h

/-- A step that changes neither the log nor what is dirty. -/
theorem LogInv.congr {d' : ℕ → Block} {held' : List ℕ} (hc : Coherent m')
    (hlog : m'.log = m.log) (hdisk : m'.disk = d')
    (hdirty : ∀ j, (m'.buf j).dirty = (m.buf j).dirty)
    (hblk : ∀ j, (m.buf j).dirty = true → (m'.buf j).blockno = (m.buf j).blockno)
    (hheld : ∀ j ∈ held', j ∈ m'.lru ∧ (m'.buf j).valid = true)
    (hcount : ∀ j ∈ m'.lru, (held'.count j : ℤ) ≤ (m'.buf j).refcnt) : LogInv g d' held' m' where
  coherent := hc
  at_log := hlog ▸ h.at_log
  disk := hdisk
  le := hlog ▸ h.le
  home := hlog ▸ h.home
  inj := hlog ▸ h.inj
  logged k hk := by
    rw [hlog] at hk ⊢
    obtain ⟨j, hj, hbj, hd, he⟩ := h.logged k hk
    exact ⟨j, (h.coherent.mem_iff hc j).mpr hj, hbj, (hdirty j).trans hd, (hblk j hd).trans he⟩
  dirty j hj hd := by
    rw [hdirty] at hd
    rw [hlog, hblk j hd]
    exact h.dirty j ((h.coherent.mem_iff hc j).mp hj) hd
  held_mem := hheld
  held_count := hcount

theorem LogInv.read (he : bread b m = (some i, m')) : LogInv g P (i :: held) m' := by
  have hf := bread_some h.coherent he
  have hmem := h.coherent.mem_iff hf.coherent
  refine h.congr hf.coherent hf.log (hf.disk.trans h.disk) hf.dirty
    (fun j hd => (hf.keep (Or.inl hd)).2.1) ?_ ?_
  · intro j hj
    rcases mem_cons.mp hj with rfl | hj
    · exact ⟨hf.mem, hf.valid⟩
    · obtain ⟨hl, hv⟩ := h.held_mem j hj
      have hpos : 0 < held.count j := count_pos_iff.mpr hj
      have hcnt := h.held_count j hl
      refine ⟨(hmem j).mpr hl, ?_⟩
      rw [(hf.keep (Or.inr (by omega))).1, hv]
  · intro j hj
    have hcnt := h.held_count j ((hmem j).mp hj)
    rw [hf.refcnt, count_cons]
    by_cases hji : j = i
    · subst hji
      simp
      omega
    · rw [if_neg hji, if_neg (by simpa using Ne.symm hji)]
      simpa using hcnt

theorem LogInv.released (hi : i ∈ held) (he : brelse i m = (some (), m')) :
    Released m m' i := by
  have hl := (h.held_mem i hi).1
  have hpos : 0 < held.count i := count_pos_iff.mpr hi
  have hcnt := h.held_count i hl
  obtain ⟨m'', he', hr⟩ := brelse_spec h.coherent hl (by omega)
  obtain rfl : m'' = m' := by simpa [he'] using he
  exact hr

theorem LogInv.release (hi : i ∈ held) (he : brelse i m = (some (), m')) :
    LogInv g P (held.erase i) m' := by
  have hr := h.released hi he
  have hpos : 0 < held.count i := count_pos_iff.mpr hi
  have hmem := h.coherent.mem_iff hr.coherent
  have hsame : ∀ j, (m'.buf j).valid = (m.buf j).valid ∧ (m'.buf j).dirty = (m.buf j).dirty ∧
      (m'.buf j).blockno = (m.buf j).blockno := by
    intro j
    rw [hr.buf]
    split
    · next hj => subst hj; simp
    · simp
  refine h.congr hr.coherent hr.log (hr.disk.trans h.disk) (fun j => (hsame j).2.1)
    (fun j _ => (hsame j).2.2) ?_ ?_
  · intro j hj
    obtain ⟨hl, hv⟩ := h.held_mem j (mem_of_mem_erase hj)
    exact ⟨(hmem j).mpr hl, (hsame j).1.trans hv⟩
  · intro j hj
    have hcj := h.held_count j ((hmem j).mp hj)
    rw [hr.buf]
    by_cases hji : j = i
    · subst hji
      rw [if_pos rfl, count_erase_self]
      simp only
      omega
    · rw [if_neg hji, count_erase_of_ne hji]
      exact hcj

end

theorem coherent_fill (h : Coherent m) (hi : i ∈ m.lru)
    (hv : (m.buf i).valid = true) (hd : m'.disk = m.disk) (hl : m'.lru = m.lru)
    (hb : m'.buf = update m.buf i { m.buf i with data := v, dirty := true }) :
    Coherent m' ∧ m'.view = update m.view (m.buf i).blockno v := by
  have hself : m'.buf i = { m.buf i with data := v, dirty := true } := by
    rw [hb, update_self]
  have hother : ∀ j, j ≠ i → m'.buf j = m.buf j := fun j hj => by
    rw [hb, update_of_ne hj]
  have hno : ∀ j ∈ m.lru, j ≠ i → (m.buf j).valid = true → (m.buf j).blockno ≠ (m.buf i).blockno :=
    fun j hj hji hvj hbj => hji (h.unique j hj i hi hvj hv hbj)
  exact h.fill m' hi (hl ▸ h.nodup) (fun j => by rw [hl]) hself hother ⟨hv, h.refcnt_nonneg i hi⟩
    (fun hc => by cases hc) (fun b _ => by rw [hd]) hno (.inr rfl)

theorem LogInv.fillLog_buf (h : LogInv g P held m) (hi : i ∈ held)
    (he : (do setData i v; logWrite i) m = (some (), m')) :
    m'.buf = update m.buf i { m.buf i with data := v, dirty := true } ∧
      m'.disk = m.disk ∧ m'.lru = m.lru := by
  obtain ⟨hl, hv⟩ := h.held_mem i hi
  obtain ⟨-, ⟨k, hk, hbk, rfl⟩ | ⟨-, rfl⟩⟩ := fillLog_cases he
  · -- a block that is already logged has a dirty buffer, and it is this one
    obtain ⟨j, hj, _, hd, hbj⟩ := h.logged k hk
    obtain rfl : j = i := h.coherent.unique j hj i hl (h.coherent.dirty_valid j hj hd) hv
      (hbj.trans hbk)
    exact ⟨by simp [Machine.setBuf, hd], rfl, rfl⟩
  · exact ⟨rfl, rfl, rfl⟩

theorem LogInv.write (h : LogInv g P held m) (hi : i ∈ held) (hh : g.Home (m.buf i).blockno)
    (he : (do setData i v; logWrite i) m = (some (), m')) : LogInv g P held m' := by
  obtain ⟨hl, hv⟩ := h.held_mem i hi
  obtain ⟨hlt, hcase⟩ := fillLog_cases he
  obtain ⟨hbuf, hdisk, hlru⟩ := h.fillLog_buf hi he
  have hsame : ∀ j, (m'.buf j).valid = (m.buf j).valid ∧
      (m'.buf j).blockno = (m.buf j).blockno ∧ (m'.buf j).refcnt = (m.buf j).refcnt ∧
      ((m.buf j).dirty = true → (m'.buf j).dirty = true) := by
    intro j
    rw [hbuf]
    by_cases hj : j = i
    · subst hj
      simp
    · simp [update_of_ne hj]
  have hself : (m'.buf i).dirty = true := by simp [hbuf]
  have hother : ∀ j, j ≠ i → m'.buf j = m.buf j := fun j hj => by
    rw [hbuf, update_of_ne hj]
  have hc := (coherent_fill h.coherent hl hv hdisk hlru hbuf).1
  have hmem : ∀ j ∈ held, j ∈ m'.lru ∧ (m'.buf j).valid = true := fun j hj =>
    ⟨hlru ▸ (h.held_mem j hj).1, (hsame j).1.trans (h.held_mem j hj).2⟩
  have hcnt : ∀ j ∈ m'.lru, (held.count j : ℤ) ≤ (m'.buf j).refcnt := fun j hj => by
    rw [(hsame j).2.2.1]
    exact h.held_count j (hlru ▸ hj)
  rcases hcase with ⟨k, hk, hbk, hm'⟩ | ⟨hnew, hm'⟩
  · have hblocks : m'.log.blocks = m.log.blocks := by rw [hm']
    have hn : m'.log.nblocks = m.log.nblocks := by rw [hm']
    refine ⟨hc, by rw [hm']; exact h.at_log, hdisk.trans h.disk,
      hn ▸ h.le, by rw [hn, hblocks]; exact h.home, by rw [hn, hblocks]; exact h.inj, ?_, ?_,
      hmem, hcnt⟩
    · intro x hx
      rw [hn] at hx
      rw [hblocks]
      by_cases hxk : x = k
      · subst hxk
        refine ⟨i, hlru ▸ hl, by simp [hm'], hself, ?_⟩
        rw [(hsame i).2.1, hbk]
      · obtain ⟨j, hj, hbj, hd, hb⟩ := h.logged x hx
        exact ⟨j, hlru ▸ hj, by simp [hm', update_of_ne hxk, hbj], (hsame j).2.2.2 hd,
          (hsame j).2.1.trans hb⟩
    · intro j hj hd
      rw [hn, hblocks, (hsame j).2.1]
      by_cases hji : j = i
      · exact ⟨k, hk, by rw [hbk, hji]⟩
      · rw [hother j hji] at hd
        exact h.dirty j (hlru ▸ hj) hd
  · have hn : m'.log.nblocks = m.log.nblocks + 1 := by rw [hm']
    have hold : ∀ x < m.log.nblocks, m'.log.blocks x = m.log.blocks x := fun x hx => by
      simp [hm', update_of_ne (Nat.ne_of_lt hx)]
    have hlast : m'.log.blocks m.log.nblocks = (m.buf i).blockno := by simp [hm']
    refine ⟨hc, by rw [hm']; exact h.at_log, hdisk.trans h.disk,
      by rw [hn]; exact hlt, ?_, ?_, ?_, ?_, hmem, hcnt⟩
    · intro x hx
      rcases Nat.lt_succ_iff_lt_or_eq.mp (hn ▸ hx) with hx | rfl
      · rw [hold x hx]
        exact h.home x hx
      · rw [hlast]
        exact hh
    · intro x hx y hy hxy
      rcases Nat.lt_succ_iff_lt_or_eq.mp (hn ▸ hx) with hx | rfl <;>
        rcases Nat.lt_succ_iff_lt_or_eq.mp (hn ▸ hy) with hy | rfl
      · rw [hold x hx, hold y hy] at hxy
        exact h.inj x hx y hy hxy
      · rw [hold x hx, hlast] at hxy
        exact absurd hxy (hnew x hx)
      · rw [hold y hy, hlast] at hxy
        exact absurd hxy.symm (hnew y hy)
      · rfl
    · intro x hx
      rcases Nat.lt_succ_iff_lt_or_eq.mp (hn ▸ hx) with hx | rfl
      · obtain ⟨j, hj, hbj, hd, hb⟩ := h.logged x hx
        refine ⟨j, hlru ▸ hj, ?_, (hsame j).2.2.2 hd, ?_⟩
        · simp [hm', update_of_ne (Nat.ne_of_lt hx), hbj]
        · rw [hold x hx, (hsame j).2.1, hb]
      · exact ⟨i, hlru ▸ hl, by simp [hm'], hself, by rw [hlast, (hsame i).2.1]⟩
    · intro j hj hd
      rw [(hsame j).2.1]
      by_cases hji : j = i
      · exact ⟨m.log.nblocks, by omega, by rw [hlast, hji]⟩
      · rw [hother j hji] at hd
        obtain ⟨x, hx, hb⟩ := h.dirty j (hlru ▸ hj) hd
        exact ⟨x, by omega, by rw [hold x hx, hb]⟩

theorem Transaction.inv (hq : Quiescent g m₀)
    (h : Transaction g m₀ held m) : TxnInv g m₀.disk held m := by
  induction h with
  | start he => exact TxnInv.start hq he
  | read b i _ he ih =>
    exact ⟨ih.read he, (bread_some ih.coherent he).log ▸ ih.outstanding⟩
  | write i v _ hi hh he ih =>
    refine ⟨ih.write hi hh he, ?_⟩
    obtain ⟨-, ⟨k, _, _, rfl⟩ | ⟨_, rfl⟩⟩ := fillLog_cases he
    · exact ih.outstanding
    · exact ih.outstanding
  | release i _ hi he ih =>
    exact ⟨ih.release hi he, (ih.released hi he).log ▸ ih.outstanding⟩

/-! ## What `end_op` writes -/

/-- The contents of the `i`-th logged buffer. -/
def loggedData (m : Machine) (i : ℕ) : Block :=
  match m.log.bufs i with
  | some j => (m.buf j).data
  | none => Bytes.zero

/-- The logged buffers as a redo transaction. -/
def TxnInv.txn {g : Geometry} {P : ℕ → Block} {held : List ℕ} {m : Machine}
    (h : TxnInv g P held m) : RedoTxn g.redoLog where
  n := m.log.nblocks
  home := m.log.blocks
  data := loggedData m
  n_le := h.le
  home_notMem i hi := (h.home i hi).not_inLog
  home_inj := h.inj

theorem TxnInv.post_eq_view (h : TxnInv g P held m) (b : ℕ) : h.txn.post P b = m.view b := by
  by_cases hb : ∃ i < m.log.nblocks, m.log.blocks i = b
  · obtain ⟨i, hi, rfl⟩ := hb
    obtain ⟨j, hj, hbj, hd, hblk⟩ := h.logged i hi
    rw [h.coherent.view_eq hj (h.coherent.dirty_valid j hj hd) hblk]
    have := post_home h.txn P (i := i) hi
    simpa [TxnInv.txn, loggedData, hbj] using this
  · push Not at hb
    rw [post_of_notMem h.txn P hb, h.coherent.view_of_clean, h.disk]
    intro j hj hd he
    obtain ⟨i, hi, hbi⟩ := h.dirty j hj hd
    exact hb i hi (hbi.trans he)

/-- The header `end_op` commits with. -/
def commitHeader (m : Machine) : Block :=
  fillHeader m.log.nblocks m.log.blocks (m.view m.log.start)

def clearHeader (blocks : ℕ → ℕ) (lh : Block) : Block := fillHeader 0 blocks lh

theorem headerBlocks_clearHeader (blocks : ℕ → ℕ) (lh : Block) :
    headerBlocks (clearHeader blocks lh) = [] := by
  rw [headerBlocks_nil, clearHeader, fillHeader_n _ _ (Nat.zero_le _)]

theorem TxnInv.headerBlocks_commitHeader (h : TxnInv g P held m) :
    headerBlocks (commitHeader m) = h.txn.homes :=
  headerBlocks_fillHeader _ h.le fun i hi => (h.home i hi).lt

def TxnInv.endOpWrites (h : TxnInv g P held m) : List (ℕ × Block) :=
  h.txn.commitWrites (commitHeader m) (clearHeader m.log.blocks (commitHeader m))

/-- Only a prefix of `ws` was issued. -/
def IssuedPrefix (m : Machine) (ws : List (ℕ × Block)) (s : Machine) : Prop :=
  ∃ vs, vs <+: ws ∧ s.writes = m.writes ++ vs

theorem TxnInv.copyToLog_loop (h : TxnInv g P held m) :
    Kern.Spec (fun s => s = m) (Kern.loop copyToLog 0 m.log.nblocks)
      (fun _ s => Wrote m s h.txn.slotWrites ∧ s.log = m.log) (IssuedPrefix m h.endOpWrites) := by
  have hloop := Kern.Spec.loop (I := fun i s =>
      Wrote m s (h.txn.slotWrites.take i) ∧ s.log = m.log) (b := copyToLog) (i := 0)
      (n := m.log.nblocks) (E := IssuedPrefix m h.endOpWrites) ?_
  · refine hloop.conseq ?_ ?_ fun _ hs => hs
    · rintro s rfl
      exact ⟨by simpa using Wrote.refl h.coherent, rfl⟩
    · rintro _ s ⟨hw, hl⟩
      rw [Nat.zero_add] at hw
      exact ⟨(slotWrites_take_n h.txn) ▸ hw, hl⟩
  · rintro i - hi s ⟨hw, hl⟩
    rw [Nat.zero_add] at hi
    obtain ⟨j, hj, hbj, hd, hblk⟩ := h.logged i hi
    have hnot : (m.buf j).blockno ∉ (h.txn.slotWrites.take i).map Prod.fst := by
      intro hm
      have := (take_sublist i h.txn.slotWrites).map Prod.fst |>.subset hm
      simp only [RedoTxn.slotWrites, map_map, mem_map, mem_range] at this
      obtain ⟨k, hk, he⟩ := this
      apply (h.home i hi).not_inLog
      rw [← hblk, ← he]
      exact g.redoLog.slot_mem k (hk.trans_le h.le)
    have hd' := (hw.dirty j hj).mpr ⟨hd, hnot⟩
    have hdata : (s.buf j).data = loggedData m i := by
      rw [(hw.keep j hj hd').2.2]
      simp [loggedData, hbj]
    constructor
    · intro a s' he
      rcases copyToLog_spec hw.coherent (hl ▸ hbj) hd' with hn | ⟨s'', he', hp⟩
      · simp [hn] at he
      · obtain rfl : s'' = s' := by simpa [he'] using he
        refine ⟨?_, hp.2.trans hl⟩
        rw [hdata, hl, h.at_log.1] at hp
        rw [slotWrites_take_succ h.txn hi]
        exact hw.trans h.coherent hp.1
    · intro s' he
      rcases copyToLog_spec hw.coherent (hl ▸ hbj) hd' with hn | ⟨s'', he', hp⟩
      · obtain rfl : s = s' := by simpa [hn] using he
        exact ⟨_, (List.take_prefix _ _).trans (List.prefix_append _ _), hw.writes⟩
      · simp [he'] at he

theorem installTrans_spec (t : RedoTxn g.redoLog) (hc : Coherent m)
    (hat : m.log.At g) (hn : m.log.nblocks = t.n)
    (hhome : ∀ i < t.n, m.log.blocks i = t.home i)
    (hslot : ∀ i < t.n, m.view (g.start + 1 + i) = t.data i) :
    Kern.Spec (fun s => s = m) installTrans
      (fun _ s => Wrote m s t.homeWrites ∧ s.log = m.log)
      (fun s => ¬ Idle m ∧ IssuedPrefix m t.homeWrites s) := by
  have hloop := Kern.Spec.loop (I := fun i s => Wrote m s (t.homeWrites.take i) ∧ s.log = m.log)
    (b := installBlock) (i := 0) (n := t.n)
    (E := fun s => ¬ Idle m ∧ IssuedPrefix m t.homeWrites s) ?_
  · intro s hs
    subst hs
    have hi : installTrans s = Kern.loop installBlock 0 t.n s := by
      unfold installTrans
      rw [get_bind, hn]
    rw [hi]
    refine hloop.conseq (fun s' (hs : s' = s) => ?_) ?_ (fun _ h => h) s rfl
    · subst hs
      exact ⟨by simpa using Wrote.refl hc, rfl⟩
    · rintro _ s' ⟨hw, hl⟩
      rw [Nat.zero_add, homeWrites_take_n] at hw
      exact ⟨hw, hl⟩
  · rintro i - hi s ⟨hw, hl⟩
    rw [Nat.zero_add] at hi
    have hslot' : s.view (s.log.start + 1 + i) = t.data i := by
      rw [hl, hat.1, hw.view]
      exact (homeWrites_area t i _ (g.redoLog.slot_mem i (hi.trans_le t.n_le))).trans (hslot i hi)
    have hblk : s.log.blocks i = t.home i := by rw [hl, hhome i hi]
    have hne : s.log.blocks i ≠ s.log.start + 1 + i := by
      intro he
      apply t.home_notMem i hi
      rw [← hblk, he, hl, hat.1]
      exact g.redoLog.slot_mem i (hi.trans_le t.n_le)
    constructor
    · intro a s' he
      rcases installBlock_spec hw.coherent hne with ⟨s'', _, hn', _⟩ | ⟨s'', he', hp⟩
      · simp [hn'] at he
      · obtain rfl : s'' = s' := by simpa [he'] using he
        rw [hslot', hblk] at hp
        rw [homeWrites_take_succ t hi]
        exact ⟨hw.trans hc hp.1, hp.2.trans hl⟩
    · intro s' he
      rcases installBlock_spec hw.coherent hne with ⟨s'', hroom, hn', hwr⟩ | ⟨s'', he', hp⟩
      · obtain rfl : s'' = s' := by simpa [hn'] using he
        exact ⟨fun hidle => hroom ((hidle.wrote hc hw).roomy hw.coherent),
          _, List.take_prefix _ _, hwr.trans hw.writes⟩
      · simp [he'] at he

theorem Coherent.of_buf_eq (h : Coherent m) (m' : Machine) (hd : m'.disk = m.disk)
    (hl : m'.lru = m.lru) (hb : ∀ i ∈ m.lru, m'.buf i = m.buf i) :
    Coherent m' ∧ m'.view = m.view := by
  constructor
  · refine ⟨hl ▸ h.nodup, fun i => hl ▸ h.mem_lru i, ?_, ?_, ?_, ?_⟩
    · intro i hi j hj
      rw [hl] at hi hj
      rw [hb i hi, hb j hj]
      exact h.unique i hi j hj
    · intro i hi
      rw [hl] at hi
      rw [hb i hi, hd]
      exact h.clean i hi
    · intro i hi
      rw [hl] at hi
      rw [hb i hi]
      exact h.dirty_valid i hi
    · intro i hi
      rw [hl] at hi
      rw [hb i hi]
      exact h.refcnt_nonneg i hi
  · funext c
    have hfind : m'.lru.find? (m'.hit c) = m.lru.find? (m.hit c) := by
      rw [hl]
      refine find?_congr fun i hi => ?_
      rw [Machine.hit, hb i hi, Machine.hit]
    unfold Machine.view
    rw [hfind, hd]
    cases hf : m.lru.find? (m.hit c) with
    | none => rfl
    | some i => simp only [hb i (mem_of_find?_eq_some hf)]

theorem clearBuf_wrote (hcm : Coherent m) (l : Log) {E : Machine → Prop} (i : ℕ) :
    Kern.Spec (fun s => Wrote m s ws ∧ (∀ j ∈ s.lru, (s.buf j).dirty = false) ∧
        ∃ bufs, s.log = { l with bufs := bufs })
      (clearBuf i)
      (fun _ s => Wrote m s ws ∧ (∀ j ∈ s.lru, (s.buf j).dirty = false) ∧
        ∃ bufs, s.log = { l with bufs := bufs }) E := by
  refine Kern.Spec.modify ?_
  rintro s ⟨hw, hclean, bufs, hl⟩
  split
  · exact ⟨hw, hclean, bufs, hl⟩
  · next j hj =>
    set s' : Machine := { s.setBuf j { s.buf j with dirty := false } with
      log := { s.log with bufs := update s.log.bufs i none } } with hs'
    have hsame : ∀ k, (s'.buf k).valid = (s.buf k).valid ∧
        (s'.buf k).blockno = (s.buf k).blockno ∧ (s'.buf k).refcnt = (s.buf k).refcnt ∧
        (s'.buf k).data = (s.buf k).data := by
      intro k
      by_cases hk : k = j
      · subst hk
        simp [hs', Machine.setBuf]
      · simp [hs', Machine.setBuf, update_of_ne hk]
    have hbuf : ∀ k ∈ s.lru, s'.buf k = s.buf k := by
      intro k hk
      by_cases hkj : k = j
      · subst hkj
        have hd := hclean k hk
        simp [hs', Machine.setBuf, ← hd]
      · simp [hs', Machine.setBuf, update_of_ne hkj]
    obtain ⟨hc, hv⟩ := hw.coherent.of_buf_eq s' rfl rfl hbuf
    have hmem : ∀ k ∈ m.lru, s'.buf k = s.buf k := fun k hk =>
      hbuf k ((hcm.mem_iff hw.coherent k).mpr hk)
    refine ⟨⟨hw.disk, hw.writes, hc, hv.trans hw.view, ?_, ?_, ?_, ?_⟩, ?_,
      update bufs i none, by rw [hs', hl]⟩
    · intro k
      rw [(hsame k).2.2.1, hw.refcnt]
    · intro k hk
      rw [hmem k hk]
      exact hw.dirty k hk
    · intro k hk
      rw [hmem k hk]
      exact hw.keep k hk
    · intro k hk
      rw [(hsame k).1, (hsame k).2.1]
      exact hw.pinned k hk
    · intro k hk
      rw [hbuf k hk]
      exact hclean k hk

section

variable (h : TxnInv g P held m)

include h

/-- The header is written behind the writes `ws`; `b` is what the block of the header holds. -/
theorem TxnInv.writeLogHeader_after {b : Block} (hstart : l.start = g.start)
    (hview : ∀ s, Wrote m s ws → s.view g.start = b) (hpre : ws <+: h.endOpWrites) :
    Kern.Spec (fun s => Wrote m s ws ∧ s.log = l) writeLogHeader
      (fun _ s => Wrote m s (ws ++ [(g.start, fillHeader l.nblocks l.blocks b)]) ∧ s.log = l)
      (IssuedPrefix m h.endOpWrites) := by
  rintro s ⟨hw, rfl⟩
  have hspec := writeLogHeader_spec hw.coherent
  rw [hstart, hview s hw] at hspec
  rcases hspec with ⟨_, hn⟩ | ⟨s', he', hp⟩
  · refine ⟨fun a s' he => by simp [hn] at he, fun s' he => ?_⟩
    obtain rfl : s = s' := by simpa [hn] using he
    exact ⟨_, hpre, hw.writes⟩
  · refine ⟨fun a s'' he => ?_, fun s'' he => by simp [he'] at he⟩
    obtain rfl : s' = s'' := by simpa [he'] using he
    exact ⟨hw.trans h.coherent hp.1, hp.2⟩

theorem TxnInv.writeLogHeader_commit :
    Kern.Spec (fun s => Wrote m s h.txn.slotWrites ∧ s.log = m.log) writeLogHeader
      (fun _ s => Wrote m s (h.txn.slotWrites ++ [(g.start, commitHeader m)]) ∧ s.log = m.log)
      (IssuedPrefix m h.endOpWrites) := by
  refine h.writeLogHeader_after (b := m.view m.log.start) h.at_log.1 (fun s hw => ?_)
    (List.prefix_append _ _)
  rw [hw.view, h.at_log.1]
  have := slotWrites_notMem h.txn h.txn.n
    (fun i hi => g.redoLog.slot_ne i (hi.trans_le h.le)) m.view
  rwa [slotWrites_take_n] at this

theorem TxnInv.view_slot (hw : Wrote m s (h.txn.slotWrites ++ [(g.start, commitHeader m)])) {i : ℕ}
    (hi : i < h.txn.n) : s.view (g.start + 1 + i) = h.txn.data i := by
  rw [hw.view, applyWrites_append]
  simp only [applyWrites_cons, applyWrites_nil]
  rw [update_of_ne (by omega)]
  exact slotWrites_slot h.txn m.view hi

theorem TxnInv.installTrans_commit : Kern.Spec
      (fun s => Wrote m s (h.txn.slotWrites ++ [(g.start, commitHeader m)]) ∧ s.log = m.log)
      installTrans
      (fun _ s => Wrote m s (h.txn.slotWrites ++ [(g.start, commitHeader m)] ++ h.txn.homeWrites) ∧
        s.log = m.log)
      (IssuedPrefix m h.endOpWrites) := by
  rintro s ⟨hw, hl⟩
  obtain ⟨h1, h2⟩ := installTrans_spec h.txn hw.coherent (hl ▸ h.at_log) (by rw [hl]; rfl)
    (fun i _ => by rw [hl]; rfl) (fun i hi => h.view_slot hw hi) s rfl
  constructor
  · intro a s' he
    obtain ⟨hw', hl'⟩ := h1 a s' he
    exact ⟨hw.trans h.coherent hw', hl'.trans hl⟩
  · intro s' he
    obtain ⟨_, vs, hvs, hwr⟩ := h2 s' he
    refine ⟨h.txn.slotWrites ++ [(g.start, commitHeader m)] ++ vs, ?_, ?_⟩
    · unfold TxnInv.endOpWrites RedoTxn.commitWrites
      rw [append_assoc, List.prefix_append_right_inj]
      exact (List.prefix_cons_inj _).mpr (hvs.trans (List.prefix_append _ _))
    · rw [hwr, hw.writes, append_assoc]

theorem TxnInv.writeLogHeader_clear : Kern.Spec
      (fun s => Wrote m s (h.txn.slotWrites ++ [(g.start, commitHeader m)] ++ h.txn.homeWrites) ∧
        s.log = { m.log with nblocks := 0 })
      writeLogHeader
      (fun _ s => Wrote m s h.endOpWrites ∧ s.log = { m.log with nblocks := 0 })
      (IssuedPrefix m h.endOpWrites) := by
  have hW : h.endOpWrites = h.txn.slotWrites ++ [(g.start, commitHeader m)] ++
      h.txn.homeWrites ++ [(g.start, clearHeader m.log.blocks (commitHeader m))] := by
    simp [TxnInv.endOpWrites, RedoTxn.commitWrites, Geometry.redoLog]
  have hwritten := h.writeLogHeader_after (l := { m.log with nblocks := 0 }) (b :=
    commitHeader m) h.at_log.1
    (fun s hw => ?_) (hW ▸ List.prefix_append _ _)
  · rwa [hW] at hwritten ⊢
  · rw [hw.view, applyWrites_append, applyWrites_append]
    have := homeWrites_area h.txn h.txn.n
      (applyWrites [(g.start, commitHeader m)] (applyWrites h.txn.slotWrites m.view))
      g.redoLog.hdr_mem
    rw [homeWrites_take_n] at this
    refine this.trans ?_
    exact update_self _ _ _

theorem TxnInv.clean_of_wrote
    (hw : Wrote m s h.endOpWrites) : ∀ j ∈ s.lru, (s.buf j).dirty = false := by
  intro j hj
  have hj' := (h.coherent.mem_iff hw.coherent j).mp hj
  by_contra hd
  obtain ⟨hd, hn⟩ := (hw.dirty j hj').mp (by simpa using hd)
  obtain ⟨i, hi, hb⟩ := h.dirty j hj' hd
  apply hn
  have hmem := (mem_map_fst_homeWrites h.txn).mpr ⟨i, hi, hb⟩
  unfold TxnInv.endOpWrites RedoTxn.commitWrites
  simp only [map_append, map_cons, mem_append, mem_cons]
  exact Or.inr (Or.inr (Or.inl hmem))

theorem TxnInv.endOp_spec : Kern.Spec (fun s => s = m) endOp
      (fun _ s => Wrote m s h.endOpWrites ∧ (∀ j ∈ s.lru, (s.buf j).dirty = false) ∧
        ∃ bufs, s.log = { m.log with nblocks := 0, outstanding := false, bufs := bufs })
      (IssuedPrefix m h.endOpWrites) := by
  intro s hs
  subst hs
  have he : endOp s = (do
      Kern.loop copyToLog 0 s.log.nblocks
      writeLogHeader
      installTrans
      setLog fun l => { l with nblocks := 0 }
      writeLogHeader
      Kern.loop clearBuf 0 LOG_HDR_MAX
      setLog fun l => { l with outstanding := false }) s := by
    unfold endOp
    rw [get_bind, Kern.ite_apply, h.outstanding]
    rfl
  rw [he]
  refine Kern.Spec.bind h.copyToLog_loop (fun _ => ?_) s rfl
  refine Kern.Spec.bind h.writeLogHeader_commit fun _ => ?_
  refine Kern.Spec.bind h.installTrans_commit fun _ => ?_
  refine Kern.Spec.bind (Q := fun _ s' => Wrote s s' (h.txn.slotWrites ++
    [(g.start, commitHeader s)] ++ h.txn.homeWrites) ∧ s'.log = { s.log with nblocks := 0 })
    (Kern.Spec.modify fun s' hs => ⟨hs.1.withLog _, by rw [hs.2]⟩) fun _ => ?_
  refine Kern.Spec.bind h.writeLogHeader_clear fun _ => ?_
  refine Kern.Spec.bind (Q := fun _ s' => Wrote s s' h.endOpWrites ∧
    (∀ j ∈ s'.lru, (s'.buf j).dirty = false) ∧
    ∃ bufs, s'.log = { s.log with nblocks := 0, bufs := bufs }) ?_ fun _ => ?_
  · refine (Kern.Spec.loop (I := fun _ s' => Wrote s s' h.endOpWrites ∧
      (∀ j ∈ s'.lru, (s'.buf j).dirty = false) ∧
      ∃ bufs, s'.log = { s.log with nblocks := 0, bufs := bufs })
      fun i _ _ => clearBuf_wrote h.coherent { s.log with nblocks := 0 } i).conseq ?_
        (fun _ _ h => h) fun _ h => h
    rintro s' ⟨hw, hl⟩
    exact ⟨hw, h.clean_of_wrote hw, _, hl⟩
  · refine Kern.Spec.modify ?_
    rintro s' ⟨hw, hd, bufs, hl⟩
    exact ⟨hw.withLog _, hd, bufs, by rw [hl]⟩

end

/-! ## What `recover_from_log` writes -/

/-- A machine that has just been switched on: a cold cache over the disk it finds. -/
def boot (g : Geometry) (disk : ℕ → Block) : Machine := binit disk (logInit g)

theorem idle_boot (g : Geometry) (disk : ℕ → Block) : Idle (boot g disk) := by
  simp [Idle, boot, binit]

theorem view_boot (g : Geometry) (disk : ℕ → Block) : (boot g disk).view = disk := by
  funext b
  exact Machine.view_disk (by simp [boot, binit])

theorem recover_header (hn : (d g.start).word 0 ≤ LOG_HDR_MAX)
    (hok : ∀ i < (d g.start).word 0, g.Home ((d g.start).word (i + 1))) :
    ∃ m, Wrote (boot g d) m [] ∧ m.log.At g ∧ m.log.nblocks = (d g.start).word 0 ∧
      (∀ i < (d g.start).word 0, m.log.blocks i = (d g.start).word (i + 1)) ∧
      recoverFromLog (boot g d) = (if 0 < m.log.nblocks then do
        installTrans
        setLog fun l => { l with nblocks := 0 }
        writeLogHeader
      else
        pure ()) m := by
  set m₀ := boot g d with hm₀
  have hc : Coherent m₀ := coherent_binit _ _
  obtain ⟨hb, m₁, h₁⟩ := ((idle_boot g d).roomy hc).bread_returns m₀.log.start
  have hf := bread_some hc h₁
  have hlh : (m₁.buf hb).data = d g.start := by
    rw [hf.data, hm₀, view_boot]
    rfl
  obtain ⟨blocks, h₂, hnew, -⟩ := checkEntries_ok (d g.start) 0 ((d g.start).word 0)
    { m₁ with log := { m₁.log with nblocks := (d g.start).word 0 } } <| by
      intro k _ hk
      apply (hok k (by omega)).not_oob
      rw [hf.log]
      exact ⟨rfl, rfl, rfl⟩
  obtain ⟨m₂, h₃, hr⟩ := brelse_spec
    (hf.coherent.withLog { m₁.log with nblocks := (d g.start).word 0, blocks := blocks })
    hf.mem (show 0 < (m₁.buf hb).refcnt from hf.pinned hc)
  have hlog : m₂.log = { m₁.log with nblocks := (d g.start).word 0, blocks := blocks } := hr.log
  refine ⟨m₂, wrote_of_fetched_released hf hr, ?_, by rw [hlog], ?_, ?_⟩
  · rw [hlog, hf.log]
    exact ⟨rfl, rfl, rfl⟩
  · intro i hi
    rw [hlog]
    exact hnew i (Nat.zero_le _) (by omega)
  · unfold recoverFromLog
    rw [get_bind, bind_some h₁, get_bind,
      hlh, Kern.ite_apply, if_neg (by omega), bind_some (setLog_apply _ _),
      bind_some h₂, Kern.ite_apply, if_neg (by simp), bind_some h₃,
      get_bind]

theorem recover_settled (h : Settled g.redoLog P d) :
    ∃ m, recoverFromLog (boot g d) = (some (), m) ∧ Wrote (boot g d) m [] := by
  have h0 : (d g.start).word 0 = 0 := headerBlocks_nil.mp h.hdr
  obtain ⟨m, hw, _, hn, _, he⟩ := recover_header (g := g) (d := d) (by omega) (by omega)
  refine ⟨m, ?_, hw⟩
  rw [he, Kern.ite_apply, if_neg (by omega)]
  rfl

theorem recover_pending {t : RedoTxn g.redoLog}
    (h : Pending t P d) (hpos : 0 < t.n) (hhome : ∀ i < t.n, g.Home (t.home i)) :
    ∃ m h₀, recoverFromLog (boot g d) = (some (), m) ∧ headerBlocks h₀ = [] ∧
      Wrote (boot g d) m (t.replayWrites h₀) := by
  have hdr : headerBlocks (d g.start) = (List.range t.n).map t.home := h.hdr
  have hlen : (d g.start).word 0 = t.n := by simpa [headerBlocks] using congrArg List.length hdr
  have hword : ∀ i < t.n, (d g.start).word (i + 1) = t.home i := by
    intro i hi
    have := congrArg (fun l => l[i]?) hdr
    simpa [headerBlocks, hlen, hi] using this
  obtain ⟨m, hw, hat, hn, hblk, he⟩ := recover_header (g := g) (d := d)
    (hlen ▸ t.n_le) (fun i hi => by rw [hlen] at hi; rw [hword i hi]; exact hhome i hi)
  have hc₀ : Coherent (boot g d) := coherent_binit _ _
  have hidle : Idle m := (idle_boot g d).wrote hc₀ hw
  have hview : m.view = d := by rw [hw.view, applyWrites_nil, view_boot]
  obtain ⟨h1, h2⟩ := installTrans_spec t hw.coherent hat (hn.trans hlen)
    (fun i hi => by rw [hblk i (by omega), hword i hi])
    (fun i hi => by rw [hview]; exact h.slot i hi) m rfl
  rcases hi : installTrans m with ⟨_ | u, m₁⟩
  · exact absurd hidle (h2 m₁ hi).1
  obtain ⟨hw₁, hl₁⟩ := h1 u m₁ hi
  have hwt := hw.trans hc₀ hw₁
  have hwc := hwt.withLog { m₁.log with nblocks := 0 }
  have hroom := ((idle_boot g d).wrote hc₀ hwc).roomy hwc.coherent
  rcases writeLogHeader_spec hwc.coherent with ⟨hno, _⟩ | ⟨m₂, h₂, hp⟩
  · exact absurd hroom hno
  refine ⟨m₂, _, ?_, headerBlocks_clearHeader m₁.log.blocks (m₁.view m₁.log.start), ?_⟩
  · rw [he, Kern.ite_apply, if_pos (by omega), bind_some hi, bind_some (setLog_apply _ _), h₂]
  · have hstart : g.redoLog.hdr = m₁.log.start := by
      rw [hl₁, hat.1]
      rfl
    rw [RedoTxn.replayWrites, hstart]
    exact hwc.trans hc₀ hp.1

/-! ## Crashes -/

/-- The disk when the machine stops after the first `k` block writes of `x`. -/
def crashDisk {α : Type} (x : Kern Machine α) (m : Machine) (k : ℕ) : ℕ → Block :=
  applyWrites (((x m).2.writes.drop m.writes.length).take k) m.disk

/-- A series of boots, each of which stops after some prefix of its recovery's writes. -/
def crashedRecoveries (g : Geometry) (disk : ℕ → Block) : List ℕ → (ℕ → Block)
  | [] => disk
  | k :: ks => crashedRecoveries g (crashDisk recoverFromLog (boot g disk) k) ks

/-- Whatever is left after a crash is a transaction not begun, in the log, or done. -/
def Recoverable {g : Geometry} (t : RedoTxn g.redoLog) (P d : ℕ → Block) : Prop :=
  Settled g.redoLog P d ∨ (0 < t.n ∧ Pending t P d) ∨ Settled g.redoLog (t.post P) d

theorem crashDisk_wrote {α : Type} {x : Kern Machine α} {a : Option α}
    (he : x m = (a, m')) (hw : Wrote m m' ws) (k : ℕ) :
    crashDisk x m k = applyWrites (ws.take k) m.disk := by
  unfold crashDisk
  rw [he]
  simp only
  rw [hw.writes, drop_left]

variable {t : RedoTxn g.redoLog}

theorem Recoverable.of_pending_zero (h : Pending t P d) (h0 : t.n = 0) : Settled g.redoLog P d where
  hdr := by
    rw [h.hdr]
    simp [RedoTxn.homes, h0]
  home a ha := by
    rcases h.home a ha with he | he
    · exact he
    · rw [he, post_of_notMem]
      omega

section

variable (h : Recoverable t P d) (hhome : ∀ i < t.n, g.Home (t.home i))

include h hhome

theorem Recoverable.crash (k : ℕ) : Recoverable t P (crashDisk recoverFromLog (boot g d) k) := by
  rcases h with hs | ⟨hpos, hp⟩ | hs
  · obtain ⟨m, he, hw⟩ := recover_settled hs
    rw [crashDisk_wrote he hw, take_nil, applyWrites_nil]
    exact Or.inl hs
  · obtain ⟨m, h₀, he, hnil, hw⟩ := recover_pending hp hpos hhome
    rw [crashDisk_wrote he hw]
    rcases hp.replay_take hnil k with h1 | h1
    · exact Or.inr (Or.inl ⟨hpos, h1⟩)
    · exact Or.inr (Or.inr h1)
  · obtain ⟨m, he, hw⟩ := recover_settled hs
    rw [crashDisk_wrote he hw, take_nil, applyWrites_nil]
    exact Or.inr (Or.inr hs)

theorem Recoverable.crashes (ks : List ℕ) : Recoverable t P (crashedRecoveries g d ks) := by
  induction ks generalizing d with
  | nil => exact h
  | cons k ks ih => exact ih (h.crash hhome k)

theorem Recoverable.recover : ∃ m, recoverFromLog (boot g d) = (some (), m) ∧
      (Settled g.redoLog P m.disk ∨ Settled g.redoLog (t.post P) m.disk) := by
  rcases h with hs | ⟨hpos, hp⟩ | hs
  · obtain ⟨m, he, hw⟩ := recover_settled hs
    refine ⟨m, he, Or.inl ?_⟩
    rw [hw.disk]
    exact hs
  · obtain ⟨m, h₀, he, hnil, hw⟩ := recover_pending hp hpos hhome
    refine ⟨m, he, Or.inr ?_⟩
    rw [hw.disk]
    exact hp.replay hnil
  · obtain ⟨m, he, hw⟩ := recover_settled hs
    refine ⟨m, he, Or.inr ?_⟩
    rw [hw.disk]
    exact hs

end

theorem TxnInv.endOp_crash (h : TxnInv g P held m) (hempty : (P g.start).word 0 = 0) (k : ℕ) :
    Recoverable h.txn P (crashDisk endOp m k) := by
  have hs : Settled g.redoLog P P := ⟨headerBlocks_nil.mpr hempty, fun _ _ => rfl⟩
  have hprefix : IssuedPrefix m h.endOpWrites (endOp m).2 := by
    obtain ⟨h1, h2⟩ := h.endOp_spec m rfl
    rcases he : endOp m with ⟨_ | a, m'⟩
    · exact h2 m' he
    · exact ⟨_, List.prefix_rfl, (h1 a m' he).1.writes⟩
  obtain ⟨vs, hvs, hwr⟩ := hprefix
  obtain ⟨j, hj⟩ : ∃ j, vs.take k = h.endOpWrites.take j := by
    refine ⟨(vs.take k).length, ?_⟩
    exact List.prefix_iff_eq_take.mp ((List.take_prefix k vs).trans hvs)
  unfold crashDisk
  rw [hwr, drop_left, hj, h.disk]
  have hnil : g.redoLog.dec (clearHeader m.log.blocks (commitHeader m)) = [] :=
    headerBlocks_clearHeader m.log.blocks (commitHeader m)
  rcases hs.commit_take (t := h.txn) h.headerBlocks_commitHeader hnil j with h1 | h1 | h1
  · exact Or.inl h1
  · rcases Nat.eq_zero_or_pos h.txn.n with h0 | hpos
    · exact Or.inl (Recoverable.of_pending_zero h1 h0)
    · exact Or.inr (Or.inl ⟨hpos, h1⟩)
  · exact Or.inr (Or.inr h1)

/-- After any crash during `end_op` and any number of crashes during recovery, a
recovery that runs to its end leaves every block outside the log as it was before the
transaction, or every one as the transaction left it, and the log empty. -/
theorem recoverFromLog_atomic (g : Geometry) (m₀ m₁ : Machine) (held : List ℕ)
    (hq : Quiescent g m₀) (ht : Transaction g m₀ held m₁) (k : ℕ) (ks : List ℕ) :
    ∃ m, recoverFromLog (boot g (crashedRecoveries g (crashDisk endOp m₁ k) ks)) = (some (), m) ∧
      ((∀ b, ¬ g.InLog b → m.disk b = m₀.disk b) ∨ (∀ b, ¬ g.InLog b → m.disk b = m₁.view b)) ∧
      (m.disk g.start).word 0 = 0 := by
  have hinv := ht.inv hq
  have hrec := (hinv.endOp_crash hq.empty k).crashes hinv.home ks
  obtain ⟨m, he, hs⟩ := hrec.recover hinv.home
  refine ⟨m, he, ?_⟩
  rcases hs with hs | hs
  · exact ⟨Or.inl fun b hb => hs.home b hb, headerBlocks_nil.mp hs.hdr⟩
  · refine ⟨Or.inr fun b hb => ?_, headerBlocks_nil.mp hs.hdr⟩
    rw [← hinv.post_eq_view]
    exact hs.home b hb

/-- A blank disk and one logged block, cut off after four writes and once more in recovery. -/
theorem recoverFromLog_atomic_one_block :
    let m₀ := boot mkfsGeometry fun _ => Bytes.zero
    let m₁ := ((do
      beginOp
      let i ← bread 60
      setData i (Bytes.setWord Bytes.zero 0 7)
      logWrite i
      brelse i : Kern Machine Unit) m₀).2
    Quiescent mkfsGeometry m₀ ∧ Transaction mkfsGeometry m₀ [] m₁ ∧
    ∃ m, recoverFromLog (boot mkfsGeometry
        (crashedRecoveries mkfsGeometry (crashDisk endOp m₁ 4) [1])) = (some (), m) ∧
      ((∀ b, ¬ mkfsGeometry.InLog b → m.disk b = m₀.disk b) ∨
        (∀ b, ¬ mkfsGeometry.InLog b → m.disk b = m₁.view b)) ∧
      (m.disk mkfsGeometry.start).word 0 = 0 := by
  intro m₀ m₁
  have hq : Quiescent mkfsGeometry m₀ := by
    refine ⟨coherent_binit _ _, ⟨rfl, rfl, rfl⟩, fun _ _ => rfl, ?_⟩
    exact Bytes.word_zero 0
  have ht : Transaction mkfsGeometry m₀ [] m₁ := by
    have h1 : Transaction mkfsGeometry m₀ [] _ := .start rfl
    have h2 : Transaction mkfsGeometry m₀ [31] _ := .read 60 31 h1 rfl
    have h3 : Transaction mkfsGeometry m₀ [31] _ :=
      .write 31 (Bytes.setWord Bytes.zero 0 7) h2 (by simp) (by unfold Geometry.Home; decide) rfl
    exact .release 31 h3 (by simp) rfl
  exact ⟨hq, ht, recoverFromLog_atomic mkfsGeometry m₀ m₁ [] hq ht 4 [1]⟩

/-! ## Durability -/

/-- A transaction from `m` that `end_op` ends, with the contents `P`. -/
def Commits (g : Geometry) (m : Machine) (P : ℕ → Block) (m' : Machine) : Prop :=
  ∃ held m₁, Transaction g m held m₁ ∧ P = m₁.view ∧ endOp m₁ = (some (), m')

theorem Quiescent.commits (hq : Quiescent g m) (hc : Commits g m P m') :
    Quiescent g m' ∧ ∀ b, ¬ g.InLog b → m'.disk b = P b := by
  obtain ⟨held, m₁, ht, rfl, he⟩ := hc
  have h := ht.inv hq
  obtain ⟨hw, hclean, bufs, hl⟩ := (h.endOp_spec m₁ rfl).1 () m' he
  have hs : Settled g.redoLog (h.txn.post m.disk) m'.disk := by
    have hstart : Settled g.redoLog m.disk m.disk :=
      ⟨headerBlocks_nil.mpr hq.empty, fun _ _ => rfl⟩
    rw [hw.disk, h.disk, TxnInv.endOpWrites, RedoTxn.commitWrites, applyWrites_append,
      applyWrites_cons]
    exact (hstart.commit h.headerBlocks_commitHeader).replay
      (headerBlocks_clearHeader m₁.log.blocks (commitHeader m₁))
  refine ⟨⟨hw.coherent, hl ▸ h.at_log, hclean, headerBlocks_nil.mp hs.hdr⟩, fun b hb => ?_⟩
  rw [← h.post_eq_view]
  exact hs.home b hb

/-- What a transaction committed outlives any crash in the next one, and any crashes in the
recovery from it. -/
theorem committed_survives {m₁ : Machine} (hq : Quiescent g m₀)
    (hr : Reaches (Commits g) (fun _ _ => True) m₀ m) (hc : Commits g m P m')
    (ht : Transaction g m' held m₁) (k : ℕ) (ks : List ℕ) :
    ∃ r, recoverFromLog (boot g (crashedRecoveries g (crashDisk endOp m₁ k) ks)) = (some (), r) ∧
      ((∀ b, ¬ g.InLog b → r.disk b = P b) ∨ ∀ b, ¬ g.InLog b → r.disk b = m₁.view b) := by
  have hqm : Quiescent g m := hr.invariant hq fun _ _ _ h _ hs => (h.commits hs).1
  obtain ⟨hq', hdisk⟩ := hqm.commits hc
  have hinv := ht.inv hq'
  obtain ⟨r, he, hs⟩ := ((hinv.endOp_crash hq'.empty k).crashes hinv.home ks).recover hinv.home
  refine ⟨r, he, hs.imp (fun hs b hb => ?_) fun hs b hb => ?_⟩
  · exact (hs.home b hb).trans (hdisk b hb)
  · exact (hs.home b hb).trans (hinv.post_eq_view b)

/-- A transaction that logs block `b`, held in buffer `i`, with the contents `v`. -/
def logged (b i : ℕ) (v : Block) (m : Machine) : Machine :=
  (brelse i ((do setData i v; logWrite i : Kern Machine Unit) (bread b (beginOp m).2).2).2).2

theorem Transaction.logged {b i : ℕ} {v : Block} (hbegin : (beginOp m).1 = some ())
    (hread : (bread b (beginOp m).2).1 = some i)
    (hhome : g.Home ((bread b (beginOp m).2).2.buf i).blockno)
    (hwrite : ((do setData i v; logWrite i : Kern Machine Unit) (bread b (beginOp m).2).2).1 =
    some ())
    (hrelease : (brelse i ((do setData i v; logWrite i : Kern Machine Unit)
      (bread b (beginOp m).2).2).2).1 = some ()) : Transaction g m [] (logged b i v m) := by
  have h1 : Transaction g m [] _ := .start (Prod.fst_eq_iff.mp hbegin)
  have h2 := h1.read b i (Prod.fst_eq_iff.mp hread)
  have h3 := h2.write i v (by simp) hhome (Prod.fst_eq_iff.mp hwrite)
  have h4 := h3.release i (by simp) (Prod.fst_eq_iff.mp hrelease)
  rwa [List.erase_cons_head] at h4

/-- Block 60 is logged with 7 and committed; while it is committed with 8, the system crashes
after four writes, and once more in recovery. -/
theorem committed_survives_twice :
    let m₀ := boot mkfsGeometry fun _ => Bytes.zero
    let m₁ := logged 60 31 (Bytes.setWord Bytes.zero 0 7) m₀
    let m₂ := logged 60 31 (Bytes.setWord Bytes.zero 0 8) (endOp m₁).2
    ∃ r, recoverFromLog (boot mkfsGeometry
        (crashedRecoveries mkfsGeometry (crashDisk endOp m₂ 4) [1])) = (some (), r) ∧
      ((∀ b, ¬ mkfsGeometry.InLog b → r.disk b = m₁.view b) ∨
        ∀ b, ¬ mkfsGeometry.InLog b → r.disk b = m₂.view b) := by
  intro m₀ m₁ m₂
  have hq : Quiescent mkfsGeometry m₀ :=
    ⟨coherent_binit _ _, ⟨rfl, rfl, rfl⟩, fun _ _ => rfl, Bytes.word_zero 0⟩
  have ht₁ : Transaction mkfsGeometry m₀ [] m₁ := by
    refine .logged ?_ ?_ ?_ ?_ ?_
    on_goal 3 => unfold Geometry.Home
    all_goals decide +kernel
  have hc : Commits mkfsGeometry m₀ m₁.view (endOp m₁).2 :=
    ⟨[], m₁, ht₁, rfl, Prod.fst_eq_iff.mp (by decide +kernel)⟩
  have ht₂ : Transaction mkfsGeometry (endOp m₁).2 [] m₂ := by
    refine .logged ?_ ?_ ?_ ?_ ?_
    on_goal 3 => unfold Geometry.Home
    all_goals decide +kernel
  exact committed_survives hq .refl hc ht₂ 4 [1]

end Sbunix.Disk
