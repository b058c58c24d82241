import Sbunix.Lib.Bytes
import Sbunix.Lib.Kern
import Sbunix.Lib.Replay

/-!
# The buffer cache (`kernel/bio.c`)

Thirty-two buffers in a most-recently-used list stand between the kernel and
the disk. A buffer is identified by its index in `bcache`; the doubly linked
list is the list of those indices, head first. Every block write reaches the
disk through `virtio_disk_rw`, and the machine records the writes in issue
order, because a crash keeps a prefix of them.
-/

namespace Sbunix.Disk

open Lib List Kern Function

abbrev Block := Bytes 512

def NBUF : ℕ := 32

/-- `struct buf`, without its list links. -/
structure Buf where
  valid : Bool
  dirty : Bool
  refcnt : ℤ
  blockno : ℕ
  data : Block

/-- The in-memory log of `kernel/log.c`: geometry, then the pending transaction. -/
structure Log where
  start : ℕ
  size : ℕ
  diskSize : ℕ
  outstanding : Bool
  nblocks : ℕ
  blocks : ℕ → ℕ
  bufs : ℕ → Option ℕ

structure Machine where
  disk : ℕ → Block
  writes : List (ℕ × Block)
  buf : ℕ → Buf
  lru : List ℕ
  log : Log

namespace Machine

def setBuf (m : Machine) (i : ℕ) (b : Buf) : Machine :=
  { m with buf := update m.buf i b }

/-- Unlink buffer `i` and insert it after the list head. -/
def toHead (m : Machine) (i : ℕ) : Machine :=
  { m with lru := i :: m.lru.erase i }

/-- `virtio_disk_rw(blockno, data, 1)` -/
def diskWrite (m : Machine) (blockno : ℕ) (data : Block) : Machine :=
  { m with disk := update m.disk blockno data, writes := m.writes ++ [(blockno, data)] }

end Machine

/-- `binit` on a machine with the given disk: every buffer cold, in array order. -/
def binit (disk : ℕ → Block) (log : Log) : Machine where
  disk := disk
  writes := []
  buf := fun _ => { valid := false, dirty := false, refcnt := 0, blockno := 0, data := Bytes.zero }
  lru := List.range NBUF
  log := log

/-- A cached copy of `blockno`. -/
def Machine.hit (m : Machine) (blockno i : ℕ) : Bool :=
  (m.buf i).blockno == blockno && (m.buf i).valid

def Machine.evictable (m : Machine) (i : ℕ) : Bool :=
  (m.buf i).refcnt == 0 && !(m.buf i).dirty

def bget (blockno : ℕ) : Kern Machine ℕ := fun m =>
  match m.lru.find? (m.hit blockno) with
  | some i => (some i, m.setBuf i { m.buf i with refcnt := (m.buf i).refcnt + 1 })
  | none =>
    -- the source searches from the tail: least recently used first
    match m.lru.reverse.find? m.evictable with
    | some i =>
      (some i, (m.setBuf i { m.buf i with
        blockno := blockno, valid := false, dirty := false, refcnt := 1 }).toHead i)
    | none => Kern.panic m

def bread (blockno : ℕ) : Kern Machine ℕ := do
  let i ← bget blockno
  let m ← Kern.get
  if (m.buf i).valid then
    pure i
  else do
    Kern.modify fun m => m.setBuf i { m.buf i with data := m.disk blockno, valid := true }
    pure i

def bwrite (i : ℕ) : Kern Machine Unit :=
  Kern.modify fun m =>
    (m.diskWrite (m.buf i).blockno (m.buf i).data).setBuf i { m.buf i with dirty := false }

def brelse (i : ℕ) : Kern Machine Unit :=
  Kern.modify fun m =>
    let m' := m.setBuf i { m.buf i with refcnt := (m.buf i).refcnt - 1 }
    if (m'.buf i).refcnt = 0 then m'.toHead i else m'

/-! ## Coherence -/

/-- The cache agrees with the disk except where a buffer is marked dirty. -/
structure Coherent (m : Machine) : Prop where
  nodup : m.lru.Nodup
  mem_lru : ∀ i, i ∈ m.lru ↔ i < NBUF
  unique : ∀ i ∈ m.lru, ∀ j ∈ m.lru, (m.buf i).valid = true → (m.buf j).valid = true →
    (m.buf i).blockno = (m.buf j).blockno → i = j
  clean : ∀ i ∈ m.lru, (m.buf i).valid = true → (m.buf i).dirty = false →
    (m.buf i).data = m.disk (m.buf i).blockno
  dirty_valid : ∀ i ∈ m.lru, (m.buf i).dirty = true → (m.buf i).valid = true
  refcnt_nonneg : ∀ i ∈ m.lru, 0 ≤ (m.buf i).refcnt

/-- The contents the kernel sees for a block: the cached copy if there is one. -/
def Machine.view (m : Machine) (b : ℕ) : Block :=
  match m.lru.find? (m.hit b) with
  | some i => (m.buf i).data
  | none => m.disk b

variable {m m' : Machine} {b i : ℕ}

theorem Machine.hit_iff : m.hit b i = true ↔ (m.buf i).blockno = b ∧ (m.buf i).valid = true := by
  simp [hit]

theorem Machine.evictable_iff :
    m.evictable i = true ↔ (m.buf i).refcnt = 0 ∧ (m.buf i).dirty = false := by
  simp [evictable]

theorem Coherent.find?_eq (h : Coherent m) (hi : i ∈ m.lru)
    (hv : (m.buf i).valid = true) (hb : (m.buf i).blockno = b) :
    m.lru.find? (m.hit b) = some i := by
  cases hf : m.lru.find? (m.hit b) with
  | none =>
    have := find?_eq_none.mp hf i hi
    exact absurd (Machine.hit_iff.mpr ⟨hb, hv⟩) this
  | some j =>
    have hj := Machine.hit_iff.mp (find?_some hf)
    rw [h.unique j (mem_of_find?_eq_some hf) i hi hj.2 hv (hj.1.trans hb.symm)]

theorem Coherent.view_eq (h : Coherent m) (hi : i ∈ m.lru)
    (hv : (m.buf i).valid = true) (hb : (m.buf i).blockno = b) :
    m.view b = (m.buf i).data := by
  unfold Machine.view
  rw [h.find?_eq hi hv hb]

theorem Machine.view_disk (h : ∀ i ∈ m.lru, (m.buf i).valid = true → (m.buf i).blockno ≠ b) :
    m.view b = m.disk b := by
  unfold Machine.view
  have : m.lru.find? (m.hit b) = none := by
    rw [find?_eq_none]
    intro i hi hh
    obtain ⟨hb, hv⟩ := hit_iff.mp hh
    exact h i hi hv hb
  rw [this]

theorem Coherent.view_cases (h : Coherent m) (b : ℕ) :
    (∃ i ∈ m.lru, (m.buf i).valid = true ∧ (m.buf i).blockno = b ∧ m.view b = (m.buf i).data) ∨
    ((∀ i ∈ m.lru, (m.buf i).valid = true → (m.buf i).blockno ≠ b) ∧ m.view b = m.disk b) := by
  by_cases he : ∃ i ∈ m.lru, (m.buf i).valid = true ∧ (m.buf i).blockno = b
  · obtain ⟨i, hi, hv, hb⟩ := he
    exact Or.inl ⟨i, hi, hv, hb, h.view_eq hi hv hb⟩
  · push Not at he
    exact Or.inr ⟨he, Machine.view_disk he⟩

theorem Coherent.view_of_clean (h : Coherent m)
    (hd : ∀ i ∈ m.lru, (m.buf i).dirty = true → (m.buf i).blockno ≠ b) :
    m.view b = m.disk b := by
  rcases h.view_cases b with ⟨i, hi, hv, hb, he⟩ | ⟨_, he⟩
  · rw [he, h.clean i hi hv ?_, hb]
    by_contra hc
    exact hd i hi (by simpa using hc) hb
  · exact he

theorem coherent_binit (disk : ℕ → Block) (log : Log) : Coherent (binit disk log) where
  nodup := nodup_range
  mem_lru := by simp [binit]
  unique := by simp [binit]
  clean := by simp [binit]
  dirty_valid := by simp [binit]
  refcnt_nonneg := by simp [binit]

/-! ## What `bread` and `brelse` do -/

/-- `bread b` returned buffer `i`: a pinned, valid copy of what the kernel sees for
`b`, with every other buffer untouched. -/
structure Fetched (m m' : Machine) (b i : ℕ) : Prop where
  disk : m'.disk = m.disk
  writes : m'.writes = m.writes
  log : m'.log = m.log
  coherent : Coherent m'
  mem : i ∈ m'.lru
  valid : (m'.buf i).valid = true
  blockno : (m'.buf i).blockno = b
  data : (m'.buf i).data = m.view b
  view : ∀ c, m'.view c = m.view c
  other : ∀ j, j ≠ i → m'.buf j = m.buf j
  self : ((m.buf i).valid = true ∧ (m.buf i).blockno = b ∧
      m'.buf i = { m.buf i with refcnt := (m.buf i).refcnt + 1 }) ∨
    ((m.buf i).refcnt = 0 ∧ (m.buf i).dirty = false ∧ (m'.buf i).refcnt = 1 ∧
      (m'.buf i).dirty = false)

variable {j : ℕ}

theorem mem_toHead (hi : i ∈ m.lru) : j ∈ (m.toHead i).lru ↔ j ∈ m.lru := by
  simp only [Machine.toHead, mem_cons]
  by_cases hj : j = i
  · simp [hj, hi]
  · simp [hj, mem_erase_of_ne hj]

theorem nodup_toHead (i : ℕ) (h : m.lru.Nodup) : (m.toHead i).lru.Nodup := by
  simp only [Machine.toHead, nodup_cons]
  exact ⟨h.not_mem_erase, h.erase i⟩

theorem Coherent.of_same (h : Coherent m) (hd : m'.disk = m.disk)
    (hn : m'.lru.Nodup) (hl : ∀ i, i ∈ m'.lru ↔ i ∈ m.lru)
    (hb : ∀ i, (m'.buf i).valid = (m.buf i).valid ∧ (m'.buf i).dirty = (m.buf i).dirty ∧
      (m'.buf i).blockno = (m.buf i).blockno ∧ (m'.buf i).data = (m.buf i).data)
    (hr : ∀ i ∈ m.lru, 0 ≤ (m'.buf i).refcnt) : Coherent m' where
  nodup := hn
  mem_lru i := (hl i).trans (h.mem_lru i)
  unique i hi j hj hvi hvj he := by
    rw [(hb i).1] at hvi
    rw [(hb j).1] at hvj
    rw [(hb i).2.2.1, (hb j).2.2.1] at he
    exact h.unique i ((hl i).mp hi) j ((hl j).mp hj) hvi hvj he
  clean i hi hv hdi := by
    rw [(hb i).1] at hv
    rw [(hb i).2.1] at hdi
    rw [(hb i).2.2.2, (hb i).2.2.1, hd]
    exact h.clean i ((hl i).mp hi) hv hdi
  dirty_valid i hi hdi := by
    rw [(hb i).2.1] at hdi
    rw [(hb i).1]
    exact h.dirty_valid i ((hl i).mp hi) hdi
  refcnt_nonneg i hi := hr i ((hl i).mp hi)

theorem Coherent.view_of_same (h : Coherent m) (h' : Coherent m')
    (hd : m'.disk = m.disk) (hl : ∀ i, i ∈ m'.lru ↔ i ∈ m.lru)
    (hb : ∀ i, (m'.buf i).valid = (m.buf i).valid ∧
      (m'.buf i).blockno = (m.buf i).blockno ∧ (m'.buf i).data = (m.buf i).data) (c : ℕ) :
    m'.view c = m.view c := by
  rcases h.view_cases c with ⟨i, hi, hv, hc, he⟩ | ⟨hn, he⟩
  · rw [he, h'.view_eq ((hl i).mpr hi) ((hb i).1.trans hv) ((hb i).2.1.trans hc), (hb i).2.2]
  · rw [he, ← hd]
    apply Machine.view_disk
    intro i hi hv
    rw [(hb i).2.1]
    exact hn i ((hl i).mp hi) ((hb i).1.symm.trans hv)

theorem bread_cases (b : ℕ) (m : Machine) : (∃ i, m.lru.find? (m.hit b) = some i ∧
      bread b m = (some i, m.setBuf i { m.buf i with refcnt := (m.buf i).refcnt + 1 })) ∨
    (∃ i, m.lru.find? (m.hit b) = none ∧ m.lru.reverse.find? m.evictable = some i ∧
      bread b m = (some i, (m.setBuf i ⟨true, false, 1, b, m.disk b⟩).toHead i)) ∨
    (m.lru.find? (m.hit b) = none ∧ m.lru.reverse.find? m.evictable = none ∧
      bread b m = (none, m)) := by
  cases hf : m.lru.find? (m.hit b) with
  | some i =>
    left
    refine ⟨i, rfl, ?_⟩
    have hv := (Machine.hit_iff.mp (find?_some hf)).2
    have hg : bget b m = (some i, m.setBuf i { m.buf i with refcnt := (m.buf i).refcnt + 1 }) := by
      simp [bget, hf]
    unfold bread
    rw [bind_some hg, get_bind]
    simp [Machine.setBuf, hv]
  | none =>
    right
    cases hr : m.lru.reverse.find? m.evictable with
    | some i =>
      left
      refine ⟨i, rfl, rfl, ?_⟩
      have hg : bget b m = (some i, (m.setBuf i { m.buf i with
          blockno := b, valid := false, dirty := false, refcnt := 1 }).toHead i) := by
        simp [bget, hf, hr]
      unfold bread
      rw [bind_some hg, get_bind]
      simp [Machine.setBuf, Machine.toHead, modify_bind]
    | none =>
      right
      refine ⟨rfl, rfl, ?_⟩
      have hg : bget b m = (none, m) := by simp [bget, hf, hr]
      exact bind_none hg

theorem fetched_hit (h : Coherent m) (hf : m.lru.find? (m.hit b) = some i) :
    Fetched m (m.setBuf i { m.buf i with refcnt := (m.buf i).refcnt + 1 }) b i := by
  have hi := mem_of_find?_eq_some hf
  obtain ⟨hb, hv⟩ := Machine.hit_iff.mp (find?_some hf)
  have hsame : ∀ j, let m' := m.setBuf i { m.buf i with refcnt := (m.buf i).refcnt + 1 }
      (m'.buf j).valid = (m.buf j).valid ∧ (m'.buf j).dirty = (m.buf j).dirty ∧
      (m'.buf j).blockno = (m.buf j).blockno ∧ (m'.buf j).data = (m.buf j).data := by
    intro j
    by_cases hj : j = i
    · subst hj
      simp [Machine.setBuf]
    · simp [Machine.setBuf, update_of_ne hj]
  have hc : Coherent (m.setBuf i { m.buf i with refcnt := (m.buf i).refcnt + 1 }) := by
    refine h.of_same rfl h.nodup (fun _ => Iff.rfl) hsame fun j hj => ?_
    have := h.refcnt_nonneg j hj
    by_cases hji : j = i
    · subst hji
      simp only [Machine.setBuf, update_self]
      omega
    · simpa [Machine.setBuf, update_of_ne hji]
  exact
    { disk := rfl
      writes := rfl
      log := rfl
      coherent := hc
      mem := hi
      valid := by simp [Machine.setBuf, hv]
      blockno := by simp [Machine.setBuf, hb]
      data := by simp [Machine.setBuf, h.view_eq hi hv hb]
      view := h.view_of_same hc rfl (fun _ => Iff.rfl)
        fun j => ⟨(hsame j).1, (hsame j).2.2⟩
      other := fun j hj => by simp [Machine.setBuf, update_of_ne hj]
      self := Or.inl ⟨hv, hb, by simp [Machine.setBuf]⟩ }

theorem Coherent.fill {x : Buf} (h : Coherent m) (m' : Machine) (hi : i ∈ m.lru)
    (hn : m'.lru.Nodup) (hl : ∀ j, j ∈ m'.lru ↔ j ∈ m.lru) (hself : m'.buf i = x)
    (hother : ∀ j, j ≠ i → m'.buf j = m.buf j) (hx : x.valid = true ∧ 0 ≤ x.refcnt)
    (hclean : x.dirty = false → m'.disk x.blockno = x.data)
    (hdisk : ∀ b ≠ x.blockno, m'.disk b = m.disk b)
    (hno : ∀ j ∈ m.lru, j ≠ i → (m.buf j).valid = true → (m.buf j).blockno ≠ x.blockno)
    (hold : (m.buf i).dirty = false ∨ (m.buf i).blockno = x.blockno) :
    Coherent m' ∧ m'.view = update m.view x.blockno x.data := by
  obtain ⟨hv, hr⟩ := hx
  have hc : Coherent m' := by
    refine ⟨hn, fun j => (hl j).trans (h.mem_lru j), fun j hj k hk hvj hvk he => ?_,
      fun j hj hvj hdj => ?_,
      fun j hj hdj => ?_, fun j hj => ?_⟩
    · rw [hl] at hj hk
      by_cases hji : j = i <;> by_cases hki : k = i
      · rw [hji, hki]
      · rw [hother k hki] at hvk he
        rw [hji, hself] at he
        exact absurd he.symm (hno k hk hki hvk)
      · rw [hother j hji] at hvj he
        rw [hki, hself] at he
        exact absurd he (hno j hj hji hvj)
      · rw [hother j hji] at hvj he
        rw [hother k hki] at hvk he
        exact h.unique j hj k hk hvj hvk he
    · by_cases hji : j = i
      · rw [hji, hself] at hdj ⊢
        exact (hclean hdj).symm
      · rw [hother j hji] at hvj hdj ⊢
        rw [hdisk _ (hno j ((hl j).mp hj) hji hvj)]
        exact h.clean j ((hl j).mp hj) hvj hdj
    · by_cases hji : j = i
      · rw [hji, hself, hv]
      · rw [hother j hji] at hdj ⊢
        exact h.dirty_valid j ((hl j).mp hj) hdj
    · by_cases hji : j = i
      · rwa [hji, hself]
      · rw [hother j hji]
        exact h.refcnt_nonneg j ((hl j).mp hj)
  refine ⟨hc, funext fun c => ?_⟩
  by_cases hcb : c = x.blockno
  · rw [hcb, update_self, hc.view_eq ((hl i).mpr hi) (by rw [hself, hv]) (by rw [hself]), hself]
  rw [update_of_ne hcb]
  -- no buffer holds `c` now, unless another one did before
  have hnow : (∀ j ∈ m.lru, j ≠ i → (m.buf j).valid = true → (m.buf j).blockno ≠ c) →
      m'.view c = m.disk c := by
    intro hnone
    rw [Machine.view_disk, hdisk c hcb]
    intro j hj hvj hjc
    by_cases hji : j = i
    · rw [hji, hself] at hjc
      exact hcb hjc.symm
    · rw [hother j hji] at hvj hjc
      exact hnone j ((hl j).mp hj) hji hvj hjc
  rcases h.view_cases c with ⟨j, hj, hvj, hjc, he⟩ | ⟨hnone, he⟩
  · by_cases hji : j = i
    · subst hji
      have hdj := hold.resolve_right (hjc ▸ hcb)
      rw [he, h.clean j hj hvj hdj, hjc]
      exact hnow fun k hk hkj hvk hkc => hkj (h.unique k hk j hj hvk hvj (hkc.trans hjc.symm))
    · rw [he, hc.view_eq ((hl j).mpr hj) (by rw [hother j hji, hvj]) (by rw [hother j hji, hjc]),
        hother j hji]
  · rw [he]
    exact hnow fun j hj _ => hnone j hj

theorem fetched_load (h : Coherent m)
    (hf : m.lru.find? (m.hit b) = none) (hr : m.lru.reverse.find? m.evictable = some i) :
    Fetched m ((m.setBuf i ⟨true, false, 1, b, m.disk b⟩).toHead i) b i := by
  have hi : i ∈ m.lru := mem_reverse.mp (mem_of_find?_eq_some hr)
  obtain ⟨href, hdirty⟩ := Machine.evictable_iff.mp (find?_some hr)
  have hview : m.view b = m.disk b := by simp [Machine.view, hf]
  set m' := (m.setBuf i ⟨true, false, 1, b, m.disk b⟩).toHead i
  have hself : m'.buf i = ⟨true, false, 1, b, m.disk b⟩ := update_self _ _ _
  have hother : ∀ j, j ≠ i → m'.buf j = m.buf j := fun j hj => update_of_ne hj _ _
  have hno : ∀ j ∈ m.lru, j ≠ i → (m.buf j).valid = true → (m.buf j).blockno ≠ b :=
    fun j hj _ hv hb =>
    find?_eq_none.mp hf j hj (Machine.hit_iff.mpr ⟨hb, hv⟩)
  obtain ⟨hc, hv⟩ := h.fill m' hi (nodup_toHead i h.nodup) (fun j => mem_toHead hi) hself hother
    ⟨rfl, Int.one_nonneg⟩ (fun _ => rfl) (fun _ _ => rfl) hno (.inl hdirty)
  refine ⟨rfl, rfl, rfl, hc, (mem_toHead hi).mpr hi, by rw [hself], by rw [hself], by
    rw [hself, hview],
    fun c => ?_, hother, Or.inr ⟨href, hdirty, by rw [hself], by rw [hself]⟩⟩
  rw [hv, ← hview, update_eq_self]

theorem bread_some (h : Coherent m) (he : bread b m = (some i, m')) : Fetched m m' b i := by
  rcases bread_cases b m with ⟨j, hf, hj⟩ | ⟨j, hf, hr, hj⟩ | ⟨_, _, hj⟩
  · rw [hj, Prod.mk.injEq, Option.some.injEq] at he
    obtain ⟨rfl, rfl⟩ := he
    exact fetched_hit h hf
  · rw [hj, Prod.mk.injEq, Option.some.injEq] at he
    obtain ⟨rfl, rfl⟩ := he
    exact fetched_load h hf hr
  · simp [hj] at he

theorem bread_none (he : bread b m = (none, m')) : m' = m := by
  rcases bread_cases b m with ⟨j, _, hj⟩ | ⟨j, _, _, hj⟩ | ⟨_, _, hj⟩
  · simp [hj] at he
  · simp [hj] at he
  · rw [hj, Prod.mk.injEq] at he
    exact he.2.symm

theorem bread_returns (b : ℕ) (hj : j ∈ m.lru)
    (he : m.evictable j = true) : ∃ i m', bread b m = (some i, m') := by
  rcases bread_cases b m with ⟨i, _, hi⟩ | ⟨i, _, _, hi⟩ | ⟨_, hr, _⟩
  · exact ⟨i, _, hi⟩
  · exact ⟨i, _, hi⟩
  · exact absurd he (find?_eq_none.mp hr j (mem_reverse.mpr hj))

/-- Two buffers may be recycled: as many as any step of the log pins at once. -/
def Roomy (m : Machine) : Prop :=
  ∃ i ∈ m.lru, ∃ j ∈ m.lru, i ≠ j ∧ m.evictable i = true ∧ m.evictable j = true

theorem Roomy.bread_returns (h : Roomy m) (b : ℕ) : ∃ i m', bread b m = (some i, m') := by
  obtain ⟨i, hi, _, _, _, he, _⟩ := h
  exact Disk.bread_returns b hi he

theorem Roomy.bread_second (h : Roomy m) (hc : Coherent m)
    (hf : Fetched m m' b i) (c : ℕ) : ∃ j m'', bread c m' = (some j, m'') := by
  obtain ⟨x, hx, y, hy, hxy, hex, hey⟩ := h
  obtain ⟨z, hz, hzi, hez⟩ : ∃ z ∈ m.lru, z ≠ i ∧ m.evictable z = true := by
    by_cases hxi : x = i
    · exact ⟨y, hy, fun he => hxy (hxi.trans he.symm), hey⟩
    · exact ⟨x, hx, hxi, hex⟩
  refine Disk.bread_returns c (j := z) ?_ ?_
  · rw [hf.coherent.mem_lru, ← hc.mem_lru]
    exact hz
  · rw [Machine.evictable_iff] at hez ⊢
    rwa [hf.other z hzi]

namespace Fetched

theorem refcnt (h : Fetched m m' b i) (j : ℕ) :
    (m'.buf j).refcnt = (m.buf j).refcnt + if j = i then 1 else 0 := by
  by_cases hj : j = i
  · subst hj
    rcases h.self with ⟨_, _, he⟩ | ⟨h0, _, h1, _⟩
    · simp [he]
    · simp [h0, h1]
  · simp [h.other j hj, hj]

theorem dirty (h : Fetched m m' b i) (j : ℕ) : (m'.buf j).dirty = (m.buf j).dirty := by
  by_cases hj : j = i
  · subst hj
    rcases h.self with ⟨_, _, he⟩ | ⟨_, h0, _, h1⟩
    · rw [he]
    · rw [h0, h1]
  · rw [h.other j hj]

theorem keep (h : Fetched m m' b i) (hj : (m.buf j).dirty = true ∨ (m.buf j).refcnt ≠ 0) :
    (m'.buf j).valid = (m.buf j).valid ∧ (m'.buf j).blockno = (m.buf j).blockno ∧
      (m'.buf j).data = (m.buf j).data := by
  by_cases hji : j = i
  · subst hji
    rcases h.self with ⟨_, _, he⟩ | ⟨h0, hd, _, _⟩
    · simp [he]
    · simp [h0, hd] at hj
  · simp [h.other j hji]

end Fetched

/-- `brelse i`: one reference less and nothing else a reader can see. -/
structure Released (m m' : Machine) (i : ℕ) : Prop where
  disk : m'.disk = m.disk
  writes : m'.writes = m.writes
  log : m'.log = m.log
  coherent : Coherent m'
  view : ∀ c, m'.view c = m.view c
  buf : ∀ j, m'.buf j =
    if j = i then { m.buf i with refcnt := (m.buf i).refcnt - 1 } else m.buf j

theorem brelse_spec (h : Coherent m) (hi : i ∈ m.lru) (hp : 0 < (m.buf i).refcnt) :
    ∃ m', brelse i m = (some (), m') ∧ Released m m' i := by
  set m₁ := m.setBuf i { m.buf i with refcnt := (m.buf i).refcnt - 1 } with hm₁
  have hbuf : ∀ j, m₁.buf j =
      if j = i then { m.buf i with refcnt := (m.buf i).refcnt - 1 } else m.buf j := by
    intro j
    by_cases hj : j = i
    · simp [hm₁, Machine.setBuf, hj]
    · simp [hm₁, Machine.setBuf, hj]
  have hsame : ∀ j, (m₁.buf j).valid = (m.buf j).valid ∧ (m₁.buf j).dirty = (m.buf j).dirty ∧
      (m₁.buf j).blockno = (m.buf j).blockno ∧ (m₁.buf j).data = (m.buf j).data := by
    intro j
    rw [hbuf]
    split
    · next hj => subst hj; simp
    · simp
  have hsame' := fun j => And.intro (hsame j).1 (hsame j).2.2
  have hnn : ∀ j ∈ m.lru, 0 ≤ (m₁.buf j).refcnt := by
    intro j hj
    have := h.refcnt_nonneg j hj
    rw [hbuf]
    split
    · simp only
      omega
    · exact this
  by_cases h0 : (m₁.buf i).refcnt = 0
  · have hc : Coherent (m₁.toHead i) :=
      h.of_same rfl (nodup_toHead i h.nodup) (fun j => mem_toHead hi) hsame hnn
    exact ⟨m₁.toHead i, by simp [brelse, ← hm₁, h0], rfl, rfl, rfl, hc,
      h.view_of_same hc rfl (fun j => mem_toHead hi) hsame', hbuf⟩
  · have hc : Coherent m₁ := h.of_same rfl h.nodup (fun _ => Iff.rfl) hsame hnn
    exact ⟨m₁, by simp [brelse, ← hm₁, h0], rfl, rfl, rfl, hc,
      h.view_of_same hc rfl (fun _ => Iff.rfl) hsame', hbuf⟩

/-- Filling buffer `i`, a copy of `b`, with `v` and writing it out. -/
structure Stored (m m' : Machine) (i b : ℕ) (v : Block) : Prop where
  disk : m'.disk = update m.disk b v
  writes : m'.writes = m.writes ++ [(b, v)]
  log : m'.log = m.log
  lru : m'.lru = m.lru
  coherent : Coherent m'
  view : m'.view = update m.view b v
  buf : ∀ j, m'.buf j =
    if j = i then { m.buf i with data := v, dirty := false } else m.buf j

def setData (i : ℕ) (data : Block) : Kern Machine Unit :=
  Kern.modify fun m => m.setBuf i { m.buf i with data := data }

theorem Coherent.store (h : Coherent m) (hi : i ∈ m.lru)
    (hv : (m.buf i).valid = true) (hb : (m.buf i).blockno = b) (v : Block) :
    Stored m (((m.diskWrite b v).setBuf i { m.buf i with data := v, dirty := false })) i b v := by
  set m' := (m.diskWrite b v).setBuf i { m.buf i with data := v, dirty := false }
  have hself : m'.buf i = { m.buf i with data := v, dirty := false } := update_self _ _ _
  have hother : ∀ j, j ≠ i → m'.buf j = m.buf j := fun j hj => update_of_ne hj _ _
  have hno : ∀ j ∈ m.lru, j ≠ i → (m.buf j).valid = true → (m.buf j).blockno ≠ (m.buf i).blockno :=
    fun j hj hji hvj hbj => hji (h.unique j hj i hi hvj hv hbj)
  obtain ⟨hc, hview⟩ := h.fill m' hi h.nodup (fun _ => Iff.rfl) hself hother
    ⟨hv, h.refcnt_nonneg i hi⟩ (fun _ => hb ▸ update_self _ _ _)
      (fun c hc => update_of_ne (hb ▸ hc) _ _) hno
    (.inr rfl)
  refine ⟨rfl, rfl, rfl, rfl, hc, hb ▸ hview, fun j => ?_⟩
  split
  · next hj => rw [hj, hself]
  · next hj => exact hother j hj

theorem Coherent.withLog (h : Coherent m) (l : Log) : Coherent { m with log := l } :=
  ⟨h.nodup, h.mem_lru, h.unique, h.clean, h.dirty_valid, h.refcnt_nonneg⟩

theorem Coherent.mem_iff (h : Coherent m) (h' : Coherent m') (j : ℕ) : j ∈ m'.lru ↔ j ∈ m.lru :=
  (h'.mem_lru j).trans (h.mem_lru j).symm

def pin (i j : ℕ) : ℤ := if j = i then 1 else 0

/-- The blocks `ws` are replaced through the cache, and the references `pins` are held. The only
dirty marks that may go are those of the blocks. -/
structure Touched (m m' : Machine) (ws : List (ℕ × Block)) (pins : ℕ → ℤ) : Prop where
  disk : m'.disk = applyWrites ws m.disk
  writes : m'.writes = m.writes ++ ws
  coherent : Coherent m'
  view : m'.view = applyWrites ws m.view
  refcnt : ∀ j, (m'.buf j).refcnt = (m.buf j).refcnt + pins j
  dirty : ∀ j ∈ m.lru, (m'.buf j).dirty = true ↔
    (m.buf j).dirty = true ∧ (m.buf j).blockno ∉ ws.map Prod.fst
  keep : ∀ j ∈ m.lru, (m'.buf j).dirty = true → (m'.buf j).valid = (m.buf j).valid ∧
    (m'.buf j).blockno = (m.buf j).blockno ∧ (m'.buf j).data = (m.buf j).data
  pinned : ∀ j, (m.buf j).refcnt ≠ 0 → (m'.buf j).valid = (m.buf j).valid ∧
    (m'.buf j).blockno = (m.buf j).blockno

variable {m₁ m₂ m₃ : Machine} {ws vs : List (ℕ × Block)} {p q : ℕ → ℤ} {v : Block}

theorem Fetched.touched (h : Fetched m m₁ b i) : Touched m m₁ [] (pin i) where
  disk := h.disk
  writes := by rw [h.writes, append_nil]
  coherent := h.coherent
  view := funext h.view
  refcnt := h.refcnt
  dirty j _ := by simp [h.dirty j]
  keep j _ hd := h.keep (.inl (h.dirty j ▸ hd))
  pinned j hj := ⟨(h.keep (.inr hj)).1, (h.keep (.inr hj)).2.1⟩

theorem Fetched.live (hc : Coherent m) (h : Fetched m m₁ b i) (j : ℕ) (hj : (m.buf j).refcnt ≠ 0) :
    (m₁.buf j).refcnt ≠ 0 := by
  have h0 := hc.refcnt_nonneg i ((hc.mem_iff h.coherent i).mp h.mem)
  rw [h.refcnt]
  split
  · next hji =>
    rw [hji]
    omega
  · simpa using hj

theorem Fetched.stored (h : Fetched m m₁ b i) (hs : Stored m₁ m₂ i b v) :
    Touched m₁ m₂ [(b, v)] 0 := by
  have hself : (m₂.buf i).dirty = false := by rw [hs.buf, if_pos rfl]
  have hother : ∀ j, j ≠ i → m₂.buf j = m₁.buf j := fun j hj => by rw [hs.buf, if_neg hj]
  have hsame : ∀ j, (m₂.buf j).refcnt = (m₁.buf j).refcnt ∧ (m₂.buf j).valid = (m₁.buf j).valid ∧
      (m₂.buf j).blockno = (m₁.buf j).blockno := by
    intro j
    rw [hs.buf]
    split
    · next hj => simp [hj]
    · simp
  refine ⟨hs.disk, hs.writes, hs.coherent, hs.view, fun j => ?_, fun j hj => ?_, fun j _ hd => ?_,
    fun j _ => (hsame j).2⟩
  · rw [(hsame j).1, Pi.zero_apply, add_zero]
  · by_cases hji : j = i
    · simp [hji, hself, h.blockno]
    · rw [hother j hji]
      -- the buffer that was fetched is the only one that holds the block
      refine ⟨fun hd => ⟨hd, fun hb => hji ?_⟩, And.left⟩
      rw [map_singleton, mem_singleton] at hb
      exact h.coherent.unique j hj i h.mem (h.coherent.dirty_valid j hj hd) h.valid
        (hb.trans h.blockno.symm)
  · have hji : j ≠ i := by
      rintro rfl
      simp [hself] at hd
    simp [hother j hji]

theorem Touched.trans (hc : Coherent m) (h : Touched m m₁ ws p) (hp : Touched m₁ m₂ vs q)
    (hlive : ∀ j, (m.buf j).refcnt ≠ 0 → (m₁.buf j).refcnt ≠ 0) :
    Touched m m₂ (ws ++ vs) (p + q) := by
  have hmem := hc.mem_iff h.coherent
  refine ⟨?_, ?_, hp.coherent, ?_, ?_, ?_, ?_, ?_⟩
  · rw [hp.disk, h.disk, applyWrites_append]
  · rw [hp.writes, h.writes, append_assoc]
  · rw [hp.view, h.view, applyWrites_append]
  · intro j
    rw [hp.refcnt, h.refcnt, add_assoc, Pi.add_apply]
  · intro j hj
    rw [hp.dirty j ((hmem j).mpr hj), h.dirty j hj]
    constructor
    · rintro ⟨⟨hd, hn⟩, hb⟩
      rw [(h.keep j hj ((h.dirty j hj).mpr ⟨hd, hn⟩)).2.1] at hb
      rw [map_append, mem_append, not_or]
      exact ⟨hd, hn, hb⟩
    · rintro ⟨hd, hn⟩
      rw [map_append, mem_append, not_or] at hn
      rw [(h.keep j hj ((h.dirty j hj).mpr ⟨hd, hn.1⟩)).2.1]
      exact ⟨⟨hd, hn.1⟩, hn.2⟩
  · intro j hj hd
    obtain ⟨hv, hb, hda⟩ := hp.keep j ((hmem j).mpr hj) hd
    obtain ⟨hd', -⟩ := (hp.dirty j ((hmem j).mpr hj)).mp hd
    obtain ⟨hv', hb', hda'⟩ := h.keep j hj hd'
    exact ⟨hv.trans hv', hb.trans hb', hda.trans hda'⟩
  · intro j hj
    obtain ⟨hv, hb⟩ := hp.pinned j (hlive j hj)
    obtain ⟨hv', hb'⟩ := h.pinned j hj
    exact ⟨hv.trans hv', hb.trans hb'⟩

theorem Touched.withLog (h : Touched m m₁ ws p) (l : Log) : Touched m { m₁ with log := l } ws p :=
  ⟨h.disk, h.writes, h.coherent.withLog l, h.view, h.refcnt, h.dirty, h.keep, h.pinned⟩

theorem Touched.release (h : Touched m m₁ ws p) (hr : Released m₁ m₂ i) :
    Touched m m₂ ws (p - pin i) := by
  have hbuf : ∀ j, m₂.buf j = { m₁.buf j with refcnt := (m₁.buf j).refcnt - pin i j } := by
    intro j
    rw [hr.buf, pin]
    split
    · next hj => rw [hj]
    · rw [sub_zero]
  refine ⟨hr.disk.trans h.disk, hr.writes.trans h.writes, hr.coherent,
    (funext hr.view).trans h.view,
    fun j => ?_, fun j hj => ?_, fun j hj hd => ?_, fun j hj => ?_⟩
  · rw [hbuf, h.refcnt, Pi.sub_apply, add_sub_assoc]
  · rw [hbuf]
    exact h.dirty j hj
  · rw [hbuf] at hd ⊢
    exact h.keep j hj hd
  · rw [hbuf]
    exact h.pinned j hj

/-- A sequence of replaced blocks. -/
structure Wrote (m m' : Machine) (ws : List (ℕ × Block)) : Prop where
  disk : m'.disk = applyWrites ws m.disk
  writes : m'.writes = m.writes ++ ws
  coherent : Coherent m'
  view : m'.view = applyWrites ws m.view
  refcnt : ∀ j, (m'.buf j).refcnt = (m.buf j).refcnt
  dirty : ∀ j ∈ m.lru, (m'.buf j).dirty = true ↔
    (m.buf j).dirty = true ∧ (m.buf j).blockno ∉ ws.map Prod.fst
  keep : ∀ j ∈ m.lru, (m'.buf j).dirty = true → (m'.buf j).valid = (m.buf j).valid ∧
    (m'.buf j).blockno = (m.buf j).blockno ∧ (m'.buf j).data = (m.buf j).data
  pinned : ∀ j, (m.buf j).refcnt ≠ 0 → (m'.buf j).valid = (m.buf j).valid ∧
    (m'.buf j).blockno = (m.buf j).blockno

variable {m₄ : Machine} {c k : ℕ}

theorem Touched.wrote {p : ℕ → ℤ} (h : Touched m m₁ ws p) (hp : p = 0) : Wrote m m₁ ws :=
  ⟨h.disk, h.writes, h.coherent, h.view, fun j => by simp [h.refcnt, hp], h.dirty, h.keep, h.pinned⟩

theorem Wrote.touched (h : Wrote m m₁ ws) : Touched m m₁ ws 0 :=
  ⟨h.disk, h.writes, h.coherent, h.view, fun j => by simp [h.refcnt], h.dirty, h.keep, h.pinned⟩

theorem Wrote.refl (h : Coherent m) : Wrote m m [] :=
  ⟨rfl, by simp, h, rfl, fun _ => rfl, by simp, by simp, by simp⟩

theorem Wrote.trans (hc : Coherent m) (h : Wrote m m₁ ws) (hp : Wrote m₁ m₂ vs) :
    Wrote m m₂ (ws ++ vs) :=
  (h.touched.trans hc hp.touched fun j hj => h.refcnt j ▸ hj).wrote (add_zero 0)

theorem Wrote.withLog (h : Wrote m m₁ ws) (l : Log) : Wrote m { m₁ with log := l } ws :=
  (h.touched.withLog l).wrote rfl

/-- A block fetched and released leaves no trace, whatever happens to the log meanwhile. -/
theorem wrote_of_fetched_released {l : Log} (hf : Fetched m m₁ b i)
    (hr : Released { m₁ with log := l } m₂ i) : Wrote m m₂ [] :=
  ((hf.touched.withLog l).release hr).wrote (sub_self _)

theorem put_of_fetched (h : Coherent m) (hf : Fetched m m₁ b i) (hs : Stored m₁ m₂ i b v)
    (hr : Released m₂ m₃ i) : Wrote m m₃ [(b, v)] ∧ m₃.log = m.log := by
  have ht := (hf.touched.trans h (hf.stored hs) (hf.live h)).release hr
  exact ⟨ht.wrote (by ring), by rw [hr.log, hs.log, hf.log]⟩

/-- The idiom of `install_trans`: buffer `k` holds the source block while `i` is replaced. -/
theorem put_of_fetched_pair {m₀ : Machine} (h : Coherent m) (hk : Fetched m m₀ c k)
    (hf : Fetched m₀ m₁ b i)
    (hs : Stored m₁ m₂ i b v) (hr : Released m₂ m₃ k) (hr' : Released m₃ m₄ i) :
    Wrote m m₄ [(b, v)] ∧ m₄.log = m.log := by
  have ht := (hk.touched.trans h hf.touched (hk.live h)).trans h (hf.stored hs) fun j hj =>
    hf.live hk.coherent j (hk.live h j hj)
  exact ⟨((ht.release hr).release hr').wrote (by ring), by
    rw [hr'.log, hr.log, hs.log, hf.log, hk.log]⟩

def Idle (m : Machine) : Prop := ∀ j ∈ m.lru, (m.buf j).refcnt = 0 ∧ (m.buf j).dirty = false

theorem Idle.roomy (h : Idle m) (hc : Coherent m) : Roomy m := by
  have h0 : 0 ∈ m.lru := (hc.mem_lru 0).mpr (by decide)
  have h1 : 1 ∈ m.lru := (hc.mem_lru 1).mpr (by decide)
  exact ⟨0, h0, 1, h1, by decide, Machine.evictable_iff.mpr (h 0 h0),
    Machine.evictable_iff.mpr (h 1 h1)⟩

theorem Idle.wrote {ws : List (ℕ × Block)} (h : Idle m) (hc : Coherent m)
    (hw : Wrote m m' ws) : Idle m' := by
  intro j hj
  have hj' := (hc.mem_iff hw.coherent j).mp hj
  refine ⟨(hw.refcnt j).trans (h j hj').1, ?_⟩
  by_contra hd
  have := ((hw.dirty j hj').mp (by simpa using hd)).1
  simp [(h j hj').2] at this

end Sbunix.Disk
