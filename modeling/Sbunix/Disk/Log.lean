import Sbunix.Disk.Bio

/-!
# The write-ahead log (`kernel/log.c`)

A transaction collects the buffers the filesystem modifies. `end_op` copies
them to the log area, writes the header that names their home blocks, installs
them and clears the header. `recover_from_log` replays a header found on the
disk after a crash, once every entry of it has been checked.
-/

namespace Sbunix.Disk

open Lib List Kern Function

def LOG_HDR_MAX : ℕ := 15

/-- The log's place on the disk, as the superblock gives it to `log_init`. -/
structure Geometry where
  start : ℕ
  size : ℕ
  diskSize : ℕ
  start_ge : 2 ≤ start
  size_gt : LOG_HDR_MAX < size
  log_le : start + size ≤ diskSize
  disk_lt : diskSize < 2 ^ 32

/-- The layout `tools/mkfs.c` writes: 16 log blocks from block 2, 4051 blocks in all. -/
def mkfsGeometry : Geometry where
  start := 2
  size := 16
  diskSize := 4051
  start_ge := by decide
  size_gt := by decide
  log_le := by decide
  disk_lt := by decide

def Geometry.InLog (g : Geometry) (b : ℕ) : Prop := g.start ≤ b ∧ b < g.start + g.size

/-- A block the filesystem may log: the inode table, the bitmap and the data blocks
lie between the log and the end of the disk. -/
def Geometry.Home (g : Geometry) (b : ℕ) : Prop := g.start + g.size ≤ b ∧ b < g.diskSize

def logInit (g : Geometry) : Log where
  start := g.start
  size := g.size
  diskSize := g.diskSize
  outstanding := false
  nblocks := 0
  blocks := fun _ => 0
  bufs := fun _ => none

def setLog (f : Log → Log) : Kern Machine Unit :=
  Kern.modify fun m => { m with log := f m.log }

/-- `struct log_header`: word 0 is `n`, word `i + 1` is `block[i]`; the rest of the block stays. -/
def fillHeader (n : ℕ) (blocks : ℕ → ℕ) (lh : Block) : Block :=
  (List.range n).foldl (fun lh i => lh.setWord (i + 1) (blocks i)) (lh.setWord 0 n)

def writeLogHeader : Kern Machine Unit := do
  let m ← Kern.get
  let hb ← bread m.log.start
  let m ← Kern.get
  setData hb (fillHeader m.log.nblocks m.log.blocks (m.buf hb).data)
  bwrite hb
  brelse hb

/-- One turn of `install_trans`. -/
def installBlock (i : ℕ) : Kern Machine Unit := do
  let m ← Kern.get
  let lb ← bread (m.log.start + 1 + i)
  let db ← bread (m.log.blocks i)
  let m ← Kern.get
  setData db (m.buf lb).data
  bwrite db
  brelse lb
  brelse db

def installTrans : Kern Machine Unit := do
  let m ← Kern.get
  Kern.loop installBlock 0 m.log.nblocks

/-- The test `recover_from_log` makes on a header entry. -/
def Log.oob (l : Log) (b : ℕ) : Bool :=
  b == 0 || b == 1 || (decide (l.start ≤ b) && decide (b < (l.start + l.size) % 2 ^ 32)) ||
    (l.diskSize != 0 && decide (l.diskSize ≤ b))

/-- Copy the header's block numbers to `log.blocks`; `false` at the first bad one. -/
def checkEntries (lh : Block) : ℕ → ℕ → Kern Machine Bool
  | _, 0 => pure true
  | i, n + 1 => do
    let m ← Kern.get
    let b := lh.word (i + 1)
    if m.log.oob b then
      pure false
    else do
      setLog fun l => { l with blocks := update l.blocks i b }
      checkEntries lh (i + 1) n

def recoverFromLog : Kern Machine Unit := do
  let m ← Kern.get
  let hb ← bread m.log.start
  let m ← Kern.get
  let lh := (m.buf hb).data
  let n := lh.word 0
  if LOG_HDR_MAX < n then do
    brelse hb
    setLog fun l => { l with nblocks := 0 }
    writeLogHeader
  else do
    setLog fun l => { l with nblocks := n }
    let ok ← checkEntries lh 0 n
    if ok = false then do
      brelse hb
      setLog fun l => { l with nblocks := 0 }
      writeLogHeader
    else do
      brelse hb
      let m ← Kern.get
      if 0 < m.log.nblocks then do
        installTrans
        setLog fun l => { l with nblocks := 0 }
        writeLogHeader
      else
        pure ()

def beginOp : Kern Machine Unit := do
  let m ← Kern.get
  if m.log.outstanding then
    Kern.panic
  else
    setLog fun l => { l with outstanding := true, nblocks := 0, bufs := fun _ => none }

def logWrite (i : ℕ) : Kern Machine Unit := do
  let m ← Kern.get
  if m.log.outstanding = false then
    Kern.panic
  else if LOG_HDR_MAX ≤ m.log.nblocks then
    Kern.panic
  else
    match (List.range m.log.nblocks).find? (fun k => m.log.blocks k == (m.buf i).blockno) with
    | some k => setLog fun l => { l with bufs := update l.bufs k (some i) }
    | none => do
      setLog fun l => { l with
        nblocks := l.nblocks + 1
        blocks := update l.blocks l.nblocks (m.buf i).blockno
        bufs := update l.bufs l.nblocks (some i) }
      Kern.modify fun m => m.setBuf i { m.buf i with dirty := true }

/-- One turn of `end_op`'s first loop: copy a logged buffer to its log data block. -/
def copyToLog (i : ℕ) : Kern Machine Unit := do
  let m ← Kern.get
  match m.log.bufs i with
  | none => Kern.panic
  | some j => do
    let lb ← bread (m.log.start + 1 + i)
    let m ← Kern.get
    setData lb (m.buf j).data
    bwrite lb
    brelse lb

/-- One turn of `end_op`'s last loop. -/
def clearBuf (i : ℕ) : Kern Machine Unit :=
  Kern.modify fun m =>
    match m.log.bufs i with
    | none => m
    | some j =>
      { m.setBuf j { m.buf j with dirty := false } with
        log := { m.log with bufs := update m.log.bufs i none } }

def endOp : Kern Machine Unit := do
  let m ← Kern.get
  if m.log.outstanding = false then
    Kern.panic
  else do
    Kern.loop copyToLog 0 m.log.nblocks
    writeLogHeader
    installTrans
    setLog fun l => { l with nblocks := 0 }
    writeLogHeader
    Kern.loop clearBuf 0 LOG_HDR_MAX
    setLog fun l => { l with outstanding := false }

/-! ## The header block -/

theorem word_zero_foldl_setWord (blocks : ℕ → ℕ) (n : ℕ) (lh : Block) :
    ((List.range n).foldl (fun lh i => lh.setWord (i + 1) (blocks i)) lh).word 0 = lh.word 0 := by
  induction n with
  | zero => rfl
  | succ n ih =>
    rw [range_succ, foldl_append]
    simp only [foldl_cons, foldl_nil]
    rw [Bytes.word_setWord_ne _ _ (by omega), ih]

variable {n : ℕ} {m' : Machine}

theorem fillHeader_n (blocks : ℕ → ℕ) (lh : Block) (hn : n ≤ LOG_HDR_MAX) :
    (fillHeader n blocks lh).word 0 = n := by
  unfold fillHeader
  unfold LOG_HDR_MAX at hn
  rw [word_zero_foldl_setWord, Bytes.word_setWord lh (by omega) (by omega), if_pos rfl]

variable {b i : ℕ} {m : Machine}

theorem fillHeader_block {blocks : ℕ → ℕ} (lh : Block) (hn : n ≤ LOG_HDR_MAX)
    (hi : i < n) (hb : blocks i < 2 ^ 32) : (fillHeader n blocks lh).word (i + 1) = blocks i := by
  unfold LOG_HDR_MAX at hn
  unfold fillHeader
  generalize lh.setWord 0 n = lh'
  induction n with
  | zero => omega
  | succ n ih =>
    rw [range_succ, foldl_append]
    simp only [foldl_cons, foldl_nil]
    rcases Nat.lt_succ_iff_lt_or_eq.mp hi with hlt | rfl
    · rw [Bytes.word_setWord_ne _ _ (by omega)]
      exact ih (by omega) hlt
    · rw [Bytes.word_setWord _ (by omega) hb, if_pos rfl]

/-! ## Each step replaces one block -/

theorem store_apply (hb : (m.buf i).blockno = b) (v : Block) :
    (setData i v >>= fun _ => bwrite i) m =
      (some (), (m.diskWrite b v).setBuf i { m.buf i with data := v, dirty := false }) := by
  unfold setData bwrite
  rw [modify_bind]
  simp [Machine.setBuf, Machine.diskWrite, hb]

section

variable (h : Coherent m)
include h

theorem Fetched.pinned (hf : Fetched m m' b i) : 0 < (m'.buf i).refcnt := by
  have h0 := h.refcnt_nonneg i ((h.mem_iff hf.coherent i).mp hf.mem)
  have h1 := hf.refcnt i
  rw [if_pos rfl] at h1
  omega

theorem storeRelease_spec {m₁ : Machine} (hf : Fetched m m₁ b i) (v : Block) :
    ∃ m', (do setData i v; bwrite i; brelse i) m₁ = (some (), m') ∧
      Wrote m m' [(b, v)] ∧ m'.log = m.log := by
  have hs := hf.coherent.store hf.mem hf.valid hf.blockno v
  obtain ⟨m', hm', hr⟩ := brelse_spec hs.coherent (hs.lru ▸ hf.mem) <| by
    rw [hs.buf, if_pos rfl]
    exact hf.pinned h
  refine ⟨m', ?_, put_of_fetched h hf hs hr⟩
  have := bind_some (f := fun _ => brelse i) (store_apply hf.blockno v)
  rwa [hm', bind_assoc] at this

theorem writeLogHeader_spec :
    (¬ Roomy m ∧ writeLogHeader m = (none, m)) ∨ ∃ m', writeLogHeader m = (some (), m') ∧
      Wrote m m' [(m.log.start, fillHeader m.log.nblocks m.log.blocks (m.view m.log.start))] ∧
        m'.log = m.log := by
  unfold writeLogHeader
  rw [get_bind]
  rcases hb : bread m.log.start m with ⟨_ | i, m₁⟩
  · left
    rw [bind_none hb, bread_none hb]
    refine ⟨fun hroom => ?_, rfl⟩
    obtain ⟨i, m', he⟩ := hroom.bread_returns m.log.start
    simp [hb] at he
  · right
    have hf := bread_some h hb
    obtain ⟨m', hm', hp⟩ := storeRelease_spec h hf
      (fillHeader m.log.nblocks m.log.blocks (m.view m.log.start))
    refine ⟨m', ?_, hp⟩
    rw [bind_some hb, get_bind, hf.log, hf.data, hm']

theorem copyToLog_spec {j : ℕ} (hj : m.log.bufs i = some j)
    (hd : (m.buf j).dirty = true) :
    copyToLog i m = (none, m) ∨ ∃ m', copyToLog i m = (some (), m') ∧
      Wrote m m' [(m.log.start + 1 + i, (m.buf j).data)] ∧ m'.log = m.log := by
  unfold copyToLog
  rw [get_bind, hj]
  simp only
  rcases hb : bread (m.log.start + 1 + i) m with ⟨_ | k, m₁⟩
  · left
    rw [bind_none hb, bread_none hb]
  · right
    have hf := bread_some h hb
    obtain ⟨m', hm', hp⟩ := storeRelease_spec h hf (m.buf j).data
    refine ⟨m', ?_, hp⟩
    rw [bind_some hb, get_bind, (hf.keep (Or.inl hd)).2.2, hm']

theorem installBlock_spec (hne : m.log.blocks i ≠ m.log.start + 1 + i) :
    (∃ m', ¬ Roomy m ∧ installBlock i m = (none, m') ∧ m'.writes = m.writes) ∨
    ∃ m', installBlock i m = (some (), m') ∧
      Wrote m m' [(m.log.blocks i, m.view (m.log.start + 1 + i))] ∧ m'.log = m.log := by
  unfold installBlock
  rw [get_bind]
  rcases hb : bread (m.log.start + 1 + i) m with ⟨_ | k, m₀⟩
  · refine Or.inl ⟨m₀, fun hroom => ?_, bind_none hb, by rw [bread_none hb]⟩
    obtain ⟨k, m', he⟩ := hroom.bread_returns (m.log.start + 1 + i)
    simp [hb] at he
  have hk := bread_some h hb
  rw [bind_some hb]
  rcases hb' : bread (m.log.blocks i) m₀ with ⟨_ | j, m₁⟩
  · refine Or.inl ⟨m₁, fun hroom => ?_, bind_none hb', by rw [bread_none hb', hk.writes]⟩
    obtain ⟨j, m', he⟩ := hroom.bread_second h hk (m.log.blocks i)
    simp [hb'] at he
  have hf := bread_some hk.coherent hb'
  have hpin := hk.pinned h
  have hkeep := hf.keep (j := k) (Or.inr (by omega))
  have hs := hf.coherent.store hf.mem hf.valid hf.blockno (m.view (m.log.start + 1 + i))
  have hkj : k ≠ j := by
    rintro rfl
    apply hne
    rw [← hf.blockno, hkeep.2.1, hk.blockno]
  obtain ⟨m₃, h₃, hr⟩ := brelse_spec (i := k) hs.coherent
    ((hk.coherent.mem_iff hs.coherent k).mpr hk.mem) <| by
      have := hf.refcnt k
      rw [if_neg hkj] at this
      rw [hs.buf, if_neg hkj]
      omega
  obtain ⟨m₄, h₄, hr'⟩ := brelse_spec (i := j) hr.coherent
    ((hf.coherent.mem_iff hr.coherent j).mpr hf.mem) <| by
      have := hf.pinned hk.coherent
      rw [hr.buf, if_neg hkj.symm, hs.buf, if_pos rfl]
      exact this
  refine Or.inr ⟨m₄, ?_, put_of_fetched_pair h hk hf hs hr hr'⟩
  rw [bind_some hb', get_bind, hkeep.2.2, hk.data]
  have := bind_some (f := fun _ => brelse k >>= fun _ => brelse j)
    (store_apply hf.blockno (m.view (m.log.start + 1 + i)))
  rwa [bind_some h₃, h₄, bind_assoc] at this

end

/-- Filling a buffer and logging it: a block logged before keeps its slot, a new one
takes the next and its buffer is marked dirty. -/
theorem fillLog_cases {v : Block} (he : (do setData i v; logWrite i) m = (some (), m')) :
    m.log.nblocks < LOG_HDR_MAX ∧
    ((∃ k < m.log.nblocks, m.log.blocks k = (m.buf i).blockno ∧
      m' = { m.setBuf i { m.buf i with data := v } with
        log := { m.log with bufs := update m.log.bufs k (some i) } }) ∨
    ((∀ k < m.log.nblocks, m.log.blocks k ≠ (m.buf i).blockno) ∧
      m' = { m.setBuf i { m.buf i with data := v, dirty := true } with
        log := { m.log with
          nblocks := m.log.nblocks + 1
          blocks := update m.log.blocks m.log.nblocks (m.buf i).blockno
          bufs := update m.log.bufs m.log.nblocks (some i) } })) := by
  unfold setData logWrite at he
  rw [modify_bind, get_bind, Kern.ite_apply, Kern.ite_apply] at he
  split_ifs at he with ho hn
  · simp at he
  · simp at he
  simp only [Machine.setBuf, update_self] at he hn
  refine ⟨by omega, ?_⟩
  cases hk : (List.range m.log.nblocks).find? (fun k => m.log.blocks k == (m.buf i).blockno) with
  | some k =>
    left
    have hk' := mem_range.mp (mem_of_find?_eq_some hk)
    have hb := find?_some hk
    refine ⟨k, hk', by simpa using hb, ?_⟩
    rw [hk] at he
    simp only [setLog, modify_apply, Prod.mk.injEq, true_and] at he
    exact he.symm
  | none =>
    right
    refine ⟨fun k hk' => ?_, ?_⟩
    · have := find?_eq_none.mp hk k (mem_range.mpr hk')
      simpa using this
    · rw [hk] at he
      simp only [setLog, modify_bind, modify_apply, Prod.mk.injEq, true_and] at he
      rw [← he]
      simp [Machine.setBuf]

theorem setLog_apply (f : Log → Log) (m : Machine) :
    setLog f m = (some (), { m with log := f m.log }) := rfl

theorem checkEntries_ok (lh : Block) (i n : ℕ) (m : Machine)
    (hok : ∀ k, i ≤ k → k < i + n → m.log.oob (lh.word (k + 1)) = false) :
    ∃ blocks, checkEntries lh i n m =
        (some true, { m with log := { m.log with blocks := blocks } }) ∧
      (∀ k, i ≤ k → k < i + n → blocks k = lh.word (k + 1)) ∧
      ∀ k, k < i → blocks k = m.log.blocks k := by
  induction n generalizing i m with
  | zero => exact ⟨m.log.blocks, rfl, fun k hk hk' => by omega, fun _ _ => rfl⟩
  | succ n ih =>
    have hi := hok i le_rfl (by omega)
    obtain ⟨blocks, he, hnew, hold⟩ := ih (i + 1)
      { m with log := { m.log with blocks := update m.log.blocks i (lh.word (i + 1)) } }
      fun k hk hk' => hok k (by omega) (by omega)
    refine ⟨blocks, ?_, ?_, ?_⟩
    · unfold checkEntries
      rw [get_bind, Kern.ite_apply, if_neg (by simp [hi]), bind_some (setLog_apply _ _), he]
    · intro k hk hk'
      rcases Nat.lt_or_eq_of_le hk with hlt | rfl
      · exact hnew k hlt (by omega)
      · rw [hold i (by omega)]
        simp
    · intro k hk
      rw [hold k (by omega)]
      simp [update_of_ne (Nat.ne_of_lt hk)]

end Sbunix.Disk
