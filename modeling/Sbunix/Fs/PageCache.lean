import Sbunix.Fs.File

/-!
# The page cache (`kernel/page_cache.c`) over sbfs

Sixty-four pages keyed by inode pointer and page index. Regular files are read
through it; writes go to the blocks and drop the pages they touch.
-/

namespace Sbunix.Fs

open Lib

/-- `sbfs_writepage`: only bytes below the file size are written. -/
def writepage (x pgidx : ℕ) (page : Bytes 4096) : Kern State (Except Errno Unit) := do
  let s ← Kern.get
  let off := pgidx * PCACHE_PGSZ
  let fin := min (off + PCACHE_PGSZ) (s.icache x).size
  if fin ≤ off then
    pure (.ok ())
  else do
    let r ← writei x off page.get (fin - off)
    match r with
    | .error e => pure (.error e)
    | .ok _ => pure (.ok ())

def writepageLocked (x pgidx : ℕ) (page : Bytes 4096) : Kern State (Except Errno Unit) := do
  beginOp
  let rc ← writepage x pgidx page
  endOp
  pure rc

/-- `pcache_writeback`; pages of other filesystems do not reach the sbfs blocks. -/
def pcacheWriteback (ip : Option Node) (pgidx : ℕ) (page : Bytes 4096) :
    Kern State (Except Errno Unit) :=
  match ip with
  | some (.sbfs x) => writepageLocked x pgidx page
  | _ => pure (.ok ())

def setPSlot (k : ℕ) (f : PSlot → PSlot) : Kern State Unit :=
  Kern.modify fun s => s.setPage k (f (s.pages k))

/-- One turn of `pcache_flush_inode`: a pinned page stays. -/
def flushSlot (ip : Node) (k : ℕ) : Kern State Unit := do
  let s ← Kern.get
  if (s.pages k).ip ≠ some ip then
    pure ()
  else if 0 < (s.pages k).refcnt then
    pure ()
  else do
    if (s.pages k).dirty then do
      setPSlot k fun p => { p with refcnt := p.refcnt + 1 }
      let _ ← pcacheWriteback (s.pages k).ip (s.pages k).pgidx (s.pages k).page
      setPSlot k fun p => { p with refcnt := p.refcnt - 1, dirty := false }
    else
      pure ()
    setPSlot k fun p => { p with ip := none, pgidx := 0, valid := false }

def pcacheFlushInode (ip : Node) : Kern State Unit :=
  Kern.loop (flushSlot ip) 0 PCACHE_NSLOTS

/-- The page range of `pcache_invalidate_range`: the first page, and the end unless it runs to EOF.
-/
def invalidRange (off len : ℕ) : ℕ × Option ℕ :=
  if len = 2 ^ 64 - 1 then (off / PCACHE_PGSZ, none)
  else
    let fin := (off + len) % 2 ^ 64
    if fin < off then (off / PCACHE_PGSZ, none)
    else
      let rounded := (fin + PCACHE_PGSZ - 1) % 2 ^ 64
      if rounded < fin then (off / PCACHE_PGSZ, none)
      else (off / PCACHE_PGSZ, some (rounded / PCACHE_PGSZ))

def inRange (r : ℕ × Option ℕ) (pgidx : ℕ) : Bool :=
  decide (r.1 ≤ pgidx) && match r.2 with
    | none => true
    | some fin => decide (pgidx < fin)

/-- A slot with its page dropped; the bytes of the frame stay. -/
def PSlot.invalidate (p : PSlot) : PSlot :=
  { p with ip := none, pgidx := 0, valid := false, dirty := false }

/-- One turn of `pcache_invalidate_range`: a mapped page stays. -/
def invalidateSlot (ip : Node) (r : ℕ × Option ℕ) (k : ℕ) : Kern State Unit := do
  let s ← Kern.get
  if (s.pages k).ip ≠ some ip then
    pure ()
  else if inRange r (s.pages k).pgidx = false then
    pure ()
  else if 0 < (s.pages k).refcnt then
    pure ()
  else
    setPSlot k PSlot.invalidate

def pcacheInvalidateRange (ip : Node) (off len : ℕ) : Kern State Unit :=
  if len = 0 then pure ()
  else Kern.loop (invalidateSlot ip (invalidRange off len)) 0 PCACHE_NSLOTS

/-- Page `pgidx` of a file holds a byte of `[off, off + len)`, cut at the last 64-bit offset. -/
def Intersects (pgidx off len : ℕ) : Prop :=
  ∃ b, off ≤ b ∧ b < min (off + len) (2 ^ 64) ∧ b / PCACHE_PGSZ = pgidx

theorem inRange_invalidRange {off len p : ℕ} (hoff : off < 2 ^ 64) (hlen : len < 2 ^ 64)
    (h0 : len ≠ 0) (hp : p < 2 ^ 52) :
    inRange (invalidRange off len) p = true ↔ Intersects p off len := by
  have hbyte : Intersects p off len ↔ off / 4096 ≤ p ∧ p * 4096 < min (off + len) (2 ^ 64) := by
    constructor
    · rintro ⟨b, h1, h2, rfl⟩
      exact ⟨Nat.div_le_div_right h1, (Nat.div_mul_le_self b _).trans_lt h2⟩
    · rintro ⟨h1, h2⟩
      refine ⟨max off (p * 4096), le_max_left _ _, by omega, ?_⟩
      change max off (p * 4096) / 4096 = p
      omega
  rw [hbyte]
  unfold invalidRange inRange PCACHE_PGSZ
  split
  · simp
    omega
  · dsimp only
    split
    · simp
      omega
    · split
      · simp
        omega
      · simp
        omega

/-- What the loop leaves of the slots from `i` on when it takes `n` turns. -/
theorem loop_invalidateSlot (ip : Node) (r : ℕ × Option ℕ) (i n : ℕ) (s : State) :
    Kern.loop (invalidateSlot ip r) i n s = (some (), { s with
      pages := fun k => if (i ≤ k ∧ k < i + n) ∧ (s.pages k).ip = some ip ∧
          inRange r (s.pages k).pgidx = true ∧ (s.pages k).refcnt ≤ 0
        then (s.pages k).invalidate else s.pages k }) := by
  induction n generalizing i s with
  | zero =>
    have hno : ∀ k, ¬ (i ≤ k ∧ k < i + 0) := fun k h => by omega
    simp only [hno, false_and, if_false]
    rfl
  | succ n ih =>
    have hturn : invalidateSlot ip r i s = (some (), s.setPage i
        (if (s.pages i).ip = some ip ∧ inRange r (s.pages i).pgidx = true ∧ (s.pages i).refcnt ≤ 0
          then (s.pages i).invalidate else s.pages i)) := by
      have hid : s.setPage i (s.pages i) = s := by
        unfold State.setPage
        rw [Function.update_eq_self]
      unfold invalidateSlot
      rw [Kern.get_bind]
      split_ifs <;> simp_all [setPSlot]
      omega
    change (invalidateSlot ip r i >>= fun _ => Kern.loop (invalidateSlot ip r) (i + 1) n) s = _
    rw [Kern.bind_some hturn, ih]
    congr 2
    funext k
    unfold State.setPage
    by_cases hk : k = i
    · subst hk
      simp
    · simp only [Function.update_of_ne hk]
      have : (i + 1 ≤ k ∧ k < i + 1 + n) ↔ (i ≤ k ∧ k < i + (n + 1)) := by omega
      simp only [this]

open Classical in
/-- What is dropped is exactly the unpinned slots of the inode whose pages meet the range, and
nothing
else changes. -/
theorem pcacheInvalidateRange_exact {s : State} {ip : Node} {off len : ℕ} (hoff : off < 2 ^ 64)
    (hlen : len < 2 ^ 64) (hpg : ∀ k < PCACHE_NSLOTS, (s.pages k).pgidx < 2 ^ 52) :
    pcacheInvalidateRange ip off len s = (some (), { s with
      pages := fun k => if k < PCACHE_NSLOTS ∧ (s.pages k).ip = some ip ∧
          Intersects (s.pages k).pgidx off len ∧ (s.pages k).refcnt ≤ 0
        then (s.pages k).invalidate else s.pages k }) := by
  unfold pcacheInvalidateRange
  split
  case isTrue h0 =>
    have hno : ∀ p, ¬ Intersects p off len := by
      rintro p ⟨b, h1, h2, -⟩
      omega
    simp only [hno, false_and, and_false, if_false]
    rfl
  case isFalse h0 =>
    rw [loop_invalidateSlot]
    congr 2
    funext k
    by_cases hk : k < PCACHE_NSLOTS
    · simp [inRange_invalidRange hoff hlen h0 (hpg k hk), hk, and_comm]
    · simp [hk]

/-- Every slot holds page `pgidx` of one inode, dirty and unpinned. -/
def cachedAt (pgidx : ℕ) : State :=
  { mkfs 0 with pages := fun _ => ⟨some (.sbfs 0), pgidx, 0, true, true, Bytes.zero⟩ }

theorem pcacheInvalidateRange_exact_second_page :
    ((pcacheInvalidateRange (.sbfs 0) 8000 (2 ^ 64 - 1) (cachedAt 1)).2.pages 3).ip = none := by
  rw [pcacheInvalidateRange_exact (by decide) (by decide) fun _ _ => show 1 < 2 ^ 52 by decide]
  exact congrArg PSlot.ip (if_pos ⟨by decide, rfl, ⟨8000, by decide, by decide, rfl⟩, le_rfl⟩)

/-- Page `2 ^ 52` lies past every 64-bit offset, and a range that runs to the end drops it. -/
theorem pcacheInvalidateRange_past_end :
    ∃ s : State, (s.pages 0).pgidx < 2 ^ 64 ∧ ¬ Intersects (s.pages 0).pgidx 0 (2 ^ 64 - 1) ∧
      ((pcacheInvalidateRange (.sbfs 0) 0 (2 ^ 64 - 1) s).2.pages 0).ip ≠ (s.pages 0).ip := by
  refine ⟨cachedAt (2 ^ 52), by decide, ?_, ?_⟩
  · rintro ⟨b, -, h, hb⟩
    change b / 4096 = 2 ^ 52 at hb
    omega
  · unfold pcacheInvalidateRange
    rw [if_neg (by decide), loop_invalidateSlot]
    decide

end Sbunix.Fs
