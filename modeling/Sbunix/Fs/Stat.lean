import Sbunix.Fs.Getdents

/-!
# sbfs: `stat` and the blocks of a file

`sbfs_op_stat` counts the blocks an inode's index tree refers to; `sbfs_itrunc`
walks the same tree on its own to free them.
-/

namespace Sbunix.Fs

open Lib List Kern

/-! ## The two walks -/

/-- What `sbfs_op_stat` reports; the three times are one. -/
structure Stat where
  dev : ℕ
  ino : ℕ
  mode : ℕ
  nlink : ℕ
  uid : ℕ
  gid : ℕ
  size : ℕ
  time : ℕ
  blksize : ℕ
  blocks : ℕ

/-- Count the nonzero ones of the first `n` entries. -/
def countNonzero (a : ℕ → ℕ) (n nblocks : ℕ) : ℕ :=
  (range n).foldl (fun nblocks i => if a i = 0 then nblocks else nblocks + 1) nblocks

/-- Count an index block, if it is there, and its entries. -/
def countIndir (data : ℕ → Block) (indir nblocks : ℕ) : ℕ :=
  if indir = 0 then nblocks
  else countNonzero (data indir).word SBFS_NBLK_PER_INDIR (nblocks + 1)

def countBlocks (data : ℕ → Block) (addrs : ℕ → ℕ) : ℕ :=
  let nblocks := countNonzero addrs SBFS_NDIR 0
  let nblocks := (range SBFS_NINDIR).foldl
    (fun nblocks ii => countIndir data (addrs (SBFS_NDIR + ii)) nblocks) nblocks
  let outer := addrs (SBFS_NDIR + SBFS_NINDIR)
  if outer = 0 then nblocks
  else (range SBFS_NBLK_PER_INDIR).foldl
    (fun nblocks oi => countIndir data ((data outer).word oi) nblocks) (nblocks + 1)

def opStat (x : ℕ) : Kern State Stat := do
  ilock x
  let s ← get
  let v := s.icache x
  pure
    { dev := 6, ino := v.inum, mode := v.mode, nlink := v.d.nlink, uid := v.uid, gid := v.gid
      size := v.d.size, time := v.d.mtime, blksize := SBFS_BSIZE
      blocks := countBlocks s.data v.d.addrs }

/-! ## The tree -/

/-- The blocks below the reference `b` with `level` levels of index blocks, and `b`. -/
def subtree (data : ℕ → Block) : ℕ → ℕ → List ℕ
  | 0, b => if b = 0 then [] else [b]
  | level + 1, b =>
    if b = 0 then []
    else (range SBFS_NBLK_PER_INDIR).flatMap (fun i => subtree data level ((data b).word i))
      ++ [b]

def tree (data : ℕ → Block) (addrs : ℕ → ℕ) : List ℕ :=
  (range SBFS_NDIR).flatMap (fun i => subtree data 0 (addrs i)) ++
    (range SBFS_NINDIR).flatMap (fun i => subtree data 1 (addrs (SBFS_NDIR + i))) ++
    subtree data 2 (addrs (SBFS_NDIR + SBFS_NINDIR))

/-- No block is used twice, and each is an allocated data block. -/
structure WellFormedTree (s : State) (x : ℕ) : Prop where
  nodup : (tree s.data (s.icache x).d.addrs).Nodup
  alloc : ∀ b ∈ tree s.data (s.icache x).d.addrs,
    dataStart ≤ b ∧ b < dataStart + sb.nblocks ∧ s.bitmap (b - dataStart) = true

/-- The data blocks allocated in `s` and free in `s'`. -/
def freed (s s' : State) : Finset ℕ :=
  (Finset.range sb.nblocks).filter fun i => s.bitmap i = true ∧ s'.bitmap i = false

/-! ## The count -/

variable {g : ℕ → List ℕ} {b k : ℕ} {p : ℕ → Kern State Unit}

theorem foldl_count {f : ℕ → ℕ → ℕ} (h : ∀ c i, f c i = c + (g i).length)
    (n c : ℕ) : (range n).foldl f c = c + ((range n).flatMap g).length := by
  induction n with
  | zero => rfl
  | succ n ih => simp [range_succ, ih, h, Nat.add_assoc]

theorem countNonzero_eq (data : ℕ → Block) (a : ℕ → ℕ) (n c : ℕ) :
    countNonzero a n c = c + ((range n).flatMap fun i => subtree data 0 (a i)).length := by
  apply foldl_count
  intro c i
  unfold subtree
  split <;> rfl

theorem countIndir_eq (data : ℕ → Block) (b c : ℕ) :
    countIndir data b c = c + (subtree data 1 b).length := by
  unfold countIndir subtree
  split
  · rfl
  · rw [countNonzero_eq data, length_append, length_singleton]
    omega

theorem countBlocks_eq (data : ℕ → Block) (addrs : ℕ → ℕ) :
    countBlocks data addrs = (tree data addrs).length := by
  have hindir := fun a : ℕ → ℕ => foldl_count fun c i => countIndir_eq data (a i) c
  unfold countBlocks tree
  dsimp only
  rw [hindir fun ii => addrs (SBFS_NDIR + ii), countNonzero_eq data]
  simp only [length_append, subtree.eq_def data 2]
  split
  · rw [length_nil]
    omega
  · rw [hindir (data (addrs (SBFS_NDIR + SBFS_NINDIR))).word, length_append,
      length_singleton]
    omega

/-! ## The blocks freed -/

/-- The open transaction has room for the bitmap block and one more. -/
def Room (s : State) : Prop :=
  s.outstanding = true ∧ s.txn.length < LOG_HDR_MAX ∧
    (sb.bmapstart ∈ s.txn ∨ s.txn.length + 1 < LOG_HDR_MAX)

/-- On the way from `s` to `s'` the blocks `l` are freed, and of the addresses of `x` only those
below `j` are changed. -/
structure Frees (x : ℕ) (s : State) (j : ℕ) (l : List ℕ) (s' : State) : Prop where
  data : s'.data = s.data
  addrs : ∀ k, j ≤ k → (s'.icache x).d.addrs k = (s.icache x).d.addrs k
  bitmap : ∀ i < sb.nblocks, s'.bitmap i = true ↔ s.bitmap i = true ∧ dataStart + i ∉ l
  room : Room s → Room s'

/-- A part of the walk that starts with `l` freed ends with `l'` freed; it panics only for want of
room in the transaction. -/
def Walks (x : ℕ) (s : State) (j : ℕ) (l : List ℕ) (p : Kern State Unit) (j' : ℕ) (l' : List ℕ) :
    Prop :=
  Spec (Frees x s j l) p (fun _ => Frees x s j' l') fun _ => ¬ Room s

variable {x j : ℕ} {l : List ℕ} {s : State}

theorem walks_done (j' : ℕ) (h : j ≤ j') : Walks x s j l (pure ()) j' (l ++ []) :=
  Spec.pure fun _ hf => by
    rw [append_nil]
    exact ⟨hf.data, fun k hk => hf.addrs k (h.trans hk), hf.bitmap, hf.room⟩

theorem logWrite_apply (b : ℕ) (s : State) : logWrite b s =
    if s.outstanding = false ∨ LOG_HDR_MAX ≤ s.txn.length then (none, s)
    else (some (), { s with txn := if b ∈ s.txn then s.txn else s.txn ++ [b] }) := by
  unfold logWrite
  rw [get_bind]
  split_ifs <;> first | rfl | grind

theorem bfree_walks (b : ℕ) : Walks x s j l (bfree b) j (l ++ [b]) := by
  intro s₁ h
  unfold bfree
  split
  case isTrue hb =>
    refine Spec.pure (fun s₂ h => ⟨h.data, h.addrs, fun i hi => ?_, h.room⟩) s₁ h
    have : dataStart + i ≠ b := by omega
    simp [h.bitmap i hi, this]
  case isFalse hb =>
    rw [modify_bind, logWrite_apply]
    split
    case isTrue hfull =>
      refine ⟨by simp, fun _ _ hr => ?_⟩
      obtain ⟨h1, h2, -⟩ := h.room hr
      simp_all
      omega
    case isFalse hfree =>
      refine ⟨fun _ s₂ he => ?_, by simp⟩
      obtain ⟨-, rfl⟩ := Prod.mk.inj he
      refine ⟨h.data, h.addrs, fun i hi => ?_, fun hr => ?_⟩
      · by_cases hib : i = b - dataStart
        · subst hib
          simp [show dataStart + (b - dataStart) = b by omega]
        · have : dataStart + i ≠ b := by omega
          simp [Function.update_of_ne hib, h.bitmap i hi, this]
      · obtain ⟨h1, h2, h3⟩ := h.room hr
        unfold Room
        dsimp only
        split
        case isTrue hin => exact ⟨h1, h2, Or.inl hin⟩
        case isFalse hin =>
          have := h3.resolve_left hin
          rw [length_append, length_singleton]
          exact ⟨h1, this, Or.inl (mem_append_right _ (mem_singleton_self _))⟩

theorem loop_walks {b : ℕ → Kern State Unit} {o d : ℕ}
    (h : ∀ i l, Walks x s (o + i * d) l (b i) (o + (i + 1) * d) (l ++ g i)) (n : ℕ) :
    Walks x s o l (loop b 0 n) (o + n * d) (l ++ (range n).flatMap g) := by
  have hloop := Spec.loop (i := 0) (n := n)
    (I := fun i => Frees x s (o + i * d) (l ++ (range i).flatMap g)) fun i _ _ => by
      rw [range_succ, flatMap_append, flatMap_singleton, ← append_assoc]
      exact h i _
  simpa [Walks] using hloop

/-- A walk below the index block `b` that frees `b` last. -/
theorem subtree_walks {m : ℕ} (hb : b ≠ 0)
    (h : ∀ i l, Walks x s j l (p i) j (l ++ subtree s.data m ((s.data b).word i))) :
    Walks x s j l (do loop p 0 SBFS_NBLK_PER_INDIR; bfree b) j
      (l ++ subtree s.data (m + 1) b) := by
  have hloop := loop_walks (l := l) (o := j) (d := 0) h SBFS_NBLK_PER_INDIR
  rw [subtree, if_neg hb, ← append_assoc]
  exact Spec.bind hloop fun _ => bfree_walks b

theorem freeWords_walks (hb : b ≠ 0) :
    Walks x s j l (do freeWords b 0 SBFS_NBLK_PER_INDIR; bfree b) j (l ++ subtree s.data 1 b) := by
  refine subtree_walks hb fun i l s₁ h => ?_
  rw [get_bind, h.data, subtree]
  split
  · exact walks_done j le_rfl s₁ h
  · exact bfree_walks _ s₁ h

/-- After a reference of the inode is freed its entry is cleared. -/
theorem setAddr_walks (h : j ≤ k + 1) :
    Walks x s j l (setInCore x fun v => v.setAddr k 0) (k + 1) l := by
  refine Spec.modify fun s₁ hf => ⟨hf.data, fun i hi => ?_, hf.bitmap, hf.room⟩
  have hne : i ≠ k := by omega
  simp [State.setSlot, Slot.setAddr, Function.update_of_ne hne, hf.addrs i (h.trans hi)]

theorem addr_walks {m : ℕ} (h : ∀ b ≠ 0, Walks x s k l (p b) k (l ++ subtree s.data m b)) :
    Walks x s k l (do
      let s ← get
      let a := (s.icache x).d.addrs k
      if a = 0 then pure ()
      else do
        p a
        setInCore x fun v => v.setAddr k 0) (k + 1)
      (l ++ subtree s.data m ((s.icache x).d.addrs k)) := by
  intro s₁ hf
  rw [get_bind]
  dsimp only
  rw [hf.addrs k le_rfl]
  split
  case isTrue h0 =>
    rw [show subtree s.data m ((s.icache x).d.addrs k) = [] by
      rw [h0]; cases m <;> rfl]
    exact walks_done (k + 1) (by omega) s₁ hf
  case isFalse h0 =>
    exact Spec.bind (h _ h0) (fun _ => setAddr_walks (by omega)) s₁ hf

theorem freeDirect_walks (i : ℕ) :
    Walks x s i l (freeDirect x i) (i + 1) (l ++ subtree s.data 0 ((s.icache x).d.addrs i)) := by
  refine addr_walks (p := bfree) fun b hb => ?_
  rw [subtree, if_neg hb]
  exact bfree_walks b

theorem freeIndirect_walks (ii : ℕ) :
    Walks x s (SBFS_NDIR + ii) l (freeIndirect x ii) (SBFS_NDIR + ii + 1)
      (l ++ subtree s.data 1 ((s.icache x).d.addrs (SBFS_NDIR + ii))) := by
  have h := addr_walks (x := x) (s := s) (l := l) (k := SBFS_NDIR + ii) (m := 1)
    (fun b hb => freeWords_walks hb)
  simp only [bind_assoc] at h
  exact h

theorem freeInner_walks (outer oi : ℕ) :
    Walks x s j l (freeInner outer oi) j (l ++ subtree s.data 1 ((s.data outer).word oi)) := by
  intro s₁ h
  unfold freeInner
  rw [get_bind]
  dsimp only
  rw [h.data]
  split
  case isTrue h0 =>
    rw [h0]
    exact walks_done j le_rfl s₁ h
  case isFalse h0 => exact freeWords_walks h0 s₁ h

theorem freeDouble_walks :
    Walks x s (SBFS_NDIR + SBFS_NINDIR) l (freeDouble x) (SBFS_NDIR + SBFS_NINDIR + 1)
      (l ++ subtree s.data 2 ((s.icache x).d.addrs (SBFS_NDIR + SBFS_NINDIR))) := by
  have h := addr_walks (x := x) (s := s) (l := l) (k := SBFS_NDIR + SBFS_NINDIR)
    (fun b hb => subtree_walks (m := 1) hb fun i l => freeInner_walks b i)
  simp only [bind_assoc] at h
  exact h

/-- Truncation frees the tree, and it returns if the transaction has room. -/
theorem itrunc_spec (x : ℕ) (s : State) : Spec (· = s) (itrunc x)
      (fun _ s' => ∀ i < sb.nblocks, s'.bitmap i = true ↔
        s.bitmap i = true ∧ dataStart + i ∉ tree s.data (s.icache x).d.addrs)
      fun _ => ¬ Room s := by
  have hdirect := loop_walks (x := x) (s := s) (l := []) (o := 0) (d := 1) (b := freeDirect x)
    (fun i l => by simpa using freeDirect_walks i) SBFS_NDIR
  have hindirect := fun l => loop_walks (x := x) (s := s) (l := l) (o := SBFS_NDIR) (d := 1)
    (b := freeIndirect x)
    (fun i l => by simpa [Nat.add_assoc] using freeIndirect_walks i) SBFS_NINDIR
  have hstart : ∀ s₁, s₁ = s → Frees x s 0 [] s₁ := by
    rintro s₁ rfl
    exact ⟨rfl, fun _ _ => rfl, fun _ _ => by simp, id⟩
  refine Spec.bind (hdirect.conseq hstart (fun _ _ h => h) fun _ h => h) fun _ => ?_
  refine Spec.bind (hindirect _) fun _ => Spec.bind freeDouble_walks fun _ => ?_
  intro s₁ h
  rw [get_bind, setInCore, modify_bind, iupdate, modify_bind, get_bind,
    logWrite_apply]
  split
  case isTrue hfull =>
    refine ⟨by simp, fun _ _ hr => ?_⟩
    obtain ⟨h1, h2, -⟩ := h.room hr
    exact hfull.elim (fun h0 => Bool.noConfusion (h1.symm.trans h0)) h2.not_ge
  case isFalse =>
    refine ⟨fun _ s₂ he => ?_, by simp⟩
    obtain ⟨-, rfl⟩ := Prod.mk.inj he
    exact h.bitmap

theorem freed_card {s s' : State} {x : ℕ} (hw : WellFormedTree s x)
    (h : ∀ i < sb.nblocks, s'.bitmap i = true ↔
      s.bitmap i = true ∧ dataStart + i ∉ tree s.data (s.icache x).d.addrs) :
    (freed s s').card = (tree s.data (s.icache x).d.addrs).length := by
  rw [← toFinset_card_of_nodup hw.nodup]
  refine Finset.card_bij (fun i _ => dataStart + i) ?_ (fun _ _ _ _ he => Nat.add_left_cancel he) ?_
  · intro i hi
    obtain ⟨hi, h1, h2⟩ := by simpa [freed] using hi
    by_contra hn
    rw [mem_toFinset] at hn
    simp [(h i hi).mpr ⟨h1, hn⟩] at h2
  · intro b hb
    rw [mem_toFinset] at hb
    obtain ⟨h1, h2, h3⟩ := hw.alloc b hb
    have hb' : dataStart + (b - dataStart) = b := by omega
    have hlt : b - dataStart < sb.nblocks := by omega
    refine ⟨b - dataStart, ?_, hb'⟩
    refine Finset.mem_filter.mpr ⟨Finset.mem_range.mpr hlt, h3, ?_⟩
    rw [← Bool.not_eq_true, h _ hlt, hb']
    exact fun hn => hn.2 hb

/-- `stat` reports as many blocks as `sbfs_itrunc` frees, which ends if there is room in the log. -/
theorem opStat_blocks_eq_freed {x : ℕ} {s s₁ : State} {st : Stat}
    (hst : opStat x s = (some st, s₁)) (hw : WellFormedTree s₁ x) :
    (∀ s', itrunc x s₁ = (some (), s') → (freed s₁ s').card = st.blocks) ∧
      (Room s₁ → ∃ s', itrunc x s₁ = (some (), s')) := by
  have hblocks : st.blocks = countBlocks s₁.data (s₁.icache x).d.addrs := by
    obtain ⟨h1, rfl⟩ := Prod.mk.inj hst
    exact congrArg Stat.blocks (Option.some.inj h1).symm
  obtain ⟨hok, hno⟩ := itrunc_spec x s₁ s₁ rfl
  constructor
  · intro s' he
    rw [hblocks, countBlocks_eq]
    exact freed_card hw (hok () s' he)
  · intro hr
    rcases he : itrunc x s₁ with ⟨_ | _, s'⟩
    · exact absurd hr (hno s' he)
    · exact ⟨s', rfl⟩

/-- A file with a hole, a block, and another one behind an index block. -/
def indexed : State :=
  let s := (beginOp mounted).2
  let addrs := fun k => if k = 1 then dataStart + 1 else if k = SBFS_NDIR then dataStart + 2 else 0
  { s with
    bitmap := fun i => decide (i < 4)
    data := Function.update s.data (dataStart + 2) (Bytes.setWord Bytes.zero 3 (dataStart + 3))
    icache := Function.update s.icache rootSlot
      { s.icache rootSlot with d := { (s.icache rootSlot).d with addrs := addrs } } }

theorem opStat_blocks_eq_freed_indexed : ∃ s', itrunc rootSlot indexed = (some (), s') ∧
    (freed indexed s').card = 3 := by
  obtain ⟨st, hst, hblocks⟩ : ∃ st, opStat rootSlot indexed = (some st, indexed) ∧ st.blocks = 3 :=
    ⟨_, rfl, by decide +kernel⟩
  obtain ⟨hcard, hreturns⟩ := opStat_blocks_eq_freed hst ⟨by decide +kernel, by decide +kernel⟩
  obtain ⟨s', he⟩ := hreturns ⟨by decide +kernel, by decide +kernel, by decide +kernel⟩
  exact ⟨s', he, (hcard s' he).trans hblocks⟩

end Sbunix.Fs
