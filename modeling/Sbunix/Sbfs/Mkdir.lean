import Sbunix.Sbfs.Model

/-!
# sbfs: making a directory

`sbfs_create` and what it stands on, down to the bitmap. A block is the number of
its bit. The blocks of an inode hang at the places of its index tree, which are
allocated on the way to the block that is written.
-/

namespace Sbunix.Sbfs

open Lib Fs List Function

/-- The places of an index tree: the data blocks, and the blocks of addresses. -/
inductive Place
  | data (bn : ℕ)
  | single (ii : ℕ)
  | outer
  | inner (oi : ℕ)
  deriving DecidableEq

/-- `index i` is the tree of inode `i`, and `used` the bitmap. -/
structure Store where
  vol : Volume
  used : ℕ → Bool
  index : ℕ → Place → Option ℕ

/-- The places `sbfs_writei` passes on its way to block `bn` of a file. -/
def places (bn : ℕ) : List Place :=
  if bn < SBFS_NDIR then [.data bn]
  else if bn < SBFS_NDIR + SBFS_NINDIR * SBFS_NBLK_PER_INDIR then
    [.single ((bn - SBFS_NDIR) / SBFS_NBLK_PER_INDIR), .data bn]
  else
    [.outer, .inner ((bn - (SBFS_NDIR + SBFS_NINDIR * SBFS_NBLK_PER_INDIR)) / SBFS_NBLK_PER_INDIR),
    .data bn]

namespace Store

def modify (st : Store) (i : ℕ) (g : Inode → Inode) : Store := { st with vol := st.vol.modify i g }

def balloc (st : Store) : Option (ℕ × Store) :=
  ((List.range sb.nblocks).find? fun b => !st.used b).map fun b =>
    (b, { st with used := update st.used b true })

/-- One place: a block hangs there, or one is allocated. -/
def grow (i : ℕ) (n : Place) (st : Store) : Bool × Store :=
  match st.index i n with
  | some _ => (true, st)
  | none =>
    match st.balloc with
    | none => (false, st)
    | some (b, st) =>
      (true, { st with index := update st.index i (update (st.index i) n (some b)) })

/-- The allocations of `sbfs_writei`. What was allocated before the disk was full stays. -/
def reach (i : ℕ) : List Place → Store → Bool × Store
  | [], st => (true, st)
  | n :: ns, st => if (grow i n st).1 then reach i ns (grow i n st).2 else grow i n st

/-- `sbfs_dirlink` -/
def dirlink (st : Store) (d : ℕ) (name : Name) (i : ℕ) : Except Errno Unit × Store :=
  let slots := (st.vol.inodes d).slots
  if name.length = 0 ∨ SBFS_DIRSIZ ≤ name.length then (.error .enametoolong, st)
  else if slots.all Option.isSome = true ∧ SBFS_MAX_FILE_SIZE < 16 * slots.length + 16 then
    (.error .enospc, st)
  else
    match st.reach d (places (16 * slots.findIdx Option.isNone / SBFS_BSIZE)) with
    | (false, st) => (.error .enospc, st)
    | (true, st) => (.ok (), st.modify d fun ip => { ip with slots := fill (i, name) ip.slots })

/-- `sbfs_ialloc` -/
def ialloc (st : Store) (type : IType) : Option ℕ × Store :=
  match (List.range' 1 (sb.ninodes - 1)).find? fun i => (st.vol.inodes i).type = .free with
  | none => (none, st)
  | some x =>
    let st := { st.modify x fun _ => ⟨type, 0, [], []⟩ with
      index := update st.index x fun _ => none }
    match st.vol.iget x with
    | none => (none, st.modify x fun ip => { ip with type := .free })
    | some v => (some x, { st with vol := v })

/-- Whether a block hangs in the tree of inode `i`. -/
def hangs (st : Store) (i b : ℕ) : Bool :=
  (List.range (SBFS_MAX_FILE_SIZE / SBFS_BSIZE)).any fun bn =>
    (places bn).any fun n => st.index i n = some b

/-- `sbfs_itrunc` -/
def itrunc (st : Store) (i : ℕ) : Store :=
  { st.modify i fun ip => { ip with slots := [], data := [] } with
    used := fun b => st.used b && !st.hangs i b
    index := update st.index i fun _ => none }

/-- The way back in `sbfs_create`. -/
def discard (st : Store) (x : ℕ) : Store :=
  let st := (st.itrunc x).modify x fun ip => { ip with type := .free, nlink := 0 }
  { st with vol := st.vol.inodePut x }

/-- `sbfs_create` -/
def create (st : Store) (parent : ℕ) (name : Name) (type : IType) : Option ℕ × Store :=
  match st.ialloc type with
  | (none, st) => (none, st)
  | (some x, st) =>
    let st := st.modify x fun ip => { ip with nlink := if type = .dir then 2 else 1 }
    -- the results of these two calls are not looked at
    let st := if type = .dir then ((st.dirlink x dot x).2.dirlink x dotdot parent).2 else st
    match st.dirlink parent name x with
    | (.error _, st) => (none, st.discard x)
    | (.ok _, st) => (some x, if type = .dir then { st with vol := st.vol.nlinkInc parent } else st)

/-- `sbfs_op_mkdir` -/
def mkdir (st : Store) (parent : ℕ) (name : Name) : Except Errno Unit × Store :=
  match st.create parent name .dir with
  | (none, st) => (.error .enospc, st)
  | (some x, st) => (.ok (), { st with vol := st.vol.inodePut x })

/-! ## All or nothing -/

def emptyDir (x parent : ℕ) : Inode := ⟨.dir, 2, [some (x, dot), some (parent, dotdot)], []⟩

def oneBlock (b : ℕ) : Place → Option ℕ := update (fun _ => none) (.data 0) (some b)

/-- The inodes in use, their trees and the bitmap are as they were. -/
structure Same (st st' : Store) : Prop where
  used : st'.used = st.used
  inodes : ∀ i, (st.vol.inodes i).type = .free ∧ (st'.vol.inodes i).type = .free ∨
    st'.vol.inodes i = st.vol.inodes i ∧ st'.index i = st.index i

/-- An error and nothing changed, or a new directory with its two entries. -/
structure AllOrNothing (st : Store) (parent : ℕ) (name : Name) (r : Except Errno Unit × Store) :
    Prop where
  nothing : ∀ e, r.1 = .error e → Same st r.2
  all : r.1 = .ok () → ∃ x, (st.vol.inodes x).type = .free ∧ r.2.vol.find parent name = some x ∧
    r.2.vol.inodes x = emptyDir x parent

def freeBlocks (st : Store) : Finset ℕ :=
    (Finset.range sb.nblocks).filter fun b => st.used b = false

variable {st st' : Store} {d i x : ℕ} {name : Name}

theorem balloc_of_free (h : st.freeBlocks.card ≠ 0) : ∃ b ∈ st.freeBlocks,
    st.balloc = some (b, { st with used := update st.used b true }) := by
  obtain ⟨b, hb⟩ := Finset.card_pos.mp (Nat.pos_of_ne_zero h)
  obtain ⟨hlt, hfree⟩ := Finset.mem_filter.mp hb
  cases hf : (List.range sb.nblocks).find? fun b => !st.used b with
  | none => exact absurd (find?_eq_none.mp hf b (by simpa using hlt)) (by simp [hfree])
  | some c =>
    refine ⟨c, Finset.mem_filter.mpr ⟨?_, by simpa using find?_some hf⟩, by rw [balloc, hf]; rfl⟩
    simpa using mem_of_find?_eq_some hf

theorem balloc_none (h : st.freeBlocks.card = 0) : st.balloc = none := by
  rw [balloc, Option.map_eq_none_iff, find?_eq_none]
  intro b hb hfree
  rw [Finset.card_eq_zero] at h
  have hmem : b ∈ st.freeBlocks := Finset.mem_filter.mpr ⟨by simpa using hb, by simpa using hfree⟩
  rw [h] at hmem
  cases hmem

theorem card_freeBlocks_taken {b : ℕ} (hb : b ∈ st.freeBlocks)
    (hused : st'.used = update st.used b true) :
    st'.freeBlocks.card + 1 = st.freeBlocks.card := by
  have heq : st'.freeBlocks = st.freeBlocks.erase b := by
    ext c
    by_cases hcb : c = b <;> simp [freeBlocks, hused, hcb]
  rw [heq]
  exact Finset.card_erase_add_one hb

/-- The places of the list where a block has to be allocated. -/
def missing (st : Store) (i : ℕ) (ns : List Place) : ℕ := ns.countP fun n => st.index i n = none

/-- How far `sbfs_writei` gets: everything is allocated, or the disk is full now. -/
inductive Reached (st : Store) (i : ℕ) (ns : List Place) : Bool × Store → Prop
  | all (st' : Store) (hneed : st.missing i ns ≤ st.freeBlocks.card) (hvol : st'.vol = st.vol) :
      Reached st i ns (true, st')
  | full (st' : Store) (hneed : st.freeBlocks.card < st.missing i ns) (hvol : st'.vol = st.vol)
      (hindex : ∀ j, j ≠ i → st'.index j = st.index j) (hused : st'.freeBlocks = ∅)
      (hsame : st.freeBlocks = ∅ → st' = st) : Reached st i ns (false, st')

theorem reach_spec {ns : List Place} (hnd : ns.Nodup) : Reached st i ns (st.reach i ns) := by
  induction ns generalizing st with
  | nil => exact .all st (Nat.zero_le _) rfl
  | cons n ns ih =>
    obtain ⟨hn, hnd⟩ := nodup_cons.mp hnd
    rw [reach]
    unfold grow
    rcases hix : st.index i n with _ | b
    · have hcount : st.missing i (n :: ns) = st.missing i ns + 1 := by simp [missing, hix]
      by_cases hfree : st.freeBlocks.card = 0
      · rw [balloc_none hfree]
        exact .full st (by omega) rfl (fun _ _ => rfl) (Finset.card_eq_zero.mp hfree) fun _ => rfl
      · obtain ⟨b, hb, hballoc⟩ := balloc_of_free hfree
        rw [hballoc]
        simp only [if_true]
        set st₁ : Store := ⟨st.vol, update st.used b true,
          update st.index i (update (st.index i) n (some b))⟩
        have hcard : st₁.freeBlocks.card + 1 = st.freeBlocks.card := card_freeBlocks_taken hb rfl
        have hrest : st₁.missing i ns = st.missing i ns := by
          refine countP_congr fun m hm => ?_
          have hmn : m ≠ n := fun he => hn (he ▸ hm)
          simp [st₁, update_of_ne hmn]
        have hreach : Reached st₁ i ns (st₁.reach i ns) := ih hnd
        generalize st₁.reach i ns = res at hreach
        cases hreach with
        | all st' hneed hvol => exact .all st' (by omega) hvol
        | full st' hneed hvol hindex hused =>
          refine .full st' (by omega) hvol (fun j hj => (hindex j hj).trans (update_of_ne hj ..))
            hused fun h => ?_
          exact absurd (h ▸ hb) (Finset.notMem_empty b)
    · have hcount : st.missing i (n :: ns) = st.missing i ns := by simp [missing, hix]
      have hreach : Reached st i ns (st.reach i ns) := ih hnd
      simp only [if_true]
      generalize st.reach i ns = res at hreach
      cases hreach with
      | all st' hneed hvol => exact .all st' (by omega) hvol
      | full st' hneed hvol hindex hused hsame => exact .full st' (by omega) hvol hindex hused hsame

theorem places_nodup (bn : ℕ) : (places bn).Nodup := by
  unfold places
  split_ifs <;> simp

/-- The name is of the right length, and the directory has room for one more entry. -/
def Admits (st : Store) (d : ℕ) (name : Name) : Prop :=
  ¬ (name.length = 0 ∨ SBFS_DIRSIZ ≤ name.length) ∧
    ¬ ((st.vol.inodes d).slots.all Option.isSome = true ∧
      SBFS_MAX_FILE_SIZE < 16 * (st.vol.inodes d).slots.length + 16)

/-- The blocks that the next entry of a directory needs. -/
def need (st : Store) (d : ℕ) : ℕ :=
  st.missing d (places (16 * (st.vol.inodes d).slots.findIdx Option.isNone / SBFS_BSIZE))

theorem dirlink_refused (h : ¬ st.Admits d name) (i : ℕ) :
    ∃ e, st.dirlink d name i = (.error e, st) := by
  unfold dirlink
  dsimp only
  split
  · exact ⟨_, rfl⟩
  next h1 =>
  split
  · exact ⟨_, rfl⟩
  next h2 => exact absurd ⟨h1, h2⟩ h

inductive Linked (st : Store) (d : ℕ) (name : Name) (i : ℕ) : Except Errno Unit × Store → Prop
  | ok (st' : Store) (hneed : st.need d ≤ st.freeBlocks.card)
      (hvol : st'.vol = st.vol.modify d fun ip => { ip with slots := fill (i, name) ip.slots }) :
      Linked st d name i (.ok (), st')
  | full (st' : Store) (hneed : st.freeBlocks.card < st.need d) (hvol : st'.vol = st.vol)
      (hindex : ∀ j, j ≠ d → st'.index j = st.index j) (hused : st'.freeBlocks = ∅)
      (hsame : st.freeBlocks = ∅ → st' = st) : Linked st d name i (.error .enospc, st')

theorem dirlink_spec (h : st.Admits d name) (i : ℕ) : Linked st d name i (st.dirlink d name i) := by
  unfold dirlink
  dsimp only
  rw [if_neg h.1, if_neg h.2]
  set bn := 16 * (st.vol.inodes d).slots.findIdx Option.isNone / SBFS_BSIZE
  have hreach : Reached st d (places bn) (st.reach d (places bn)) := reach_spec (places_nodup bn)
  generalize st.reach d (places bn) = res at hreach
  cases hreach with
  | all st' hneed hvol => exact .ok _ hneed (by rw [modify, hvol])
  | full st' hneed hvol hindex hused hsame => exact .full st' hneed hvol hindex hused hsame

theorem inodePut_inodes {v : Volume} (h : (v.inodes i).nlink ≠ 0 ∨ (v.inodes i).type = .free) :
    (v.inodePut i).inodes = v.inodes := by
  unfold Volume.inodePut
  dsimp only
  rw [if_neg fun hc => h.elim (· hc.2.1) hc.2.2]

theorem ialloc_spec (st : Store) (type : IType) :
    (∃ st', st.ialloc type = (none, st') ∧ Same st st') ∨ ∃ x st', st.ialloc type = (some x, st') ∧
      (st.vol.inodes x).type = .free ∧ st'.used = st.used ∧
      st'.vol.inodes = update st.vol.inodes x ⟨type, 0, [], []⟩ ∧
      st'.index = update st.index x fun _ => none := by
  unfold ialloc
  split
  · exact .inl ⟨st, rfl, rfl, fun i => .inr ⟨rfl, rfl⟩⟩
  next x hx =>
  have hfree : (st.vol.inodes x).type = .free := by simpa using find?_some hx
  dsimp only
  split
  · refine .inl ⟨_, rfl, rfl, fun i => ?_⟩
    by_cases hi : i = x
    · subst hi
      exact .inl ⟨hfree, by simp [modify, Volume.modify]⟩
    · exact .inr (by simp [modify, Volume.modify, update_of_ne hi])
  · next v hv =>
    refine .inr ⟨x, _, rfl, hfree, rfl, ?_, rfl⟩
    unfold Volume.iget at hv
    split at hv
    · cases hv
      rfl
    · cases hv

theorem newDir {parent b : ℕ} (hx : st.vol.inodes x = ⟨.dir, 2, [], []⟩)
    (hi : st.index x = fun _ => none)
    (hb : st.balloc = some (b, { st with used := update st.used b true })) :
    ((st.dirlink x dot x).2.dirlink x dotdot parent).2 =
      { vol := st.vol.modify x fun _ => emptyDir x parent
        used := update st.used b true
        index := update st.index x (oneBlock b) } := by
  have hfirst : st.dirlink x dot x =
    (.ok (), ⟨st.vol.modify x fun _ => ⟨.dir, 2, [some (x, dot)], []⟩,
      update st.used b true, update st.index x (oneBlock b)⟩) := by
    simp [dirlink, hx, hi, hb, reach, grow, places, dot, oneBlock, SBFS_DIRSIZ, SBFS_NDIR,
      SBFS_MAX_FILE_SIZE, modify, Volume.modify, fill]
  rw [hfirst]
  simp [dirlink, reach, grow, places, dotdot, oneBlock, emptyDir, SBFS_DIRSIZ, SBFS_NDIR,
    SBFS_MAX_FILE_SIZE, SBFS_BSIZE, modify, Volume.modify, fill]

theorem hangs_oneBlock {b c : ℕ} (h : st.index x = oneBlock b) : st.hangs x c = decide (c = b) := by
  rw [hangs, h, oneBlock, Bool.eq_iff_iff, decide_eq_true_iff, any_eq_true]
  constructor
  · rintro ⟨bn, -, hany⟩
    obtain ⟨n, -, hn⟩ := any_eq_true.mp hany
    rw [decide_eq_true_iff, update_apply] at hn
    split at hn <;> cases hn
    rfl
  · rintro rfl
    exact ⟨0, mem_range.mpr (by decide), by simp [places, SBFS_NDIR]⟩

theorem lookup_fill_new {l : List (Option Entry)} (h : lookup l name = none) :
    lookup (fill (i, name) l) name = some i := by
  induction l with
  | nil => simp [lookup, fill, isEntry, sameName]
  | cons e l ih =>
    cases e with
    | none => simp [lookup, fill, isEntry, sameName]
    | some a =>
      by_cases ha : isEntry name (some a) = true
      · simp [lookup, ha] at h
      · simp only [lookup, fill, find?_cons, Bool.not_eq_true _ ▸ ha] at h ih ⊢
        exact ih h

/-- The new inode is there, and its parent has no entry for it yet. -/
structure Made (st : Store) (x : ℕ) (ip : Inode) (st' : Store) : Prop where
  free : (st.vol.inodes x).type = .free
  inodes : st'.vol.inodes = update st.vol.inodes x ip
  index : ∀ i, i ≠ x → st'.index i = st.index i
  used : ∀ c, (st'.used c && !st'.hangs x c) = st.used c

theorem Made.discard {ip : Inode} (h : Made st x ip st') : Same st (st'.discard x) := by
  refine ⟨funext h.used, fun i => ?_⟩
  unfold Store.discard
  dsimp only
  rw [inodePut_inodes (.inr (by simp [modify, Volume.modify]))]
  by_cases hi : i = x
  · subst hi
    exact .inl ⟨h.free, by simp [modify, Volume.modify]⟩
  · exact .inr (by simp [modify, Volume.modify, itrunc, h.inodes, h.index i hi, update_of_ne hi])

section

variable {st₁ : Store} (hfree : (st.vol.inodes x).type = .free) (hused : st₁.used = st.used)
  (hinodes : st₁.vol.inodes = update st.vol.inodes x ⟨.dir, 2, [], []⟩)
  (hindex : st₁.index = update st.index x fun _ => none) (parent : ℕ)

include hfree hused hinodes hindex

theorem made_of_free (hroom : st.freeBlocks.card ≠ 0) :
    ∃ b ∈ st.freeBlocks, (((st₁.dirlink x dot x).2.dirlink x dotdot parent).2).used =
      update st.used b true ∧
      Made st x (emptyDir x parent) ((st₁.dirlink x dot x).2.dirlink x dotdot parent).2 ∧
      ∀ c, ((st₁.dirlink x dot x).2.dirlink x dotdot parent).2.hangs x c = decide (c = b) := by
  have heq : st₁.freeBlocks = st.freeBlocks := by rw [freeBlocks, freeBlocks, hused]
  rw [← heq] at hroom
  obtain ⟨b, hb, hballoc⟩ := balloc_of_free hroom
  rw [newDir (by rw [hinodes, update_self]) (by rw [hindex, update_self]) hballoc]
  have hhangs (c : ℕ) : hangs ⟨st₁.vol.modify x fun _ => emptyDir x parent, update st₁.used b true,
      update st₁.index x (oneBlock b)⟩ x c = decide (c = b) :=
    hangs_oneBlock (update_self ..)
  rw [heq] at hb
  have hbfree : st.used b = false := (Finset.mem_filter.mp hb).2
  refine ⟨b, hb, by rw [hused], ⟨hfree, ?_, fun i hi => ?_, fun c => ?_⟩, hhangs⟩
  · simp [Volume.modify, hinodes]
  · simp [hindex, update_of_ne hi]
  · rw [hhangs, hused]
    by_cases hcb : c = b <;> simp [hcb, hbfree]

/-- On a full disk neither of the two entries is written. -/
theorem made_of_full (hfull : st.freeBlocks.card = 0) :
    ((st₁.dirlink x dot x).2.dirlink x dotdot parent).2 = st₁ ∧
    Made st x ⟨.dir, 2, [], []⟩ st₁ := by
  have heq : st₁.freeBlocks = ∅ := by
    rw [freeBlocks, hused]
    exact Finset.card_eq_zero.mp hfull
  have hslots : (st₁.vol.inodes x).slots = [] := by rw [hinodes, update_self]
  have hneed : st₁.need x = 1 := by
    simp [need, hslots, hindex, missing, places, SBFS_NDIR]
  have hlink {name : Name} (hname : ¬ (name.length = 0 ∨ SBFS_DIRSIZ ≤ name.length)) (i : ℕ) :
      (st₁.dirlink x name i).2 = st₁ := by
    have hadmits : st₁.Admits x name := ⟨hname, by rw [hslots]; decide⟩
    have hspec := dirlink_spec hadmits i
    generalize st₁.dirlink x name i = res at hspec
    cases hspec with
    | ok st' hroom =>
      rw [hneed, heq] at hroom
      cases hroom
    | full st' _ _ _ _ hsame => exact hsame heq
  refine ⟨by rw [hlink (by decide), hlink (by decide)], hfree, hinodes, fun i hi => ?_, fun c => ?_⟩
  · rw [hindex, update_of_ne hi]
  · have hhangs : st₁.hangs x c = false := by simp [hangs, hindex]
    rw [hhangs, hused]
    simp

end

/-- Blocks for the new directory and the parent's entry; or for none of them, if the parent needs
one; or for the new directory alone, so that the attempt to enter it takes none. -/
def Enough (st : Store) (d : ℕ) : Prop :=
  (st.freeBlocks.card = 0 → st.need d ≠ 0) ∧
    (2 ≤ st.freeBlocks.card → st.need d < st.freeBlocks.card)

theorem linked_all {parent : ℕ} {ip : Inode} {st₂ st₃ : Store}
    (hdir : (st.vol.inodes parent).type = .dir)
    (hnew : st.vol.find parent name = none) (hmade : Made st x ip st₂) (hip : ip.nlink = 2)
    (hvol : st₃.vol =
      st₂.vol.modify parent fun ip => { ip with slots := fill (x, name) ip.slots }) :
    (((st₃.vol.nlinkInc parent).inodePut x).find parent name = some x) ∧
      ((st₃.vol.nlinkInc parent).inodePut x).inodes x = ip := by
  have hpx : parent ≠ x := by
    rintro rfl
    rw [hmade.free] at hdir
    cases hdir
  have hself : (st₃.vol.nlinkInc parent).inodes x = ip := by
    simp [hvol, Volume.nlinkInc, Volume.modify, update_of_ne hpx.symm, hmade.inodes]
  have hlookup : lookup (st.vol.inodes parent).slots name = none := by
    simpa [Volume.find, hdir] using hnew
  have hput := inodePut_inodes (i := x) (v := st₃.vol.nlinkInc parent) (.inl (by simp [hself, hip]))
  rw [Volume.find, hput]
  refine ⟨?_, hself⟩
  simp [hvol, Volume.nlinkInc, Volume.modify, hmade.inodes, update_of_ne hpx, hdir,
    lookup_fill_new hlookup]

/-- `mkdir` is all or nothing exactly if there are the blocks it needs, or it stops before it needs
any: there is no inode, or no room for the name. -/
theorem mkdir_all_or_nothing (st : Store) (parent : ℕ) (name : Name)
    (hdir : (st.vol.inodes parent).type = .dir) (hnew : st.vol.find parent name = none) :
    AllOrNothing st parent name (st.mkdir parent name) ↔
      (st.ialloc .dir).1 = none ∨ ¬ st.Admits parent name ∨ st.Enough parent := by
  unfold mkdir create
  rcases st.ialloc_spec .dir with ⟨st₁, hst₁, hsame⟩ | ⟨x, st₁, hst₁, hfree, hused, hinodes, hindex⟩
  · rw [hst₁]
    exact iff_of_true ⟨fun _ _ => hsame, nofun⟩ (.inl rfl)
  rw [hst₁, or_iff_right nofun]
  simp only [if_true]
  have hused₁ : (st₁.modify x fun ip => { ip with nlink := 2 }).used = st.used := hused
  have hinodes₁ : (st₁.modify x fun ip => { ip with nlink := 2 }).vol.inodes =
      update st.vol.inodes x ⟨.dir, 2, [], []⟩ := by
    simp [modify, Volume.modify, hinodes]
  have hindex₁ : (st₁.modify x fun ip => { ip with nlink := 2 }).index = update st.index x
    fun _ => none :=
    hindex
  generalize st₁.modify x (fun ip => { ip with nlink := 2 }) = st₁' at *
  have hpx : parent ≠ x := by
    rintro rfl
    rw [hfree] at hdir
    cases hdir
  have hparent {ip : Inode} {st₂ : Store} (hmade : Made st x ip st₂) :
      (st₂.Admits parent name ↔ st.Admits parent name) ∧ st₂.need parent = st.need parent := by
    have hip : st₂.vol.inodes parent = st.vol.inodes parent := by
      rw [hmade.inodes, update_of_ne hpx]
    unfold Admits need missing
    rw [hip, hmade.index parent hpx]
    exact ⟨Iff.rfl, rfl⟩
  by_cases hfull : st.freeBlocks.card = 0
  · obtain ⟨heq, hmade⟩ := made_of_full hfree hused₁ hinodes₁ hindex₁ parent hfull
    rw [heq]
    have hempty : st₁'.freeBlocks = ∅ := by
      rw [freeBlocks, hused₁]
      exact Finset.card_eq_zero.mp hfull
    by_cases hadm : st.Admits parent name
    · rw [or_iff_right (not_not.mpr hadm)]
      have hspec := dirlink_spec ((hparent hmade).1.mpr hadm) x
      generalize st₁'.dirlink parent name x = res at hspec
      cases hspec with
      | ok st₃ hneed hvol =>
        rw [(hparent hmade).2, hempty] at hneed
        refine iff_of_false (fun h => ?_) fun h => h.1 hfull (Nat.le_zero.mp hneed)
        obtain ⟨x', -, hfind, hinode⟩ := h.all rfl
        obtain ⟨hfind', hself⟩ := linked_all hdir hnew hmade rfl hvol
        cases hfind'.symm.trans hfind
        cases hself.symm.trans hinode
      | full st₃ hneed _ _ _ hsame =>
        rw [(hparent hmade).2] at hneed
        rw [hsame hempty]
        exact iff_of_true ⟨fun _ _ => hmade.discard, nofun⟩ ⟨fun _ => by omega, fun h => by omega⟩
    · obtain ⟨e, he⟩ := dirlink_refused (mt (hparent hmade).1.mp hadm) x
      rw [he]
      exact iff_of_true ⟨fun _ _ => hmade.discard, nofun⟩ (.inl hadm)
  · obtain ⟨b, hb, hused₂, hmade, hhangs⟩ := made_of_free hfree hused₁ hinodes₁ hindex₁ parent hfull
    generalize (dirlink _ x dotdot parent).2 = st₂ at *
    have hcard := card_freeBlocks_taken hb hused₂
    by_cases hadm : st.Admits parent name
    · rw [or_iff_right (not_not.mpr hadm)]
      have hspec := dirlink_spec ((hparent hmade).1.mpr hadm) x
      generalize st₂.dirlink parent name x = res at hspec
      cases hspec with
      | ok st₃ hneed hvol =>
        rw [(hparent hmade).2] at hneed
        exact iff_of_true ⟨nofun, fun _ => ⟨x, hfree, linked_all hdir hnew hmade rfl hvol⟩⟩
          ⟨fun h => absurd h hfull, fun _ => by omega⟩
      | full st₃ hneed _ hindex₃ hused₃ hsame =>
        rw [(hparent hmade).2] at hneed
        by_cases hone : st₂.freeBlocks = ∅
        · have hzero : st₂.freeBlocks.card = 0 := Finset.card_eq_zero.mpr hone
          rw [hsame hone]
          exact iff_of_true ⟨fun _ _ => hmade.discard, nofun⟩
            ⟨fun h => absurd h hfull, fun h => by omega⟩
        · -- a block that the attempt has taken for the parent stays taken
          obtain ⟨c, hc⟩ := Finset.nonempty_of_ne_empty hone
          have hpos := Finset.card_pos.mpr ⟨c, hc⟩
          refine iff_of_false (fun h => ?_) fun h => absurd (h.2 (by omega)) (by omega)
          obtain ⟨hlt, hcfree⟩ := Finset.mem_filter.mp hc
          have hcb : c ≠ b := by
            rintro rfl
            rw [hused₂, update_self] at hcfree
            cases hcfree
          have htaken : st₃.used c = true := by
            by_contra hno
            have hmem : c ∈ st₃.freeBlocks := Finset.mem_filter.mpr ⟨hlt, by simpa using hno⟩
            rw [hused₃] at hmem
            cases hmem
          have hkept : st₃.hangs x c = false := by
            have hsame : st₃.hangs x c = st₂.hangs x c := by
              unfold hangs
              rw [hindex₃ x hpx.symm]
            rw [hsame, hhangs]
            exact decide_eq_false hcb
          have hdisk : (st₃.used c && !st₃.hangs x c) = st.used c :=
            congrFun (h.nothing _ rfl).used c
          rw [htaken, hkept] at hdisk
          rw [hused₂, update_of_ne hcb] at hcfree
          rw [hcfree] at hdisk
          cases hdisk
    · obtain ⟨e, he⟩ := dirlink_refused (mt (hparent hmade).1.mp hadm) x
      rw [he]
      exact iff_of_true ⟨fun _ _ => hmade.discard, nofun⟩ (.inl hadm)

/-- A volume with a root directory that has an entry to spare. -/
def rootOnly (used : ℕ → Bool) : Store where
  vol :=
    { inodes := fun i =>
        if i = 1 then ⟨.dir, 2, [some (1, dot), some (1, dotdot), none], []⟩ else ⟨.free, 0, [], []⟩
      refs := fun _ => 0 }
  used := used
  index := fun i n => if i = 1 ∧ n = .data 0 then some 0 else none

/-- One block is free, and the entry in the root needs none. -/
theorem mkdir_all_or_nothing_empty_disk :
    ((rootOnly (· ≠ 5)).mkdir 1 [97]).1 = .ok () ∧
      AllOrNothing (rootOnly (· ≠ 5)) 1 [97] ((rootOnly (· ≠ 5)).mkdir 1 [97]) := by
  have hfree : (rootOnly (· ≠ 5)).freeBlocks = {5} := by
    ext b
    simp only [freeBlocks, rootOnly, Finset.mem_filter, Finset.mem_range, sb,
      decide_eq_false_iff_not,
      Finset.mem_singleton]
    omega
  refine ⟨by decide +kernel,
    (mkdir_all_or_nothing (rootOnly (· ≠ 5)) 1 [97] (by decide) (by decide)).mpr
    (.inr (.inr ⟨fun h => ?_, fun h => ?_⟩))⟩
  · rw [hfree] at h
    cases h
  · rw [hfree] at h
    cases h with
    | step h => cases h

/-- On a full disk the new directory has no entries, and `mkdir` succeeds. -/
theorem mkdir_on_full_disk :
    ((rootOnly fun _ => true).vol.inodes 1).type = .dir ∧
    (rootOnly fun _ => true).vol.find 1 [97] = none ∧
      ¬ AllOrNothing (rootOnly fun _ => true) 1 [97] ((rootOnly fun _ => true).mkdir 1 [97]) := by
  have hrun : ((rootOnly fun _ => true).mkdir 1 [97]).1 = .ok () ∧
      ((rootOnly fun _ => true).mkdir 1 [97]).2.vol.find 1 [97] = some 2 ∧
      (((rootOnly fun _ => true).mkdir 1 [97]).2.vol.inodes 2).slots = [] := by
    decide +kernel
  refine ⟨rfl, rfl, fun h => ?_⟩
  obtain ⟨hok, hfind, hslots⟩ := hrun
  obtain ⟨x, -, hx, hinode⟩ := h.all hok
  cases hfind.symm.trans hx
  rw [hinode] at hslots
  cases hslots

end Store

end Sbunix.Sbfs
