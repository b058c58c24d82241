import Sbunix.Tmpfs.Names
import Sbunix.Tmpfs.Scan

/-!
# The namespace of tmpfs

The lists of entries, link counts and parent pointers of the code show a tree of
names, and each operation keeps that: a new name is given in a directory that has
links, under a name a lookup can find, and a directory is not freed while it is
the parent of another one.
-/

namespace Sbunix.Tmpfs

open Lib List Function

/-! ## Lists of entries as a set -/

/-- What inode `i` says about the names. The link count and the parent of a free slot are left over.
-/
structure Inode.Shows (ti : Inode) (n : Names) (i : ℕ) : Prop where
  type : ti.type = n.type i
  inUse : ti.inUse = true ↔ n.type i ≠ .none
  nlink : n.type i ≠ .none → ti.nlink = n.nlink i
  parent : n.type i ≠ .none → ti.parent = n.parent i
  ents : ∀ d, d ∈ ti.dirents ↔ ⟨i, d.name, d.target⟩ ∈ n.ents
  nodup : (ti.dirents.map Dirent.name).Nodup

structure Shows (fs : Fs) (n : Names) : Prop where
  inode : ∀ i, (fs.inodes i).Shows n i
  bound : ∀ i, n.type i ≠ .none → i < TMPFS_NINODES
  pool : n.ents.card ≤ TMPFS_NINODES

variable {fs fs' : Fs} {n n' : Names} {i j td c : ℕ} {name : Name} {ti : Inode}

theorem Inode.Shows.congr (h : ti.Shows n j) (htype : n'.type j = n.type j)
    (hnlink : n'.nlink j = n.nlink j)
    (hparent : n'.parent j = n.parent j) (hents : ∀ e : Entry, e.dir = j →
    (e ∈ n'.ents ↔ e ∈ n.ents)) :
    ti.Shows n' j where
  type := by rw [htype, h.type]
  inUse := by rw [htype, h.inUse]
  nlink := by rw [htype, hnlink]; exact h.nlink
  parent := by rw [htype, hparent]; exact h.parent
  ents := fun d => by rw [hents _ rfl, h.ents]
  nodup := h.nodup

theorem Shows.congr (h : Shows fs n) (htype : ∀ i, n'.type i = n.type i)
    (hnlink : ∀ i, n.type i ≠ .none → n'.nlink i = n.nlink i)
    (hparent : ∀ i, n.type i ≠ .none → n'.parent i = n.parent i) (hents : n'.ents = n.ents) :
    Shows fs n' := by
  refine ⟨fun i => ⟨?_, ?_, fun hi => ?_, fun hi => ?_, fun d => ?_, (h.inode i).nodup⟩,
    fun i hi => ?_, ?_⟩
  · rw [htype, (h.inode i).type]
  · rw [htype, (h.inode i).inUse]
  · rw [htype] at hi
    rw [hnlink i hi, (h.inode i).nlink hi]
  · rw [htype] at hi
    rw [hparent i hi, (h.inode i).parent hi]
  · rw [hents, (h.inode i).ents]
  · exact h.bound i (htype i ▸ hi)
  · rw [hents]
    exact h.pool

variable {g : Inode → Inode}

section

variable (h : Shows fs n)

include h

theorem Shows.point (hself : (g (fs.inodes i)).Shows n' i)
    (hother : ∀ j, j ≠ i → n'.type j = n.type j ∧ n'.nlink j = n.nlink j ∧ n'.parent j = n.parent j)
    (hents : ∀ e : Entry, e.dir ≠ i → (e ∈ n'.ents ↔ e ∈ n.ents))
    (hbound : n'.type i ≠ .none → i < TMPFS_NINODES) (hpool : n'.ents.card ≤ TMPFS_NINODES) :
    Shows (fs.modify i g) n' := by
  refine ⟨fun j => ?_, fun j hj => ?_, hpool⟩
  · by_cases hji : j = i
    · subst hji
      rw [fs.modify_self]
      exact hself
    · rw [fs.modify_ne i g hji]
      obtain ⟨h1, h2, h3⟩ := hother j hji
      exact (h.inode j).congr h1 h2 h3 fun e he => hents e (he ▸ hji)
  · by_cases hji : j = i
    · exact hji ▸ hbound (hji ▸ hj)
    · exact h.bound j ((hother j hji).1 ▸ hj)

theorem Shows.keep (hg : ∀ ti, (g ti).type = ti.type ∧ (g ti).inUse = ti.inUse ∧
    (g ti).nlink = ti.nlink ∧
      (g ti).parent = ti.parent ∧ (g ti).dirents = ti.dirents) : Shows (fs.modify i g) n := by
  obtain ⟨h1, h2, h3, h4, h5⟩ := hg (fs.inodes i)
  have hi := h.inode i
  refine h.point ⟨?_, ?_, ?_, ?_, ?_, ?_⟩ (fun j _ => ⟨rfl, rfl, rfl⟩) (fun e _ => Iff.rfl)
    (h.bound i) h.pool
  · rw [h1, hi.type]
  · rw [h2, hi.inUse]
  · rw [h3]
    exact hi.nlink
  · rw [h4]
    exact hi.parent
  · rw [h5]
    exact hi.ents
  · rw [h5]
    exact hi.nodup

theorem Shows.set {k : ℕ → ℕ} {x : ℕ → Option ℕ}
    (hg : ∀ ti, (g ti).type = ti.type ∧ (g ti).inUse = ti.inUse ∧ (g ti).dirents = ti.dirents)
    (hself : (g (fs.inodes i)).nlink = k i ∧ (g (fs.inodes i)).parent = x i)
    (hother : ∀ j, j ≠ i → k j = n.nlink j ∧ x j = n.parent j) :
    Shows (fs.modify i g) ⟨n.type, k, x, n.ents⟩ := by
  obtain ⟨h1, h2, h3⟩ := hg (fs.inodes i)
  have hi := h.inode i
  refine h.point ⟨?_, ?_, fun _ => hself.1, fun _ => hself.2, ?_, ?_⟩
    (fun j hj => ⟨rfl, hother j hj⟩)
    (fun e _ => Iff.rfl) (h.bound i) h.pool
  · rw [h1, hi.type]
  · rw [h2, hi.inUse]
  · rw [h3]
    exact hi.ents
  · rw [h3]
    exact hi.nodup

theorem Shows.nlinkInc (hi : n.type i ≠ .none) (hb : n.nlink i + 1 < 2 ^ 32) :
    Shows (fs.nlinkInc i) ⟨n.type, fun j => n.nlink j + ind (i = j), n.parent, n.ents⟩ := by
  refine h.set (fun _ => ⟨rfl, rfl, rfl⟩) ⟨?_, (h.inode i).parent hi⟩ fun j hj => ⟨?_, rfl⟩
  · change ((fs.inodes i).nlink + 1) % 2 ^ 32 = n.nlink i + ind (i = i)
    rw [(h.inode i).nlink hi, Nat.mod_eq_of_lt hb, ind_of_true rfl]
  · rw [ind_of_false (Ne.symm hj), Nat.add_zero]

theorem Shows.nlinkDec (hi : n.type i ≠ .none) (hpos : n.nlink i ≠ 0) (hb : n.nlink i < 2 ^ 32) :
    Shows (fs.nlinkDec i) ⟨n.type, fun j => n.nlink j - ind (i = j), n.parent, n.ents⟩ := by
  refine h.set (fun _ => ⟨rfl, rfl, rfl⟩) ⟨?_, (h.inode i).parent hi⟩ fun j hj => ⟨?_, rfl⟩
  · change ((fs.inodes i).nlink + (2 ^ 32 - 1)) % 2 ^ 32 = n.nlink i - ind (i = i)
    rw [(h.inode i).nlink hi, ind_of_true rfl]
    omega
  · rw [ind_of_false (Ne.symm hj), Nat.sub_zero]

/-! Lists of entries -/

theorem Shows.dirfind_some {de : Dirent} (hf : fs.dirfind td name = some de) :
    ⟨td, name, de.target⟩ ∈ n.ents := by
  have hname : de.name = name := by simpa using find?_some hf
  rw [← hname]
  exact ((h.inode td).ents de).mp (mem_of_find?_eq_some hf)

theorem Shows.dirfind_none : fs.dirfind td name = none ↔ n.Vacant td name := by
  unfold Fs.dirfind
  rw [find?_eq_none]
  constructor
  · intro hf c hc
    have hmem : (⟨c, name⟩ : Dirent) ∈ (fs.inodes td).dirents :=
      ((h.inode td).ents ⟨c, name⟩).mpr hc
    simpa using hf _ hmem
  · intro hv d hd hname
    have hdn : d.name = name := by simpa using hname
    exact hv d.target (hdn ▸ ((h.inode td).ents d).mp hd)

theorem Shows.card_le (ht : ∀ e ∈ n.ents, n.type e.dir ≠ .none) : n.ents.card ≤ fs.direntsUsed := by
  have hsub : n.ents ⊆ (Finset.range TMPFS_NINODES).biUnion fun p =>
      ((fs.inodes p).dirents.map fun d => (⟨p, d.name, d.target⟩ : Entry)).toFinset := by
    intro e he
    rw [Finset.mem_biUnion]
    refine ⟨e.dir, Finset.mem_range.mpr (h.bound _ (ht e he)), ?_⟩
    rw [mem_toFinset, mem_map]
    exact ⟨⟨e.target, e.name⟩, ((h.inode _).ents _).mpr he, rfl⟩
  calc n.ents.card ≤ _ := Finset.card_le_card hsub
    _ ≤ ∑ p ∈ Finset.range TMPFS_NINODES, _ := Finset.card_biUnion_le
    _ ≤ ∑ p ∈ Finset.range TMPFS_NINODES, (fs.inodes p).dirents.length :=
        Finset.sum_le_sum fun p _ => (toFinset_card_le _).trans (length_map ..).le
    _ = fs.direntsUsed := rfl

theorem Shows.dirlink (ht : ∀ e ∈ n.ents, n.type e.dir ≠ .none) (hv : n.Vacant td name)
    (hl : fs.dirlink td name c = some fs') :
    Shows fs' ⟨n.type, n.nlink, n.parent, insert ⟨td, name, c⟩ n.ents⟩ := by
  have hroom := h.card_le ht
  unfold Fs.dirlink at hl
  split at hl
  · cases hl
  next hfree =>
  cases hl
  have htd := h.inode td
  have hcard := Finset.card_insert_le (⟨td, name, c⟩ : Entry) n.ents
  refine h.point ⟨htd.type, htd.inUse, htd.nlink, htd.parent, ?_, ?_⟩ (fun _ _ => ⟨rfl, rfl, rfl⟩)
    ?_ (h.bound td)
    (hcard.trans (by omega))
  · rintro ⟨t, m⟩
    rw [mem_cons, Finset.mem_insert, htd.ents, Dirent.mk.injEq, Entry.mk.injEq]
    constructor
    · rintro (⟨rfl, rfl⟩ | hold)
      · exact .inl ⟨rfl, rfl, rfl⟩
      · exact .inr hold
    · rintro (⟨-, rfl, rfl⟩ | hold)
      · exact .inl ⟨rfl, rfl⟩
      · exact .inr hold
  · change ((⟨c, name⟩ :: (fs.inodes td).dirents).map Dirent.name).Nodup
    rw [map_cons, nodup_cons]
    refine ⟨fun hmem => ?_, htd.nodup⟩
    obtain ⟨d, hd, hdn⟩ := mem_map.mp hmem
    have hdn' : d.name = name := hdn
    exact hv d.target (hdn' ▸ (htd.ents d).mp hd)
  · intro e he
    refine Finset.mem_insert.trans (or_iff_right ?_)
    rintro rfl
    exact he rfl

end

theorem mem_eraseP_name {l : List Dirent} (hnd : (l.map Dirent.name).Nodup) (d : Dirent) :
    d ∈ l.eraseP (·.name = name) ↔ d ∈ l ∧ d.name ≠ name := by
  induction l with
  | nil => simp
  | cons a l ih =>
    rw [map_cons, nodup_cons] at hnd
    by_cases ha : a.name = name
    · rw [eraseP_cons_of_pos (by simpa using ha), mem_cons]
      constructor
      · intro hd
        refine ⟨.inr hd, fun hdn => hnd.1 ?_⟩
        rw [ha, ← hdn]
        exact mem_map_of_mem hd
      · rintro ⟨rfl | hd, hdn⟩
        · exact absurd ha hdn
        · exact hd
    · rw [eraseP_cons_of_neg (by simpa using ha), mem_cons, mem_cons, ih hnd.2]
      constructor
      · rintro (rfl | ⟨hd, hdn⟩)
        · exact ⟨.inl rfl, ha⟩
        · exact ⟨.inr hd, hdn⟩
      · rintro ⟨rfl | hd, hdn⟩
        · exact .inl rfl
        · exact .inr ⟨hd, hdn⟩

theorem Shows.dirunlink (h : Shows fs n) (ht : ∀ c', ⟨td, name, c'⟩ ∈ n.ents → c' = c) :
    Shows (fs.dirunlink td name) ⟨n.type, n.nlink, n.parent, n.ents.erase ⟨td, name, c⟩⟩ := by
  have htd := h.inode td
  refine h.point ⟨htd.type, htd.inUse, htd.nlink, htd.parent, ?_, ?_⟩ (fun _ _ => ⟨rfl, rfl, rfl⟩)
    ?_ (h.bound td)
    ((Finset.card_le_card (Finset.erase_subset _ _)).trans h.pool)
  · rintro ⟨t, m⟩
    change _ ∈ (fs.inodes td).dirents.eraseP _ ↔ _
    rw [mem_eraseP_name htd.nodup, Finset.mem_erase, htd.ents, and_comm]
    refine and_congr_left fun hmem => not_congr ?_
    rw [Entry.mk.injEq]
    constructor
    · rintro rfl
      exact ⟨rfl, rfl, ht _ hmem⟩
    · exact fun he => he.2.1
  · exact htd.nodup.sublist ((eraseP_sublist).map _)
  · intro e he
    refine Finset.mem_erase.trans (and_iff_right ?_)
    rintro rfl
    exact he rfl

/-! Slots -/

theorem Shows.dirents_nil (h : Shows fs n) (hi : ∀ e ∈ n.ents, e.dir ≠ i) :
    (fs.inodes i).dirents = [] :=
  eq_nil_iff_forall_not_mem.mpr fun d hd => hi _ (((h.inode i).ents d).mp hd) rfl

theorem Shows.ialloc (h : Shows fs n) (ht : n.Tree) {t : IType} {ni : ℕ} (htn : t ≠ .none)
    (ha : fs.ialloc t = some (ni, fs')) :
    n.type ni = .none ∧
      Shows fs' ⟨update n.type ni t, update n.nlink ni 1, update n.parent ni none, n.ents⟩ := by
  unfold Fs.ialloc at ha
  split at ha
  · cases ha
  next hfirst =>
  cases ha
  obtain ⟨-, hlt, hfree, -⟩ := firstFrom_some hfirst
  have hni : n.type ni = .none := by
    by_contra hne
    rw [((h.inode ni).inUse).mpr hne] at hfree
    cases hfree
  have hno := ht.no_entries_in (Names.not_linked_of_none hni)
  have hself : update n.type ni t ni = t := update_self ni t n.type
  refine ⟨hni, h.point ⟨?_, ?_, fun _ => ?_, fun _ => ?_, fun d => ?_, nodup_nil⟩
    (fun j hj => ⟨?_, ?_, ?_⟩)
    (fun e _ => Iff.rfl) (fun _ => hlt) h.pool⟩
  · exact hself.symm
  · exact iff_of_true rfl (hself.trans_ne htn)
  · exact (update_self ni 1 n.nlink).symm
  · exact (update_self ni none n.parent).symm
  · exact iff_of_false not_mem_nil fun hd => hno _ hd rfl
  · exact update_of_ne hj ..
  · exact update_of_ne hj ..
  · exact update_of_ne hj ..

theorem Shows.ifree (h : Shows fs n) (hi : ∀ e ∈ n.ents, e.dir ≠ i) :
    Shows (fs.ifree i) (n.free i) := by
  have hself : (n.free i).type i = .none := update_self ..
  have hnil := h.dirents_nil hi
  have hdirents : ∀ {ti : Inode}, ti.dirents = [] → (if ti.type = .reg ∨ ti.type = .lnk then
      { ti with filePages := fun _ => none } else if ti.type = .dir then { ti with dirents :=
        [] } else ti).dirents =
        [] := by
    intro ti hti
    split_ifs
    · exact hti
    · rfl
    · exact hti
  refine h.point ⟨hself.symm, ?_, fun hne => absurd hself hne, fun hne => absurd hself hne,
    fun d => ?_, ?_⟩
    (fun j hj => ⟨update_of_ne hj .., rfl, rfl⟩) (fun e _ => Iff.rfl)
    (fun hne => absurd hself hne) h.pool
  · exact iff_of_false Bool.false_ne_true fun hne => hne hself
  · dsimp only
    rw [hdirents hnil]
    exact iff_of_false not_mem_nil fun hd => hi _ hd rfl
  · dsimp only
    rw [hdirents hnil]
    exact nodup_nil

/-! ## The operations -/

def Shaped (fs : Fs) : Prop := ∃ n, Shows fs n ∧ n.Tree

variable {k od : ℕ} {x : Option ℕ} {old : Name} {fs1 : Fs} {ni : ℕ} {t : IType}

theorem Names.Tree.holder_ne (h : n.Tree) : ∀ e ∈ n.ents, n.type e.dir ≠ .none := by
  intro e he
  rw [(h.holder e he).1]
  decide

variable {nd src : ℕ} {e : Entry} {new : Name}

theorem Shows.nlink_lt (h : Shows fs n) (ht : n.Tree) (hi : n.type i ≠ .none) :
    n.nlink i + 1 < 2 ^ 32 := by
  have hle := ht.nlink_le hi
  have hpool : n.ents.card ≤ 64 := h.pool
  omega

theorem Shows.linked (h : Shows fs n) (hd : (fs.inodes td).type = .dir)
    (hl : (fs.inodes td).nlink ≠ 0) :
    n.Linked td := by
  have htype : n.type td = .dir := by rw [← (h.inode td).type, hd]
  refine ⟨htype, ?_⟩
  rw [← (h.inode td).nlink (by rw [htype]; decide)]
  exact hl

theorem Shows.giveBack (ht : n.Tree) (hni : n.type ni = .none)
    (h : Shows fs ⟨update n.type ni t, update n.nlink ni k, update n.parent ni x, n.ents⟩) :
    Shows (fs.ifree ni) n := by
  have hback : ∀ {i}, update (update n.type ni t) ni .none i ≠ .none → i ≠ ni := by
    rintro i hi rfl
    exact hi (update_self ..)
  refine (h.ifree (ht.no_entries_in (Names.not_linked_of_none hni))).congr (fun i => ?_)
    (fun i hi => ?_)
    (fun i hi => ?_) rfl
  · change _ = update (update n.type ni t) ni .none i
    rw [update_idem, ← hni, update_eq_self]
  · exact (update_of_ne (hback hi) ..).symm
  · exact (update_of_ne (hback hi) ..).symm

theorem Shows.enter (ht : n.Tree) (hni : n.type ni = .none) (hv : n.Vacant td name)
    (h : Shows fs ⟨update n.type ni t, update n.nlink ni k, update n.parent ni x, n.ents⟩) :
    (∀ fs', fs.enter td name ni = .error fs' → Shows fs' n) ∧
      ∀ fs', fs.enter td name ni = .ok fs' → Shows fs' ⟨update n.type ni t, update n.nlink ni k,
        update n.parent ni x, insert ⟨td, name, ni⟩ n.ents⟩ := by
  have hno := ht.no_entries_in (Names.not_linked_of_none hni)
  unfold Fs.enter
  constructor
  · intro fs' he
    split at he
    · cases he
      exact Shows.giveBack ht hni h
    · cases he
  · intro fs' he
    split at he
    · cases he
    next hlink =>
    cases he
    refine h.dirlink (fun e he => ?_) hv hlink
    change update n.type ni t e.dir ≠ .none
    rw [update_of_ne (hno e he)]
    exact ht.holder_ne e he

theorem Shaped.create (h : Shows fs n) (ht : n.Tree) (htd : n.Linked td) (hdot : name ≠ dot)
    (hdd : name ≠ dotdot) :
    Shaped (fs.opCreate td name).2 := by
  unfold Fs.opCreate
  split
  · exact ⟨n, h, ht⟩
  split
  · exact ⟨n, h, ht⟩
  next hok =>
  split
  · exact ⟨n, h, ht⟩
  next hfind =>
  have hv : n.Vacant td name := h.dirfind_none.mp (by simpa using hfind)
  split
  · exact ⟨n, h, ht⟩
  next ni fs1 hialloc =>
  obtain ⟨hni, h1⟩ := h.ialloc ht (by decide) hialloc
  obtain ⟨herr, hin⟩ := Shows.enter ht hni hv h1
  split
  · next he => exact ⟨n, herr _ he, ht⟩
  · next he =>
    exact ⟨n.add td name ni .reg,
      (hin _ he).congr (fun i => rfl) (fun i _ => Names.add_nlink_file (by decide))
      (fun i _ => rfl) rfl, ht.add hni htd ⟨hdot, hdd, by simpa using hok⟩ hv (by decide)⟩

theorem Shows.inodePut (h : Shows fs n) (hi : (fs.inodes i).nlink ≠ 0 ∨ (fs.inodes i).refcnt ≠ 1) :
    Shows (fs.inodePut i) n := by
  have hdec : Shows (fs.modify i fun ti => { ti with refcnt := ti.refcnt - 1 }) n :=
    h.keep fun _ => ⟨rfl, rfl, rfl, rfl, rfl⟩
  unfold Fs.inodePut Fs.opRelease
  dsimp only
  split
  next hz =>
    rw [fs.modify_self] at hz
    have hz' : (fs.inodes i).refcnt - 1 = 0 := hz
    rw [if_neg]
    · exact hdec
    · rw [fs.modify_self]
      rintro ⟨-, hn⟩
      rcases hi with hi | hi
      · exact hi hn
      · omega
  · exact hdec

section

variable (h : Shows fs n) (ht : n.Tree) (htd : n.Linked td) (hdot : name ≠ dot)
    (hdd : name ≠ dotdot)

include h ht htd hdot hdd

theorem Shaped.mkdir : Shaped (fs.opMkdir td name).2 := by
  unfold Fs.opMkdir
  split
  · exact ⟨n, h, ht⟩
  split
  · exact ⟨n, h, ht⟩
  next hok =>
  split
  · exact ⟨n, h, ht⟩
  next hfind =>
  have hv : n.Vacant td name := h.dirfind_none.mp (by simpa using hfind)
  split
  · exact ⟨n, h, ht⟩
  next ni fs1 hialloc =>
  obtain ⟨hni, h1⟩ := h.ialloc ht (by decide) hialloc
  have hne : td ≠ ni := by
    rintro rfl
    exact Names.not_linked_of_none hni htd
  have h2 : Shows (fs1.modify ni fun ti => { ti with nlink := 2, parent := some td })
      ⟨update n.type ni .dir, update n.nlink ni 2, update n.parent ni (some td), n.ents⟩ := by
    refine h1.set (fun _ => ⟨rfl, rfl, rfl⟩) ⟨?_, ?_⟩ fun j hj => ⟨?_, ?_⟩
    · rw [update_self]
    · rw [update_self]
    · dsimp only
      rw [update_of_ne hj, update_of_ne hj]
    · dsimp only
      rw [update_of_ne hj, update_of_ne hj]
  obtain ⟨herr, hin⟩ := Shows.enter ht hni hv h2
  split
  · next he => exact ⟨n, herr _ he, ht⟩
  next fs2 he =>
  have htype : update n.type ni .dir td ≠ .none := by
    rw [update_of_ne hne, htd.1]
    decide
  have hlt : update n.nlink ni 2 td + 1 < 2 ^ 32 := by
    rw [update_of_ne hne]
    exact h.nlink_lt ht (by rw [htd.1]; decide)
  have h3 := (hin _ he).nlinkInc (i := td) htype hlt
  have hlinks : ((fs2.nlinkInc td).inodes ni).nlink ≠ 0 := by
    have hself : update n.type ni .dir ni = .dir := update_self ..
    rw [(h3.inode ni).nlink (hself.trans_ne (by decide))]
    dsimp only
    rw [update_self]
    omega
  exact ⟨n.add td name ni .dir, (h3.inodePut (.inl hlinks)).congr (fun i => rfl)
    (fun i _ => Names.add_nlink_dir hne) (fun i _ => rfl) rfl,
    ht.add hni htd ⟨hdot, hdd, by simpa using hok⟩ hv (by decide)⟩

theorem Shaped.symlink (target : List UInt8) (mem : Bool) :
    Shaped (fs.opSymlink td name target mem).2 := by
  unfold Fs.opSymlink
  split
  · exact ⟨n, h, ht⟩
  split
  · exact ⟨n, h, ht⟩
  next hok =>
  split
  · exact ⟨n, h, ht⟩
  split
  · exact ⟨n, h, ht⟩
  split
  · exact ⟨n, h, ht⟩
  next hfind =>
  have hv : n.Vacant td name := h.dirfind_none.mp (by simpa using hfind)
  split
  · exact ⟨n, h, ht⟩
  next ni fs1 hialloc =>
  obtain ⟨hni, h1⟩ := h.ialloc ht (by decide) hialloc
  split
  · exact ⟨n, Shows.giveBack ht hni h1, ht⟩
  dsimp only
  obtain ⟨herr, hin⟩ := Shows.enter ht hni hv (h1.keep (i := ni) (g := fun ti => { ti with
    filePages := update ti.filePages 0 (some fun i => target.getD i.val 0), size := target.length })
    fun _ => ⟨rfl, rfl, rfl, rfl, rfl⟩)
  split
  · next he => exact ⟨n, herr _ he, ht⟩
  next fs2 he =>
  have h3 := hin _ he
  have hlinks : (fs2.inodes ni).nlink ≠ 0 := by
    have hself : update n.type ni .lnk ni = .lnk := update_self ..
    rw [(h3.inode ni).nlink (hself.trans_ne (by decide))]
    dsimp only
    rw [update_self]
    omega
  exact ⟨n.add td name ni .lnk, (h3.inodePut (.inl hlinks)).congr (fun i => rfl)
    (fun i _ => Names.add_nlink_file (by decide)) (fun i _ => rfl) rfl,
    ht.add hni htd ⟨hdot, hdd, by simpa using hok⟩ hv (by decide)⟩

theorem Shaped.link
    (hv : n.Vacant td name) {tgt : ℕ} (htgt : n.type tgt ≠ .none) (hfile : n.type tgt ≠ .dir) :
    Shaped (fs.opLink td tgt name).2 := by
  unfold Fs.opLink
  split
  · exact ⟨n, h, ht⟩
  next hok =>
  split
  · exact ⟨n, h, ht⟩
  next fs1 hlink =>
  exact ⟨n.link td name tgt, (h.dirlink ht.holder_ne hv hlink).nlinkInc htgt (h.nlink_lt ht htgt),
    ht.link htd ⟨hdot, hdd, by simpa using hok⟩ hv hfile htgt⟩

/-! Removing -/

end

/-- No directory in use has `t` for its parent. -/
def Childless (fs : Fs) (t : ℕ) : Prop :=
  ∀ j, (fs.inodes j).inUse = true → (fs.inodes j).type = .dir → (fs.inodes j).parent ≠ some t

theorem Shows.childless (h : Shows fs n) {t : ℕ} (hc : Childless fs t) :
    ∀ j, n.type j = .dir → n.parent j ≠ some t := by
  intro j hj
  have hne : n.type j ≠ .none := by
    rw [hj]
    decide
  rw [← (h.inode j).parent hne]
  exact hc j ((h.inode j).inUse.mpr hne) (by rw [(h.inode j).type, hj])

theorem Fs.modify_field {β : Type} (π : Inode → β) {g : Inode → Inode}
    (hπ : ∀ ti, π (g ti) = π ti) (fs : Fs)
    (j : ℕ) : π ((fs.modify i g).inodes j) = π (fs.inodes j) := by
  by_cases hj : j = i
  · rw [hj, fs.modify_self, hπ]
  · rw [fs.modify_ne i g hj]

/-- What taking out the entry of `c` leaves: everything else with links keeps them. -/
structure Dropped (n : Names) (e : Entry) (n' : Names) : Prop where
  tree : n'.Tree
  ents : n'.ents = n.ents.erase e
  parent : n'.parent = n.parent
  type : ∀ i, n'.type i ≠ .none → n'.type i = n.type i
  linked : ∀ i, n.Linked i → i ≠ e.target → n'.Linked i

theorem Names.Tree.dropFile_dropped (ht : n.Tree) (he : e ∈ n.ents) (hf : n.type e.target ≠ .dir) :
    Dropped n e (n.dropFile e) where
  tree := ht.dropFile he hf
  ents := rfl
  parent := rfl
  type := fun _ _ => rfl
  linked := fun i hi hne => by
    refine ⟨hi.1, ?_⟩
    change n.nlink i - ind (e.target = i) ≠ 0
    rw [ind_of_false (Ne.symm hne)]
    exact hi.2

theorem Names.Tree.dropDir_dropped (ht : n.Tree) (he : e ∈ n.ents) (hd : n.type e.target = .dir)
    (hempty : ∀ e' ∈ n.ents, e'.dir ≠ e.target) : Dropped n e (n.dropDir e) where
  tree := ht.dropDir he hd hempty
  ents := rfl
  parent := rfl
  type := fun _ _ => rfl
  linked := fun i hi hne => by
    refine ⟨hi.1, ?_⟩
    have := ht.nlink_linked hi
    have := ind_le_one (e.dir = i)
    change (if i = e.target then 0 else n.nlink i - ind (e.dir = i)) ≠ 0
    rw [if_neg hne]
    omega

theorem Dropped.free {n' : Names} (h : Dropped n e n') (hi : n'.type e.target ≠ .none)
    (hz : n'.nlink e.target = 0) (hp : ∀ j, n'.type j = .dir → n'.parent j ≠ some e.target) :
    Dropped n e (n'.free e.target) where
  tree := h.tree.free hi hz hp
  ents := h.ents
  parent := h.parent
  type := fun i hi => by
    have hne : i ≠ e.target := by
      rintro rfl
      exact hi (update_self ..)
    change update n'.type e.target .none i ≠ .none at hi
    change update n'.type e.target .none i = _
    rw [update_of_ne hne] at hi ⊢
    exact h.type i hi
  linked := fun i hl hne => by
    refine ⟨?_, (h.linked i hl hne).2⟩
    change update n'.type e.target .none i = .dir
    rw [update_of_ne hne, (h.linked i hl hne).1]

theorem Shows.dropLink (h : Shows fs n) (ht : n.Tree) (he : ⟨td, name, c⟩ ∈ n.ents)
    (hempty : n.type c = .dir → ∀ e ∈ n.ents, e.dir ≠ c) :
    ∃ n', Shows ((fs.dirunlink td name).dropLink td c) n' ∧ Dropped n ⟨td, name, c⟩ n' ∧
      n'.type = n.type := by
  have hc : n.type c ≠ .none := (ht.target _ he).1
  have hclt := h.nlink_lt ht hc
  have hrefs : 0 < n.refs c := count_pos.mpr ⟨⟨td, name, c⟩, he, rfl⟩
  have h1 : Shows (fs.dirunlink td name) ⟨n.type, n.nlink, n.parent, n.ents.erase ⟨td, name, c⟩⟩ :=
    h.dirunlink fun c' hc' => congrArg Entry.target (ht.unique _ hc' _ he rfl rfl)
  have htype : ((fs.dirunlink td name).inodes c).type = n.type c := (h1.inode c).type
  unfold Fs.dropLink
  by_cases hd : n.type c = .dir
  · have htd := ht.holder _ he
    have htdne : td ≠ c := hempty hd _ he
    have htdlt := h.nlink_lt ht (i := td) (by rw [htd.1]; decide)
    have hnlink : n.nlink c = 2 := by
      have hsub : n.subdirs c = 0 := count_eq_zero.mpr fun e he' hce => hempty hd e he' hce.1
      rcases ht.dirs c hd (ht.target _ he).2 with hz | hz <;> omega
    rw [if_pos (htype.trans hd)]
    have h2 := h1.nlinkDec (i := td) (by rw [htd.1]; decide) htd.2
      ((Nat.lt_succ_self _).trans htdlt)
    have h3 := h2.nlinkDec (i := c) hc (by dsimp only; rw [ind_of_false htdne]; omega)
      (by dsimp only; rw [ind_of_false htdne]; omega)
    have h4 := h3.nlinkDec (i :=
      c) hc (by dsimp only; rw [ind_of_false htdne, ind_of_true rfl]; omega)
      (by dsimp only; rw [ind_of_false htdne, ind_of_true rfl]; omega)
    refine ⟨n.dropDir ⟨td, name, c⟩, h4.congr (fun _ => rfl) (fun i _ => ?_) (fun _ _ => rfl) rfl,
      ht.dropDir_dropped he hd (hempty hd), rfl⟩
    change (if i = c then 0 else n.nlink i - ind (td = i)) = n.nlink i - ind (td = i) - ind
      (c = i) - ind (c = i)
    split_ifs with hi
    · rw [hi, hnlink, ind_of_false htdne, ind_of_true rfl]
    · rw [ind_of_false (Ne.symm hi), Nat.sub_zero, Nat.sub_zero]
  · rw [if_neg fun hdir => hd (htype.symm.trans hdir)]
    have hpos : n.nlink c ≠ 0 := by
      rw [ht.files c hc hd]
      exact hrefs.ne'
    exact ⟨n.dropFile ⟨td, name, c⟩, h1.nlinkDec hc hpos ((Nat.lt_succ_self _).trans hclt),
      ht.dropFile_dropped he hd, rfl⟩

theorem nlinkDec_refcnt (fs : Fs) (i j : ℕ) :
    ((fs.nlinkDec i).inodes j).refcnt = (fs.inodes j).refcnt :=
  Fs.modify_field Inode.refcnt (g :=
    fun ti => { ti with nlink := (ti.nlink + (2 ^ 32 - 1)) % 2 ^ 32 }) (fun _ => rfl)
    fs j

theorem dropLink_refcnt (fs : Fs) (td c j : ℕ) (name : Name) :
    (((fs.dirunlink td name).dropLink td c).inodes j).refcnt = (fs.inodes j).refcnt := by
  have hunlink : ((fs.dirunlink td name).inodes j).refcnt = (fs.inodes j).refcnt :=
    Fs.modify_field Inode.refcnt (g :=
      fun ti => { ti with dirents := ti.dirents.eraseP (·.name = name) })
      (fun _ => rfl) fs j
  unfold Fs.dropLink
  split
  · rw [nlinkDec_refcnt, nlinkDec_refcnt, nlinkDec_refcnt, hunlink]
  · rw [nlinkDec_refcnt, hunlink]

/-- The directory `t` can be removed: if it is freed at once, it is no directory's parent. -/
def Spare (fs : Fs) (t : ℕ) : Prop :=
    (fs.inodes t).type = .dir → (fs.inodes t).refcnt = 0 → Childless fs t

section

variable (h : Shows fs n) (ht : n.Tree)

include h ht

theorem Shows.remove (he : ⟨td, name, c⟩ ∈ n.ents)
    (hempty : n.type c = .dir → ∀ e ∈ n.ents, e.dir ≠ c) (hspare : Spare fs c) :
    ∃ n', Shows (((fs.dirunlink td name).dropLink td c).reap c) n' ∧
      Dropped n ⟨td, name, c⟩ n' := by
  obtain ⟨n1, h1, hd1, htype⟩ := h.dropLink ht he hempty
  have hc : n1.type c ≠ .none := by
    rw [htype]
    exact (ht.target _ he).1
  unfold Fs.reap
  split
  next hz =>
    rw [dropLink_refcnt] at hz
    have hz1 : n1.nlink c = 0 := by rw [← (h1.inode c).nlink hc, hz.1]
    refine ⟨n1.free c, h1.ifree (hd1.tree.no_entries_in fun hl => hl.2 hz1),
      hd1.free hc hz1 fun j hj => ?_⟩
    rw [htype] at hj
    rw [hd1.parent]
    by_cases hd : n.type c = .dir
    · exact h.childless (hspare (by rw [(h.inode c).type, hd]) hz.2) j hj
    · -- the parent of a directory is a directory
      intro hpar
      have hj0 : j ≠ 0 := by
        rintro rfl
        rw [ht.rootParent] at hpar
        cases hpar
      obtain ⟨p, hp, hpd⟩ := ht.parents j hj hj0
      cases hpar.symm.trans hp
      exact hd hpd
  · exact ⟨n1, h1, hd1⟩

theorem Shows.no_entries (hc : fs.dirIsEmpty c = true) : ∀ e ∈ n.ents, e.dir ≠ c := by
  rintro e he rfl
  have hmem : (⟨e.target, e.name⟩ : Dirent) ∈ (fs.inodes e.dir).dirents :=
    ((h.inode e.dir).ents _).mpr he
  have hname := all_eq_true.mp hc _ hmem
  have hplain := ht.plain e he
  simp only [Bool.decide_or, Bool.or_eq_true, decide_eq_true_eq] at hname
  exact hname.elim hplain.1 hplain.2.1

theorem Shaped.unlink
    (hspare : ∀ de, fs.dirfind td name = some de → Spare fs de.target) :
    Shaped (fs.opUnlink td name).2 := by
  unfold Fs.opUnlink
  split
  · exact ⟨n, h, ht⟩
  split
  · exact ⟨n, h, ht⟩
  split
  · exact ⟨n, h, ht⟩
  split
  · exact ⟨n, h, ht⟩
  next de hfind =>
  split
  · exact ⟨n, h, ht⟩
  next hempty =>
  obtain ⟨n', h', hd⟩ := h.remove ht (h.dirfind_some hfind)
    (fun hdir => h.no_entries ht (by simpa [(h.inode de.target).type, hdir] using hempty))
    (hspare de hfind)
  exact ⟨n', h', hd.tree⟩

/-! Moving -/

theorem Shaped.moveEntry
    (he : ⟨od, old, src⟩ ∈ n.ents) (hnd : n.Linked nd) (hv : n.Vacant nd new) (hdot : new ≠ dot)
    (hdd : new ≠ dotdot)
    (hok : nameOk new = true) (hacyc : n.type src = .dir → Avoids n.parent src (some nd)) :
    Shaped (fs.moveEntry od old nd new src).2 := by
  unfold Fs.moveEntry
  split
  · exact ⟨n, h, ht⟩
  next fs1 hlink =>
  have h1 := h.dirlink ht.holder_ne hv hlink
  have h2 : Shows (fs1.dirunlink od old) ⟨n.type, n.nlink, n.parent,
      insert ⟨nd, new, src⟩ (n.ents.erase ⟨od, old, src⟩)⟩ := by
    have hne : (⟨nd, new, src⟩ : Entry) ≠ ⟨od, old, src⟩ := fun heq => hv src (heq ▸ he)
    rw [← Finset.erase_insert_of_ne hne]
    refine h1.dirunlink fun c' hc' => ?_
    rcases Finset.mem_insert.mp hc' with heq | hc'
    · exact (congrArg Entry.target heq)
    · exact congrArg Entry.target (ht.unique _ hc' _ he rfl rfl)
  have htype : ((fs1.dirunlink od old).inodes src).type = n.type src := (h2.inode src).type
  have hod := ht.holder _ he
  refine ⟨n.move ⟨od, old, src⟩ nd new, ?_, ht.move he hnd hv ⟨hdot, hdd, hok⟩ hacyc⟩
  dsimp only
  split
  next hmv =>
    obtain ⟨hd, hne⟩ := hmv
    rw [htype] at hd
    have hodlt := h.nlink_lt ht (i := od) (by rw [hod.1]; decide)
    have hndlt := h.nlink_lt ht (i := nd) (by rw [hnd.1]; decide)
    have h3 := h2.nlinkDec (i := od) (by rw [hod.1]; decide) hod.2
      ((Nat.lt_succ_self _).trans hodlt)
    have h4 := h3.nlinkInc (i := nd) (by rw [hnd.1]; decide) (by
      dsimp only
      rw [ind_of_false hne]
      exact hndlt)
    have h5 := h4.set (i := src) (g := fun ti => { ti with parent := some nd })
      (x := update n.parent src (some nd)) (fun _ => ⟨rfl, rfl, rfl⟩)
      ⟨(h4.inode src).nlink (hd.trans_ne (by decide)), (update_self src (some nd) n.parent).symm⟩
      fun j hj => ⟨rfl, update_of_ne hj ..⟩
    refine h5.congr (fun _ => rfl) (fun i _ => ?_) (fun i _ => ?_) rfl
    · change (if n.type src = .dir then n.nlink i + ind (nd = i) - ind (od = i) else n.nlink i) =
        n.nlink i - ind (od = i) + ind (nd = i)
      rw [if_pos hd]
      by_cases hi : od = i
      · have := hod.2
        subst hi
        rw [ind_of_true rfl]
        change n.nlink od ≠ 0 at this
        omega
      · rw [ind_of_false hi, Nat.sub_zero, Nat.sub_zero]
    · change (if n.type src = .dir then update n.parent src (some nd) else n.parent) i = _
      rw [if_pos hd]
  next hmv =>
    rw [htype, not_and, not_not] at hmv
    refine h2.congr (fun _ => rfl) (fun i _ => ?_) (fun i _ => ?_) rfl
    · change (if n.type src = .dir then n.nlink i + ind (nd = i) - ind (od = i) else n.nlink i) =
        n.nlink i
      split_ifs with hd
      · rw [hmv hd, Nat.add_sub_cancel]
      · rfl
    · change (if n.type src = .dir then update n.parent src (some nd) else n.parent) i = n.parent i
      split_ifs with hd
      · have hup : n.parent src = some od := ht.up _ he hd
        rw [← hmv hd, ← hup, update_eq_self]
      · rfl

theorem Shows.avoids : ∀ {k a : ℕ}, n.Linked a →
    fs.isAbove src k (some a) = some false → Avoids n.parent src (some a) := by
  intro k
  induction k with
  | zero => exact fun _ ha => nomatch ha
  | succ k ih =>
    intro a hl ha
    rw [Fs.isAbove] at ha
    split at ha
    · cases ha
    next hne =>
    refine .up hne ?_
    rw [(h.inode a).parent (by rw [hl.1]; decide)] at ha
    by_cases h0 : a = 0
    · rw [h0, ht.rootParent]
      exact .top
    · obtain ⟨e, -, -, hpar, hdir⟩ := ht.entered hl h0
      rw [hpar] at ha ⊢
      exact ih hdir ha

theorem Shows.isAbove_ends (hnd : n.Linked nd) : fs.isAbove src TMPFS_NINODES (some nd) ≠ none := by
  have hwalk : ∀ {k o}, Ends n.parent k o → (∀ a ∈ o, n.Linked a) → fs.isAbove src k o ≠ none := by
    intro k o hends
    induction hends with
    | top k => cases k <;> exact fun _ => Option.some_ne_none _
    | @up k a _ ih =>
      intro hl
      have ha : n.Linked a := hl a rfl
      rw [Fs.isAbove]
      split
      · exact Option.some_ne_none _
      · rw [(h.inode a).parent (by rw [ha.1]; decide)]
        refine ih fun p hp => ?_
        by_cases h0 : a = 0
        · rw [h0, ht.rootParent] at hp
          cases hp
        · obtain ⟨e, -, -, hpar, hdir⟩ := ht.entered ha h0
          cases hpar.symm.trans hp
          exact hdir
  have hup : ∀ x, Relation.ReflTransGen (Above n.parent) x nd → n.Linked x := by
    intro x hx
    induction hx using Relation.ReflTransGen.head_induction_on with
    | refl => exact hnd
    | @head x y hxy _ ih =>
      by_cases h0 : y = 0
      · rw [Above, h0, ht.rootParent] at hxy
        cases hxy
      · obtain ⟨e, -, -, hpar, hdir⟩ := ht.entered ih h0
        cases hpar.symm.trans hxy
        exact hdir
  have hends := ends_of_acc (S := Finset.range TMPFS_NINODES) (ht.ends nd hnd) fun x hx =>
    Finset.mem_range.mpr (h.bound x (by rw [(hup x hx).1]; decide))
  rw [Finset.card_range] at hends
  refine hwalk hends fun a ha => ?_
  obtain rfl := Option.mem_some.mp ha
  exact hnd

theorem Shaped.renameOver
    (he : ⟨od, old, src⟩ ∈ n.ents) (hdiff : ¬ (od = nd ∧ old = new)) (hnd : n.Linked nd)
    (hdot : new ≠ dot)
    (hdd : new ≠ dotdot) (hok : nameOk new = true) (hacyc : n.type src = .dir →
    Avoids n.parent src (some nd))
    (hspare : ∀ de, fs.dirfind nd new = some de → Spare fs de.target) :
    Shaped (fs.renameOver od old nd new src).2 := by
  unfold Fs.renameOver
  split
  next hfind => exact Shaped.moveEntry h ht he hnd (h.dirfind_none.mp hfind) hdot hdd hok hacyc
  next de hfind =>
  split
  · exact ⟨n, h, ht⟩
  split
  · exact ⟨n, h, ht⟩
  split
  · exact ⟨n, h, ht⟩
  next hempty =>
  have hde := h.dirfind_some hfind
  have hno : n.type de.target = .dir → ∀ e ∈ n.ents, e.dir ≠ de.target := fun hdir =>
    h.no_entries ht (by simpa [(h.inode de.target).type, hdir] using hempty)
  obtain ⟨n', h', hd⟩ := h.remove ht hde hno (hspare de hfind)
  have hsrc : ⟨od, old, src⟩ ∈ n'.ents := by
    rw [hd.ents, Finset.mem_erase]
    refine ⟨fun heq => hdiff ?_, he⟩
    rw [Entry.mk.injEq] at heq
    exact ⟨heq.1, heq.2.1⟩
  have hnd' : n'.Linked nd := by
    refine hd.linked nd hnd fun heq => ?_
    -- the directory that is replaced is empty, and `nd` is not
    have heq' : nd = de.target := heq
    exact hno (heq' ▸ hnd.1) _ hde heq'
  have hv' : n'.Vacant nd new := by
    intro c hc
    rw [hd.ents, Finset.mem_erase] at hc
    exact hc.1 (ht.unique _ hc.2 _ hde rfl rfl)
  refine Shaped.moveEntry h' hd.tree hsrc hnd' hv' hdot hdd hok fun hdir => ?_
  rw [hd.parent]
  exact hacyc (by rw [← hd.type src (by rw [hdir]; decide), hdir])

theorem Shaped.rename (od : ℕ) (old : Name) (hnd : n.Linked nd)
    (hdot : new ≠ dot) (hdd : new ≠ dotdot) (hspare : ∀ de, fs.dirfind nd new = some de →
    Spare fs de.target) :
    ∃ r fs', fs.opRename od old nd new = some (r, fs') ∧ Shaped fs' := by
  unfold Fs.opRename
  split
  · exact ⟨_, _, rfl, n, h, ht⟩
  next hnames =>
  split
  · exact ⟨_, _, rfl, n, h, ht⟩
  next hdiff =>
  split
  · exact ⟨_, _, rfl, n, h, ht⟩
  next de hfind =>
  have hok : nameOk new = true := by
    rw [not_or] at hnames
    simpa using hnames.2
  have he := h.dirfind_some hfind
  split
  · cases habove : fs.isAbove de.target TMPFS_NINODES (some nd) with
    | none => exact absurd habove (h.isAbove_ends ht hnd)
    | some b =>
      cases b with
      | true => exact ⟨_, _, rfl, n, h, ht⟩
      | false =>
        exact ⟨_, _, rfl, Shaped.renameOver h ht he hdiff hnd hdot hdd hok
          (fun _ => h.avoids ht hnd habove) hspare⟩
  next hfile =>
    rw [(h.inode de.target).type] at hfile
    exact ⟨_, _, rfl, Shaped.renameOver h ht he hdiff hnd hdot hdd hok
      (fun hd => absurd hd hfile) hspare⟩

theorem Shaped.close (hin : (fs.inodes i).inUse = true)
    (hc : (fs.inodes i).nlink = 0 → (fs.inodes i).refcnt = 1 → Childless fs i) :
    Shaped (fs.inodePut i) := by
  by_cases hlast : (fs.inodes i).nlink = 0 ∧ (fs.inodes i).refcnt = 1
  · obtain ⟨hz, hr⟩ := hlast
    have hi := (h.inode i).inUse.mp hin
    have hz' : n.nlink i = 0 := by rw [← (h.inode i).nlink hi, hz]
    have hdec : Shows (fs.modify i fun ti => { ti with refcnt := ti.refcnt - 1 }) n :=
      h.keep fun _ => ⟨rfl, rfl, rfl, rfl, rfl⟩
    refine ⟨n.free i, ?_, ht.free hi hz' (h.childless (hc hz hr))⟩
    unfold Fs.inodePut Fs.opRelease
    dsimp only
    rw [fs.modify_self, if_pos (by dsimp only; omega), if_pos ⟨hin, hz⟩]
    exact hdec.ifree (ht.no_entries_in fun hl => hl.2 hz')
  · exact ⟨n, h.inodePut (by omega), ht⟩

end

end Sbunix.Tmpfs
