import Sbunix.Tmpfs.Namespace

/-!
# The calls on names

`open`, `mkdir`, `link`, `symlink`, `unlink` and `rename` on tmpfs. Three things
can break the namespace: `rename` takes `.` and `..` as new names, which a lookup
never finds; a removed directory that is still open can get new entries; and a
directory is freed although it is still the parent of a removed one that is open.
In runs without these, every inode with links is found from the root, and the
link counts are right.
-/

namespace Sbunix.Tmpfs

open Lib List Option Finset

/-! ## The calls -/

/-- The calls on names. A directory is given by its inode, as the walk along the path has found it.
References that a call takes and drops again are left out. -/
inductive Call
  | open (td : ℕ) (name : Name) (creat : Bool)
  | close (i : ℕ)
  | mkdir (td : ℕ) (name : Name)
  | link (od : ℕ) (old : Name) (nd : ℕ) (new : Name)
  | symlink (td : ℕ) (name : Name) (target : List UInt8) (mem : Bool)
  | unlink (td : ℕ) (name : Name)
  | rename (od : ℕ) (old : Name) (nd : ℕ) (new : Name)

namespace Fs

/-- `do_open`: what is found is referenced; with `O_CREAT`, a file is created if nothing is. -/
def doOpen (fs : Fs) (td : ℕ) (name : Name) (creat : Bool) : Fs :=
  match fs.opLookup td name with
  | .ok i => fs.inodeGet i
  | .error e => if e = -ENOENT ∧ creat = true then (fs.opCreate td name).2 else fs

def doMkdir (fs : Fs) (td : ℕ) (name : Name) : Fs :=
  match fs.opLookup td name with
  | .ok _ => fs
  | .error _ => (fs.opMkdir td name).2

def doLink (fs : Fs) (od : ℕ) (old : Name) (nd : ℕ) (new : Name) : Fs :=
  match fs.opLookup od old with
  | .error _ => fs
  | .ok target =>
    if (fs.inodes target).type = .dir then fs
    else
      match fs.opLookup nd new with
      | .ok _ => fs
      | .error _ => (fs.opLink nd target new).2

def doSymlink (fs : Fs) (td : ℕ) (name : Name) (target : List UInt8) (mem : Bool) : Fs :=
  match fs.opLookup td name with
  | .ok _ => fs
  | .error _ => (fs.opSymlink td name target mem).2

def isDir (fs : Fs) (td : ℕ) : Bool := (fs.inodes td).inUse && (fs.inodes td).type = .dir

/-- One call; `none` if it cannot be made, or does not return. -/
def call (fs : Fs) : Call → Option Fs
  | .open td name creat => if fs.isDir td then some (fs.doOpen td name creat) else none
  | .close i =>
    if (fs.inodes i).inUse ∧ 0 < (fs.inodes i).refcnt then some (fs.inodePut i) else none
  | .mkdir td name => if fs.isDir td then some (fs.doMkdir td name) else none
  | .link od old nd new =>
    if fs.isDir od ∧ fs.isDir nd then some (fs.doLink od old nd new) else none
  | .symlink td name target mem =>
    if fs.isDir td then some (fs.doSymlink td name target mem) else none
  | .unlink td name => if fs.isDir td then some (fs.opUnlink td name).2 else none
  | .rename od old nd new =>
    if fs.isDir od ∧ fs.isDir nd then (fs.opRename od old nd new).map (·.2) else none

end Fs

/-- No new name is given in a removed directory, no new name is `.` or `..`, and no directory is
freed
while it is the parent of another one in use. -/
def Harmless (fs : Fs) : Call → Prop
  | .open td _ creat => creat = true → (fs.inodes td).nlink ≠ 0
  | .close i => (fs.inodes i).nlink = 0 → (fs.inodes i).refcnt = 1 → Childless fs i
  | .mkdir td _ => (fs.inodes td).nlink ≠ 0
  | .link _ _ nd _ => (fs.inodes nd).nlink ≠ 0
  | .symlink td _ _ _ => (fs.inodes td).nlink ≠ 0
  | .unlink td name => ∀ de, fs.dirfind td name = some de → Spare fs de.target
  | .rename _ _ nd new => new ≠ dot ∧ new ≠ dotdot ∧ (fs.inodes nd).nlink ≠ 0 ∧
    ∀ de, fs.dirfind nd new = some de → Spare fs de.target

/-- A call that changes nothing may be any one. -/
def Careful (fs : Fs) (c : Call) : Prop := fs.call c ≠ some fs → Harmless fs c

variable {fs fs' : Fs} {n : Names} {td i : ℕ} {name : Name}

theorem opLookup_error {e : ℤ} (hd : fs.isDir td = true) (he : fs.opLookup td name = .error e) :
    name ≠ dot ∧ name ≠ dotdot := by
  have htype : (fs.inodes td).type = .dir := by
    rw [Fs.isDir, Bool.and_eq_true] at hd
    exact of_decide_eq_true hd.2
  rw [Fs.opLookup, if_neg (not_not.mpr htype)] at he
  split at he
  · cases he
  split at he
  · cases he
  · next h1 h2 => exact ⟨h1, h2⟩

section

variable (h : Shows fs n)
include h

theorem Shows.opLookup (ht : n.Tree) (hd : n.type td = .dir) (hdot : name ≠ dot)
    (hdd : name ≠ dotdot) :
    fs.opLookup td name = .ok i ↔ ⟨td, name, i⟩ ∈ n.ents := by
  rw [Fs.opLookup, if_neg (by rw [(h.inode td).type, hd]; decide), if_neg hdot, if_neg hdd]
  constructor
  · intro he
    split at he
    · cases he
    split at he
    · cases he
    next de hfind =>
    cases he
    exact h.dirfind_some hfind
  · intro he
    rw [if_neg (by rw [(ht.plain _ he).2.2]; decide)]
    cases hfind : fs.dirfind td name with
    | none => exact absurd he (h.dirfind_none.mp hfind i)
    | some de =>
      exact congrArg _ (congrArg Entry.target (ht.unique _ (h.dirfind_some hfind) _ he rfl rfl))

theorem Shows.vacant (ht : n.Tree) {e : ℤ} (hd : fs.isDir td = true)
    (he : fs.opLookup td name = .error e) : n.Vacant td name := by
  obtain ⟨hdot, hdd⟩ := opLookup_error hd he
  have htype : n.type td = .dir := by
    rw [Fs.isDir, Bool.and_eq_true] at hd
    rw [← (h.inode td).type]
    exact of_decide_eq_true hd.2
  intro c hc
  rw [(h.opLookup ht htype hdot hdd).mpr hc] at he
  cases he

theorem Shows.type_of_isDir (hd : fs.isDir td = true) : n.type td = .dir := by
  rw [Fs.isDir, Bool.and_eq_true] at hd
  rw [← (h.inode td).type]
  exact of_decide_eq_true hd.2

theorem Shows.dotdot (ht : n.Tree) (hd : n.type td = .dir) :
    ∃ p, fs.opLookup td dotdot = .ok p ∧ n.type p = .dir := by
  have hp : fs.opLookup td Tmpfs.dotdot = .ok ((fs.inodes td).parent.getD td) := by
    rw [Fs.opLookup, if_neg (by rw [(h.inode td).type, hd]; decide), if_neg (by decide), if_pos rfl]
  rw [(h.inode td).parent (by rw [hd]; decide)] at hp
  by_cases h0 : td = 0
  · rw [h0, ht.rootParent] at hp
    exact ⟨0, h0 ▸ hp, ht.root⟩
  · obtain ⟨p, hpar, hpd⟩ := ht.parents td hd h0
    rw [hpar] at hp
    exact ⟨p, hp, hpd⟩

/-- What a lookup finds: the directory itself, its parent, or the target of an entry. -/
theorem Shows.found (ht : n.Tree) (hd : n.type td = .dir) (he : fs.opLookup td name = .ok i) :
    name = dot ∧ i = td ∨ name = Tmpfs.dotdot ∧ n.type i = .dir ∨
      name ≠ dot ∧ name ≠ Tmpfs.dotdot ∧ ⟨td, name, i⟩ ∈ n.ents := by
  by_cases hdot : name = dot
  · subst hdot
    rw [Fs.opLookup, if_neg (by rw [(h.inode td).type, hd]; decide), if_pos rfl] at he
    exact .inl ⟨rfl, (Except.ok.inj he).symm⟩
  by_cases hdd : name = Tmpfs.dotdot
  · subst hdd
    obtain ⟨p, hp, hpd⟩ := h.dotdot ht hd
    rw [hp] at he
    exact .inr (.inl ⟨rfl, Except.ok.inj he ▸ hpd⟩)
  · exact .inr (.inr ⟨hdot, hdd, (h.opLookup ht hd hdot hdd).mp he⟩)

theorem Shaped.doLink (ht : n.Tree) {od nd : ℕ} {old new : Name} (hod : fs.isDir od = true)
    (hnd : fs.isDir nd = true) (hl : (fs.inodes nd).nlink ≠ 0) :
    Shaped (fs.doLink od old nd new) := by
  unfold Fs.doLink
  split
  · exact ⟨n, h, ht⟩
  next target htarget =>
  split
  · exact ⟨n, h, ht⟩
  next hfile =>
  rw [(h.inode target).type] at hfile
  split
  · exact ⟨n, h, ht⟩
  next e hnew =>
  obtain ⟨hdot, hdd⟩ := opLookup_error hnd hnew
  have hodd := h.type_of_isDir hod
  have hlinked : n.Linked nd := h.linked (by rw [(h.inode nd).type, h.type_of_isDir hnd]) hl
  rcases h.found ht hodd htarget with ⟨-, rfl⟩ | ⟨-, hdir⟩ | ⟨-, -, hent⟩
  · exact absurd hodd hfile
  · exact absurd hdir hfile
  · exact Shaped.link h ht hlinked hdot hdd (h.vacant ht hnd hnew) (ht.target _ hent).1 hfile

end

theorem Shaped.call {c : Call} (hfs : Shaped fs) (hc : Careful fs c) (he : fs.call c = some fs') :
    Shaped fs' := by
  by_cases hsame : fs.call c = some fs
  · exact Option.some.inj (hsame.symm.trans he) ▸ hfs
  replace hc := hc hsame
  obtain ⟨n, h, ht⟩ := hfs
  have hlinked : ∀ {td}, fs.isDir td = true → (fs.inodes td).nlink ≠ 0 → n.Linked td := fun hd hl =>
    h.linked (by rw [(h.inode _).type, h.type_of_isDir hd]) hl
  cases c with
  | «open» td name creat =>
    obtain ⟨hd, rfl⟩ := ite_none_right_eq_some.mp he |>.imp_right Option.some.inj
    unfold Fs.doOpen
    split
    · exact ⟨n, h.keep fun _ => ⟨rfl, rfl, rfl, rfl, rfl⟩, ht⟩
    next hlook =>
    split
    next hcreat =>
      obtain ⟨hdot, hdd⟩ := opLookup_error hd hlook
      exact Shaped.create h ht (hlinked hd (hc hcreat.2)) hdot hdd
    · exact ⟨n, h, ht⟩
  | close i =>
    obtain ⟨hg, rfl⟩ := ite_none_right_eq_some.mp he |>.imp_right Option.some.inj
    exact Shaped.close h ht hg.1 hc
  | mkdir td name =>
    obtain ⟨hd, rfl⟩ := ite_none_right_eq_some.mp he |>.imp_right Option.some.inj
    unfold Fs.doMkdir
    split
    · exact ⟨n, h, ht⟩
    next hlook =>
    obtain ⟨hdot, hdd⟩ := opLookup_error hd hlook
    exact Shaped.mkdir h ht (hlinked hd hc) hdot hdd
  | link od old nd new =>
    obtain ⟨hd, rfl⟩ := ite_none_right_eq_some.mp he |>.imp_right Option.some.inj
    exact Shaped.doLink h ht hd.1 hd.2 hc
  | symlink td name target mem =>
    obtain ⟨hd, rfl⟩ := ite_none_right_eq_some.mp he |>.imp_right Option.some.inj
    unfold Fs.doSymlink
    split
    · exact ⟨n, h, ht⟩
    next hlook =>
    obtain ⟨hdot, hdd⟩ := opLookup_error hd hlook
    exact Shaped.symlink h ht (hlinked hd hc) hdot hdd target mem
  | unlink td name =>
    obtain ⟨hd, rfl⟩ := ite_none_right_eq_some.mp he |>.imp_right Option.some.inj
    exact Shaped.unlink h ht hc
  | rename od old nd new =>
    obtain ⟨hd, he⟩ := ite_none_right_eq_some.mp he
    obtain ⟨hdot, hdd, hl, hspare⟩ := hc
    obtain ⟨r, fs1, hren, hshaped⟩ := Shaped.rename h ht od old (hlinked hd.2 hl) hdot hdd hspare
    rw [hren] at he
    obtain rfl : fs1 = fs' := Option.some.inj he
    exact hshaped

/-! ## What holds in every state -/

inductive Fs.Found (fs : Fs) : ℕ → Prop
  | root : fs.Found 0
  | lookup {d i : ℕ} {name : Name} : fs.Found d → fs.opLookup d name = .ok i → fs.Found i

structure WellNamed (fs : Fs) : Prop where
  /-- an inode with links is found -/
  found : ∀ i, (fs.inodes i).inUse = true → (fs.inodes i).nlink ≠ 0 → fs.Found i
  /-- the links of a file are the names it is found by -/
  files : ∀ i, (fs.inodes i).inUse = true → (fs.inodes i).type ≠ .dir → ∃ S : Finset (ℕ × Name),
    (∀ q, q ∈ S ↔ fs.Found q.1 ∧ fs.opLookup q.1 q.2 = .ok i) ∧ (fs.inodes i).nlink = S.card
  /-- a directory that is found has two links and one for each subdirectory -/
  dirs : ∀ i, fs.Found i → (fs.inodes i).type = .dir → ∃ S : Finset Name,
    (∀ name, name ∈ S ↔ name ≠ dot ∧ name ≠ dotdot ∧
      ∃ c, fs.opLookup i name = .ok c ∧ (fs.inodes c).type = .dir) ∧
      (fs.inodes i).nlink = 2 + S.card
  /-- a directory that is not found has no links, and nothing is found in it -/
  removed : ∀ i, (fs.inodes i).inUse = true → (fs.inodes i).type = .dir → ¬ fs.Found i →
    (fs.inodes i).nlink = 0 ∧ ∀ name c, fs.opLookup i name = .ok c → name = dot ∨ name = dotdot
  /-- `..` is a directory in use, also of a removed directory that is open -/
  dotdot : ∀ i, (fs.inodes i).inUse = true → (fs.inodes i).type = .dir →
    ∃ p, fs.opLookup i Tmpfs.dotdot = .ok p ∧ (fs.inodes p).inUse = true ∧ (fs.inodes p).type = .dir

theorem Shows.found_linked (h : Shows fs n) (ht : n.Tree) (hi : n.Linked i) : fs.Found i := by
  have hacc := ht.ends i hi
  induction hacc with
  | intro i _ ih =>
    by_cases h0 : i = 0
    · exact h0 ▸ .root
    · obtain ⟨e, he, rfl, hpar, hdir⟩ := ht.entered hi h0
      have hpl := ht.plain e he
      exact .lookup (ih e.dir hpar hdir) ((h.opLookup ht hdir.1 hpl.1 hpl.2.1).mpr he)

theorem Shows.found_entry (h : Shows fs n) (ht : n.Tree) {e : Entry} (he : e ∈ n.ents) :
    fs.Found e.dir ∧ fs.opLookup e.dir e.name = .ok e.target := by
  have hpl := ht.plain e he
  have hdir := ht.holder e he
  exact ⟨h.found_linked ht hdir, (h.opLookup ht hdir.1 hpl.1 hpl.2.1).mpr he⟩

/-- Only directories with links are found. -/
theorem Shows.linked_found (h : Shows fs n) (ht : n.Tree) (hi : fs.Found i) (hd : n.type i = .dir) :
    n.Linked i := by
  induction hi with
  | root => exact ht.linked_root
  | @lookup d i name _ hlook ih =>
    have hdd : n.type d = .dir := by
      by_contra hdd
      rw [Fs.opLookup, if_pos (by rw [(h.inode d).type]; exact hdd)] at hlook
      cases hlook
    have hdl := ih hdd
    rcases h.found ht hdd hlook with ⟨-, rfl⟩ | ⟨rfl, -⟩ | ⟨-, -, he⟩
    · exact hdl
    · by_cases h0 : d = 0
      · subst h0
        rw [Fs.opLookup, if_neg (by rw [(h.inode 0).type, hdd]; decide),
          if_neg (by decide), if_pos rfl,
          (h.inode 0).parent (by rw [hdd]; decide), ht.rootParent] at hlook
        exact Except.ok.inj hlook ▸ hdl
      · obtain ⟨e, -, -, hpar, hl⟩ := ht.entered hdl h0
        rw [Fs.opLookup, if_neg (by rw [(h.inode d).type, hdd]; decide),
          if_neg (by decide), if_pos rfl,
          (h.inode d).parent (by rw [hdd]; decide), hpar] at hlook
        exact Except.ok.inj hlook ▸ hl
    · refine ⟨hd, fun hzero => ?_⟩
      rcases ht.dirs i hd (ht.target _ he).2 with hc | hc
      · have hrefs : 0 < n.refs i := count_pos.mpr ⟨_, he, rfl⟩
        exact absurd hc.2 hrefs.ne'
      · omega

theorem Shows.wellNamed (h : Shows fs n) (ht : n.Tree) : WellNamed fs := by
  refine ⟨fun i hin hl => ?_, fun i hin hf => ?_, fun i hfound hd => ?_, fun i hin hd hlost => ?_,
    fun i hin hd => ?_⟩
  · have hi := (h.inode i).inUse.mp hin
    rw [(h.inode i).nlink hi] at hl
    by_cases hd : n.type i = .dir
    · exact h.found_linked ht ⟨hd, hl⟩
    · rw [ht.files i hi hd] at hl
      obtain ⟨e, he, rfl⟩ := count_pos.mp (Nat.pos_of_ne_zero hl)
      obtain ⟨hfound, hlook⟩ := h.found_entry ht he
      exact .lookup hfound hlook
  · have hi := (h.inode i).inUse.mp hin
    rw [(h.inode i).type] at hf
    rw [(h.inode i).nlink hi, ht.files i hi hf]
    refine ⟨(n.ents.filter (·.target = i)).image fun e => (e.dir, e.name), fun q => ?_, ?_⟩
    · obtain ⟨p, name⟩ := q
      simp only [mem_image, Finset.mem_filter, Prod.mk.injEq]
      constructor
      · rintro ⟨e, ⟨he, rfl⟩, rfl, rfl⟩
        exact h.found_entry ht he
      · rintro ⟨-, hlook⟩
        have hpd : n.type p = .dir := by
          by_contra hpd
          rw [Fs.opLookup, if_pos (by rw [(h.inode p).type]; exact hpd)] at hlook
          cases hlook
        rcases h.found ht hpd hlook with ⟨-, rfl⟩ | ⟨-, hid⟩ | ⟨-, -, he⟩
        · exact absurd hpd hf
        · exact absurd hid hf
        · exact ⟨_, ⟨he, rfl⟩, rfl, rfl⟩
    · rw [card_image_of_injOn]
      · rfl
      · intro e he e' he' heq
        have he1 := (Finset.mem_filter.mp he).1
        have he2 := (Finset.mem_filter.mp he').1
        exact ht.unique e he1 e' he2 (congrArg Prod.fst heq) (congrArg Prod.snd heq)
  · rw [(h.inode i).type] at hd
    have hlinked := h.linked_found ht hfound hd
    rw [(h.inode i).nlink (by rw [hd]; decide), ht.nlink_linked hlinked]
    refine ⟨(n.ents.filter fun e => e.dir = i ∧ n.type e.target = .dir).image Entry.name,
      fun name => ?_, ?_⟩
    · simp only [mem_image, Finset.mem_filter]
      constructor
      · rintro ⟨e, ⟨he, rfl, hed⟩, rfl⟩
        have hpl := ht.plain e he
        exact ⟨hpl.1, hpl.2.1, e.target, (h.found_entry ht he).2, by
          rw [(h.inode e.target).type, hed]⟩
      · rintro ⟨hdot, hdd, c, hlook, hcd⟩
        rw [(h.inode c).type] at hcd
        exact ⟨_, ⟨(h.opLookup ht hlinked.1 hdot hdd).mp hlook, rfl, hcd⟩, rfl⟩
    · rw [card_image_of_injOn]
      · rfl
      · intro e he e' he' heq
        obtain ⟨he1, hd1, -⟩ := Finset.mem_filter.mp he
        obtain ⟨he2, hd2, -⟩ := Finset.mem_filter.mp he'
        exact ht.unique e he1 e' he2 (hd1.trans hd2.symm) heq
  · rw [(h.inode i).type] at hd
    have hunlinked : ¬ n.Linked i := fun hl => hlost (h.found_linked ht hl)
    refine ⟨?_, fun name c hlook => ?_⟩
    · rw [(h.inode i).nlink (by rw [hd]; decide)]
      exact by_contra fun hne => hunlinked ⟨hd, hne⟩
    · rcases h.found ht hd hlook with ⟨hdot, -⟩ | ⟨hdd, -⟩ | ⟨-, -, he⟩
      · exact .inl hdot
      · exact .inr hdd
      · exact absurd (ht.holder _ he) hunlinked
  · rw [(h.inode i).type] at hd
    obtain ⟨p, hlook, hpd⟩ := h.dotdot ht hd
    exact ⟨p, hlook, (h.inode p).inUse.mpr (by rw [hpd]; decide), by rw [(h.inode p).type, hpd]⟩

/-- Only the root, without entries. -/
def Names.init : Names where
  type i := if i = 0 then .dir else .none
  nlink i := if i = 0 then 2 else 0
  parent _ := none
  ents := ∅

theorem shaped_init : Shaped Fs.init := by
  have hone : ∀ {i}, Names.init.type i ≠ .none → i = 0 := by
    intro i hi
    by_contra h0
    exact hi (if_neg h0)
  have hdir : ∀ {i}, Names.init.type i = .dir → i = 0 := fun hi => hone (by rw [hi]; decide)
  refine ⟨Names.init, ⟨fun i => ?_, fun i hi => ?_, Nat.zero_le _⟩, ?_⟩
  · by_cases h0 : i = 0
    · subst h0
      exact ⟨rfl, iff_of_true rfl (by decide), fun _ => rfl, fun _ => rfl,
        fun _ => iff_of_false not_mem_nil
        (notMem_empty _), nodup_nil⟩
    · have hfree : Fs.init.inodes i = ⟨false, .none, 0, 0, 0, fun _ => none, [], none⟩ := if_neg h0
      have hnone : Names.init.type i = .none := if_neg h0
      rw [hfree]
      exact ⟨hnone.symm, iff_of_false Bool.false_ne_true fun hi => hi hnone,
        fun hi => absurd hnone hi,
        fun hi => absurd hnone hi, fun _ => iff_of_false not_mem_nil (notMem_empty _), nodup_nil⟩
  · rw [hone hi]
    decide
  · exact ⟨rfl, rfl, rfl, fun _ he => absurd he (notMem_empty _),
      fun _ he => absurd he (notMem_empty _),
      fun _ he => absurd he (notMem_empty _), fun _ he => absurd he (notMem_empty _),
      fun _ he => absurd he (notMem_empty _), fun i hi hd => absurd (hone hi ▸ rfl) hd,
      fun i hd h0 => absurd (hdir hd) h0, fun i hd h0 => absurd (hdir hd) h0,
      fun i _ => ⟨_, fun p hp => nomatch hp⟩⟩

/-- In every run of careful calls from the empty filesystem, every state is well named. -/
theorem names_agree {fs : Fs}
    (h : Reaches (fun fs c fs' => fs.call c = some fs') Careful Fs.init fs) : WellNamed fs := by
  obtain ⟨n, hn, ht⟩ := h.invariant (I := Shaped) shaped_init fun _ _ _ hs hc he => hs.call hc he
  exact hn.wellNamed ht

/-- `a/b` is created and linked to `c`, which is renamed to `a/d`; `a` is opened. -/
def filled : Fs :=
  let fs := ((Fs.init.doMkdir 0 [97]).doOpen 1 [98] true).doLink 1 [98] 0 [99]
  (fs.opRename 0 [99] 1 [100]).elim fs fun r => r.2.doOpen 0 [97] false

/-- Both names of the file and then `a` are unlinked, while the file and `a` are open. -/
def emptied : Fs := (((filled.opUnlink 1 [98]).2.opUnlink 1 [100]).2.opUnlink 0 [97]).2

theorem names_agree_emptied : WellNamed filled ∧ WellNamed emptied ∧
    (filled.inodes 0).nlink = 3 ∧ (filled.inodes 1).nlink = 2 ∧ (filled.inodes 2).nlink = 2 ∧
    (emptied.inodes 1).inUse = true ∧ (emptied.inodes 1).nlink = 0 := by
  have hfilled : Reaches (fun fs c fs' => fs.call c = some fs') Careful Fs.init filled := by
    refine .tail (a := .open 0 [97] false) (.tail (a := .rename 0 [99] 1 [100])
      (.tail (a := .link 1 [98] 0 [99]) (.tail (a := .open 1 [98] true)
        (.single (a := .mkdir 0 [97]) ?_ rfl) ?_ rfl) ?_ rfl) ?_ rfl) ?_ rfl
    all_goals intro _
    · exact show (Fs.init.inodes 0).nlink ≠ 0 by decide
    · exact fun _ => show ((Fs.init.doMkdir 0 [97]).inodes 1).nlink ≠ 0 by decide +kernel
    · exact show (((Fs.init.doMkdir 0 [97]).doOpen 1 [98] true).inodes 0).nlink ≠ 0 by
        decide +kernel
    · refine ⟨by decide, by decide, by decide +kernel, fun de hde => ?_⟩
      exact absurd (hde.symm.trans (by decide +kernel : _ = none)) (by simp)
    · exact fun h => absurd h (by decide)
  have hemptied : Reaches (fun fs c fs' => fs.call c = some fs') Careful filled emptied := by
    refine .tail (a := .unlink 0 [97]) (.tail (a := .unlink 1 [100])
      (.single (a := .unlink 1 [98]) ?_ rfl) ?_ rfl) ?_ rfl
    all_goals intro _ de hde
    · obtain rfl : (⟨2, [98]⟩ : Dirent) = de :=
        Option.some.inj ((by decide +kernel : some _ = _).trans hde)
      exact fun hd => absurd hd (by decide +kernel)
    · obtain rfl : (⟨2, [100]⟩ : Dirent) = de :=
        Option.some.inj ((by decide +kernel : some _ = _).trans hde)
      exact fun hd => absurd hd (by decide +kernel)
    · obtain rfl : (⟨1, [97]⟩ : Dirent) = de :=
        Option.some.inj ((by decide +kernel : some _ = _).trans hde)
      exact fun _ href => absurd href (by decide +kernel)
  refine ⟨names_agree hfilled, names_agree (hfilled.trans hemptied), ?_⟩
  decide +kernel

/-- File `a` is created and renamed to `.`. -/
def renamedToDot : Fs :=
  ((Fs.init.doOpen 0 [97] true).opRename 0 [97] 0 dot).elim Fs.init (·.2)

/-- The file has a link, and is not found any more. -/
theorem renamed_to_dot_lost :
    Reaches (fun fs c fs' => fs.call c = some fs') (fun _ _ => True) Fs.init renamedToDot ∧
      (renamedToDot.inodes 1).inUse = true ∧ (renamedToDot.inodes 1).nlink = 1 ∧
        ¬ renamedToDot.Found 1 := by
  have hcreate : Fs.init.call (.open 0 [97] true) = some (Fs.init.doOpen 0 [97] true) := rfl
  have hrename : (Fs.init.doOpen 0 [97] true).call (.rename 0 [97] 0 dot) = some renamedToDot := rfl
  have hdirents : (renamedToDot.inodes 0).dirents = [⟨1, dot⟩] := by decide +kernel
  have hroot : (renamedToDot.inodes 0).type = .dir ∧ (renamedToDot.inodes 0).parent = none := by
    decide +kernel
  have hlookup : ∀ {name i}, renamedToDot.opLookup 0 name = .ok i → i = 0 := by
    intro name i he
    rw [Fs.opLookup, if_neg (not_not.mpr hroot.1), hroot.2, Fs.dirfind, hdirents] at he
    split at he
    · exact (Except.ok.inj he).symm
    next hdot =>
    split at he
    · exact (Except.ok.inj he).symm
    · simp only [find?_cons, decide_eq_false (Ne.symm hdot), find?_nil] at he
      split at he <;> cases he
  refine ⟨.tail (.single trivial hcreate) trivial hrename, by decide +kernel, by decide +kernel,
    fun hfound => ?_⟩
  have hzero : ∀ {i}, renamedToDot.Found i → i = 0 := by
    intro i hi
    induction hi with
    | root => rfl
    | lookup _ hl ih => exact hlookup (ih ▸ hl)
  exact absurd (hzero hfound) (by decide)

end Sbunix.Tmpfs
