import Sbunix.Lib.Ancestors
import Sbunix.Lib.Count
import Sbunix.Tmpfs.Model

/-!
# A tree of names

What tmpfs is for, without its lists: inodes with types and link counts, a set
of entries, and a parent for every directory. `Tree` says that the directories
with links form a tree below the root and that the link counts are right; the
operations on names keep it.
-/

namespace Sbunix.Tmpfs

open Lib Finset Function

structure Entry where
  dir : ℕ
  name : Name
  target : ℕ
  deriving DecidableEq

structure Names where
  type : ℕ → IType
  nlink : ℕ → ℕ
  parent : ℕ → Option ℕ
  ents : Finset Entry

/-- A name `tmpfs_op_lookup` looks for among the entries. -/
def Plain (name : Name) : Prop := name ≠ dot ∧ name ≠ dotdot ∧ nameOk name = true

variable {P : Entry → Prop}

namespace Names

variable {n : Names} {td nd ni i p c : ℕ} {name new : Name} {t : IType} {e : Entry}

def refs (n : Names) (i : ℕ) : ℕ := count n.ents (·.target = i)

def subdirs (n : Names) (p : ℕ) : ℕ := count n.ents fun e => e.dir = p ∧ n.type e.target = .dir

def Linked (n : Names) (i : ℕ) : Prop := n.type i = .dir ∧ n.nlink i ≠ 0

def Vacant (n : Names) (p : ℕ) (name : Name) : Prop := ∀ c, ⟨p, name, c⟩ ∉ n.ents

structure Tree (n : Names) : Prop where
  root : n.type 0 = .dir
  rootParent : n.parent 0 = none
  rootNlink : n.nlink 0 = 2 + n.subdirs 0
  holder : ∀ e ∈ n.ents, n.Linked e.dir
  target : ∀ e ∈ n.ents, n.type e.target ≠ .none ∧ e.target ≠ 0
  plain : ∀ e ∈ n.ents, Plain e.name
  unique : ∀ e ∈ n.ents, ∀ e' ∈ n.ents, e.dir = e'.dir → e.name = e'.name → e = e'
  up : ∀ e ∈ n.ents, n.type e.target = .dir → n.parent e.target = some e.dir
  files : ∀ i, n.type i ≠ .none → n.type i ≠ .dir → n.nlink i = n.refs i
  dirs : ∀ i, n.type i = .dir → i ≠ 0 →
    n.nlink i = 0 ∧ n.refs i = 0 ∨ n.nlink i = 2 + n.subdirs i ∧ n.refs i = 1
  parents : ∀ i, n.type i = .dir → i ≠ 0 → ∃ p, n.parent i = some p ∧ n.type p = .dir
  ends : ∀ i, n.Linked i → Acc (Above n.parent) i

section

variable (h : Tree n)
include h

theorem Tree.linked_root : n.Linked 0 := ⟨h.root, by rw [h.rootNlink]; omega⟩

theorem Tree.nlink_linked (hi : n.Linked i) : n.nlink i = 2 + n.subdirs i := by
  by_cases h0 : i = 0
  · rw [h0, h.rootNlink]
  · rcases h.dirs i hi.1 h0 with hd | hd
    · exact absurd hd.1 hi.2
    · exact hd.1

/-- A directory below the root that has links is entered in its parent, which has links. -/
theorem Tree.entered (hi : n.Linked i) (h0 : i ≠ 0) :
    ∃ e ∈ n.ents, e.target = i ∧ n.parent i = some e.dir ∧ n.Linked e.dir := by
  have hrefs : 0 < n.refs i := by
    rcases h.dirs i hi.1 h0 with hd | hd
    · exact absurd hd.1 hi.2
    · omega
  obtain ⟨e, he, rfl⟩ := count_pos.mp hrefs
  exact ⟨e, he, rfl, h.up e he hi.1, h.holder e he⟩

theorem Tree.entry_unique {e' : Entry} (he : e ∈ n.ents) (he' : e' ∈ n.ents)
    (hd : n.type e.target = .dir) (ht : e'.target = e.target) : e' = e := by
  refine count_le_one (U := n.ents) (P := (·.target = e.target)) ?_ he' he ht rfl
  change n.refs e.target ≤ 1
  rcases h.dirs _ hd (h.target e he).2 with hd | hd <;> omega

theorem Tree.avoids (hi : n.Linked i) (hc : ¬ n.Linked c) : Avoids n.parent c (some i) := by
  have hacc := h.ends i hi
  induction hacc with
  | intro i _ ih =>
    refine .up (fun hic => hc (hic ▸ hi)) ?_
    by_cases h0 : i = 0
    · rw [h0, h.rootParent]
      exact .top
    · obtain ⟨e, -, -, hpar, hdir⟩ := h.entered hi h0
      rw [hpar]
      exact ih e.dir hpar hdir

theorem Tree.no_entries_in (hi : ¬ n.Linked i) : ∀ e ∈ n.ents, e.dir ≠ i :=
  fun e he hd => hi (hd ▸ h.holder e he)

theorem Tree.nlink_le (hi : n.type i ≠ .none) : n.nlink i ≤ 2 + n.ents.card := by
  by_cases hd : n.type i = .dir
  · by_cases hl : n.nlink i = 0
    · omega
    · rw [h.nlink_linked ⟨hd, hl⟩]
      exact Nat.add_le_add_left count_le_card 2
  · rw [h.files i hi hd]
    exact count_le_card.trans (Nat.le_add_left _ _)

end

theorem unique_insert (h : ∀ e ∈ n.ents, ∀ e' ∈ n.ents, e.dir = e'.dir → e.name = e'.name → e = e')
    (hv : n.Vacant td name) : ∀ e ∈ insert ⟨td, name, c⟩ n.ents, ∀ e' ∈ insert ⟨td, name, c⟩ n.ents,
      e.dir = e'.dir → e.name = e'.name → e = e' := by
  have hnew : ∀ e ∈ n.ents, ¬ (e.dir = td ∧ e.name = name) := by
    rintro ⟨d, m, c⟩ he ⟨rfl, rfl⟩
    exact hv c he
  intro e he e' he' hd hn
  rcases mem_insert.mp he with rfl | he <;> rcases mem_insert.mp he' with rfl | he'
  · rfl
  · exact absurd ⟨hd.symm, hn.symm⟩ (hnew e' he')
  · exact absurd ⟨hd, hn⟩ (hnew e he)
  · exact h e he e' he' hd hn

/-! ## Entering a new inode -/

/-- Inode `ni` becomes a file or a directory of type `t`, entered in `td`. -/
def add (n : Names) (td : ℕ) (name : Name) (ni : ℕ) (t : IType) : Names where
  type := update n.type ni t
  nlink i := if i = ni then (if t = .dir then 2 else 1) else n.nlink i + ind (i = td ∧ t = .dir)
  parent := update n.parent ni (if t = .dir then some td else none)
  ents := insert ⟨td, name, ni⟩ n.ents

section

@[simp] theorem add_type_self : (n.add td name ni t).type ni = t := update_self ..

theorem add_type_ne (hi : i ≠ ni) : (n.add td name ni t).type i = n.type i := update_of_ne hi ..

@[simp] theorem add_nlink_self :
    (n.add td name ni t).nlink ni = if t = .dir then 2 else 1 := if_pos rfl

theorem add_nlink_ne (hi : i ≠ ni) :
    (n.add td name ni t).nlink i = n.nlink i + ind (td = i ∧ t = .dir) := by
  rw [ind_congr (q := i = td ∧ t = .dir) (by rw [eq_comm])]
  exact if_neg hi

theorem add_nlink_file (ht : t ≠ .dir) : (n.add td name ni t).nlink i = update n.nlink ni 1 i := by
  by_cases hi : i = ni
  · subst hi
    rw [add_nlink_self, if_neg ht, update_self]
  · rw [add_nlink_ne hi, ind_of_false fun hc => ht hc.2, Nat.add_zero, update_of_ne hi]

theorem add_nlink_dir (hne : td ≠ ni) :
    (n.add td name ni .dir).nlink i = update n.nlink ni 2 i + ind (td = i) := by
  by_cases hi : i = ni
  · subst hi
    rw [add_nlink_self, if_pos rfl, update_self, ind_of_false hne]
  · rw [add_nlink_ne hi, update_of_ne hi]
    congr 1
    exact ind_congr (by simp)

@[simp] theorem add_parent_self :
    (n.add td name ni t).parent ni = if t = .dir then some td else none :=
  update_self ..

theorem add_parent_ne (hi : i ≠ ni) : (n.add td name ni t).parent i = n.parent i :=
    update_of_ne hi ..

theorem mem_add : e ∈ (n.add td name ni t).ents ↔ e = ⟨td, name, ni⟩ ∨ e ∈ n.ents := mem_insert

theorem add_refs (hv : n.Vacant td name) (i : ℕ) :
    (n.add td name ni t).refs i = n.refs i + ind (ni = i) :=
  count_insert (hv ni)

variable (h : Tree n) (hni : n.type ni = .none) (htd : n.Linked td)

section

include h hni

theorem Tree.target_ne : ∀ e ∈ n.ents, e.target ≠ ni := fun e he ht => (h.target e he).1 (ht ▸ hni)

theorem Tree.root_ne : ni ≠ 0 := by
  rintro rfl
  rw [h.root] at hni
  cases hni

theorem add_subdirs (hv : n.Vacant td name) (p : ℕ) :
    (n.add td name ni t).subdirs p = n.subdirs p + ind (td = p ∧ t = .dir) := by
  have hold : count n.ents (fun e => e.dir = p ∧ (n.add td name ni t).type e.target = .dir) =
      n.subdirs p :=
    count_congr fun e he => by rw [add_type_ne (h.target_ne hni e he)]
  refine (count_insert (hv ni)).trans ?_
  rw [hold]
  congr 1
  exact ind_congr (by rw [add_type_self])

end

theorem not_linked_of_none (hni : n.type ni = .none) : ¬ n.Linked ni := fun hl => by
  rw [hl.1] at hni
  cases hni

include htd

theorem add_linked (hi : i ≠ ni) : (n.add td name ni t).Linked i ↔ n.Linked i := by
  unfold Linked
  rw [add_type_ne hi, add_nlink_ne hi]
  by_cases hitd : td = i
  · subst hitd
    exact iff_of_true ⟨htd.1, by have := htd.2; omega⟩ htd
  · rw [ind_of_false fun hc => hitd hc.1, Nat.add_zero]

include h hni

theorem add_files (hv : n.Vacant td name) (hi : (n.add td name ni t).type i ≠ .none)
    (hd : (n.add td name ni t).type i ≠ .dir) :
    (n.add td name ni t).nlink i = (n.add td name ni t).refs i := by
  rw [add_refs hv]
  by_cases hini : i = ni
  · subst hini
    rw [add_type_self] at hd
    have hzero : n.refs i = 0 := count_eq_zero.mpr (h.target_ne hni)
    rw [add_nlink_self, if_neg hd, hzero, ind_of_true rfl]
  · rw [add_type_ne hini] at hi hd
    have htd' : td ≠ i := by
      rintro rfl
      exact hd htd.1
    rw [add_nlink_ne hini, h.files i hi hd, ind_of_false fun hc => htd' hc.1,
      ind_of_false (Ne.symm hini)]

theorem add_dirs (hv : n.Vacant td name) (hd : (n.add td name ni t).type i = .dir) (h0 : i ≠ 0) :
    (n.add td name ni t).nlink i = 0 ∧ (n.add td name ni t).refs i = 0 ∨
      (n.add td name ni t).nlink i = 2 + (n.add td name ni t).subdirs i ∧
        (n.add td name ni t).refs i = 1 := by
  have hnl := not_linked_of_none hni
  rw [add_refs hv, add_subdirs h hni hv]
  by_cases hini : i = ni
  · subst hini
    rw [add_type_self] at hd
    have hzero : n.refs i = 0 := count_eq_zero.mpr (h.target_ne hni)
    have hnone : n.subdirs i = 0 := count_eq_zero.mpr fun e he hc => h.no_entries_in hnl e he hc.1
    have hne : td ≠ i := fun he => hnl (he ▸ htd)
    refine .inr ⟨?_, by rw [hzero, ind_of_true rfl]⟩
    rw [add_nlink_self, if_pos hd, hnone, ind_of_false fun hc => hne hc.1]
  · rw [add_type_ne hini] at hd
    rw [add_nlink_ne hini, ind_of_false (Ne.symm hini), Nat.add_zero]
    by_cases htd' : td = i
    · subst htd'
      have := h.dirs td hd h0
      have := htd.2
      exact .inr (by omega)
    · rw [ind_of_false fun hc => htd' hc.1]
      exact h.dirs i hd h0

theorem add_parents (hd : (n.add td name ni t).type i = .dir) (h0 : i ≠ 0) :
    ∃ p, (n.add td name ni t).parent i = some p ∧ (n.add td name ni t).type p = .dir := by
  have hne : ∀ {p}, n.type p = .dir → p ≠ ni := by
    rintro p hp rfl
    rw [hni] at hp
    cases hp
  by_cases hini : i = ni
  · subst hini
    rw [add_type_self] at hd
    exact ⟨td, by rw [add_parent_self, if_pos hd], by rw [add_type_ne (hne htd.1), htd.1]⟩
  · rw [add_type_ne hini] at hd
    obtain ⟨p, hp, hpd⟩ := h.parents i hd h0
    exact ⟨p, by rw [add_parent_ne hini, hp], by rw [add_type_ne (hne hpd), hpd]⟩

theorem add_ends (hi : (n.add td name ni t).Linked i) :
    Acc (Above (n.add td name ni t).parent) i := by
  have hnl := not_linked_of_none hni
  by_cases hini : i = ni
  · subst hini
    refine ⟨_, fun q hq => ?_⟩
    rw [Above, add_parent_self] at hq
    split at hq
    · exact Option.some.inj hq ▸ (h.avoids htd hnl).acc _ td rfl
    · cases hq
  · exact (h.avoids ((add_linked htd hini).mp hi) hnl).acc _ i rfl

theorem Tree.add (hpl : Plain name) (hv : n.Vacant td name) (ht : t ≠ .none) :
    Tree (n.add td name ni t) := by
  have h0 := (h.root_ne hni).symm
  have hnl := not_linked_of_none hni
  have hlinked : ∀ {j}, n.Linked j → (n.add td name ni t).Linked j := by
    intro j hj
    refine (add_linked htd ?_).mpr hj
    rintro rfl
    exact hnl hj
  refine ⟨by rw [add_type_ne h0, h.root], by rw [add_parent_ne h0, h.rootParent], ?_, ?_,
    ?_, ?_, ?_, ?_,
    fun i => add_files h hni htd hv, fun i => add_dirs h hni htd hv, fun i => add_parents h hni htd,
    fun i => add_ends h hni htd⟩
  · rw [add_nlink_ne h0, add_subdirs h hni hv, h.rootNlink, Nat.add_assoc]
  · intro e he
    rcases mem_add.mp he with rfl | he
    · exact hlinked htd
    · exact hlinked (h.holder e he)
  · intro e he
    rcases mem_add.mp he with rfl | he
    · exact ⟨by rw [add_type_self]; exact ht, h0.symm⟩
    · rw [add_type_ne (h.target_ne hni e he)]
      exact h.target e he
  · intro e he
    rcases mem_add.mp he with rfl | he
    · exact hpl
    · exact h.plain e he
  · exact unique_insert h.unique hv
  · intro e he hd
    rcases mem_add.mp he with rfl | he
    · rw [add_type_self] at hd
      rw [add_parent_self, if_pos hd]
    · rw [add_type_ne (h.target_ne hni e he)] at hd
      rw [add_parent_ne (h.target_ne hni e he)]
      exact h.up e he hd

end

/-! ## Another name for a file -/

def link (n : Names) (td : ℕ) (name : Name) (c : ℕ) : Names where
  type := n.type
  nlink i := n.nlink i + ind (c = i)
  parent := n.parent
  ents := insert ⟨td, name, c⟩ n.ents

theorem link_refs (hv : n.Vacant td name) (i : ℕ) :
    (n.link td name c).refs i = n.refs i + ind (c = i) :=
  count_insert (hv c)

theorem link_subdirs (hv : n.Vacant td name) (hc : n.type c ≠ .dir) (p : ℕ) :
    (n.link td name c).subdirs p = n.subdirs p := by
  refine (count_insert (hv c)).trans ?_
  rw [ind_of_false fun he => hc he.2]
  rfl

theorem link_nlink_dir (hc : n.type c ≠ .dir) (hi : n.type i = .dir) :
    (n.link td name c).nlink i = n.nlink i := by
  have hne : c ≠ i := by
    rintro rfl
    exact hc hi
  change n.nlink i + ind (c = i) = _
  rw [ind_of_false hne, Nat.add_zero]

theorem link_linked (hc : n.type c ≠ .dir) : (n.link td name c).Linked i ↔ n.Linked i :=
  and_congr_right fun hi => by rw [link_nlink_dir hc hi]

theorem Tree.link (h : Tree n) (htd : n.Linked td) (hpl : Plain name) (hv : n.Vacant td name)
    (hc : n.type c ≠ .dir) (hc0 : n.type c ≠ .none) : Tree (n.link td name c) := by
  have hmem : ∀ {P : Entry → Prop}, P ⟨td, name, c⟩ → (∀ e ∈ n.ents, P e) →
      ∀ e ∈ (n.link td name c).ents, P e :=
    fun hnew hold => forall_mem_insert .. |>.mpr ⟨hnew, hold⟩
  refine ⟨h.root, h.rootParent, ?_, ?_, ?_, hmem hpl h.plain, unique_insert h.unique hv, ?_, ?_, ?_,
    h.parents, ?_⟩
  · rw [link_nlink_dir hc h.root, link_subdirs hv hc, h.rootNlink]
  · exact hmem ((link_linked hc).mpr htd) fun e he => (link_linked hc).mpr (h.holder e he)
  · refine hmem ⟨hc0, ?_⟩ h.target
    rintro rfl
    exact hc h.root
  · exact hmem (fun hd => absurd hd hc) h.up
  · intro i hi hd
    rw [link_refs hv, ← h.files i hi hd]
    rfl
  · intro i hd h0
    have hci : c ≠ i := by
      rintro rfl
      exact hc hd
    rw [link_refs hv, link_subdirs hv hc, link_nlink_dir hc hd, ind_of_false hci]
    exact h.dirs i hd h0
  · exact fun i hi => h.ends i ((link_linked hc).mp hi)

/-! ## Removing a name -/

/-- An entry for a file is removed. -/
def dropFile (n : Names) (e : Entry) : Names where
  type := n.type
  nlink i := n.nlink i - ind (e.target = i)
  parent := n.parent
  ents := n.ents.erase e

/-- The entry of a directory is removed. -/
def dropDir (n : Names) (e : Entry) : Names where
  type := n.type
  nlink i := if i = e.target then 0 else n.nlink i - ind (e.dir = i)
  parent := n.parent
  ents := n.ents.erase e

theorem refs_erase (he : e ∈ n.ents) (i : ℕ) :
    count (n.ents.erase e) (·.target = i) + ind (e.target = i) = n.refs i :=
  count_erase he

theorem subdirs_erase (he : e ∈ n.ents) (p : ℕ) :
    count (n.ents.erase e) (fun e => e.dir = p ∧ n.type e.target = .dir) +
      ind (e.dir = p ∧ n.type e.target = .dir) = n.subdirs p :=
  count_erase he

theorem forall_erase (h : ∀ e ∈ n.ents, P e) : ∀ e' ∈ n.ents.erase e, P e' :=
  fun e' he' => h e' (mem_of_mem_erase he')

theorem Tree.dropFile (h : Tree n) (he : e ∈ n.ents) (hf : n.type e.target ≠ .dir) :
    Tree (n.dropFile e) := by
  have hne : ∀ {i}, n.type i = .dir → e.target ≠ i := by
    rintro i hi rfl
    exact hf hi
  have hnlink : ∀ {i}, n.type i = .dir → (n.dropFile e).nlink i = n.nlink i := by
    intro i hi
    change n.nlink i - ind (e.target = i) = _
    rw [ind_of_false (hne hi), Nat.sub_zero]
  have hlinked : ∀ {i}, (n.dropFile e).Linked i ↔ n.Linked i := and_congr_right fun hi => by
    rw [hnlink hi]
  have hsub : ∀ p, (n.dropFile e).subdirs p = n.subdirs p := by
    intro p
    rw [← subdirs_erase he p, ind_of_false fun hc => hf hc.2]
    rfl
  refine ⟨h.root, h.rootParent, ?_, ?_, forall_erase h.target, forall_erase h.plain, ?_,
    forall_erase h.up, ?_, ?_,
    h.parents, fun i hi => h.ends i (hlinked.mp hi)⟩
  · rw [hnlink h.root, hsub, h.rootNlink]
  · exact forall_erase fun e' he' => hlinked.mpr (h.holder e' he')
  · exact forall_erase fun e₁ h₁ => forall_erase (h.unique e₁ h₁)
  · intro i hi hd
    have hrefs := refs_erase he i
    have hfile := h.files i hi hd
    change n.nlink i - ind (e.target = i) = count (n.ents.erase e) (·.target = i)
    omega
  · intro i hd h0
    have hrefs := refs_erase he i
    rw [ind_of_false (hne hd)] at hrefs
    rw [hnlink hd, hsub, show (n.dropFile e).refs i = n.refs i from hrefs]
    exact h.dirs i hd h0

theorem Tree.dropDir (h : Tree n) (he : e ∈ n.ents) (hd : n.type e.target = .dir)
    (hempty : ∀ e' ∈ n.ents, e'.dir ≠ e.target) : Tree (n.dropDir e) := by
  have hsub : ∀ p, (n.dropDir e).subdirs p + ind (e.dir = p) = n.subdirs p := by
    intro p
    rw [← subdirs_erase he p]
    congr 1
    exact ind_congr (by simp [hd])
  have hnlink : ∀ {i}, i ≠ e.target → (n.dropDir e).nlink i = n.nlink i - ind (e.dir = i) :=
    fun hi => if_neg hi
  have hself : (n.dropDir e).nlink e.target = 0 := if_pos rfl
  have hlinked : ∀ {i}, i ≠ e.target → n.Linked i →
      (n.dropDir e).nlink i = 2 + (n.dropDir e).subdirs i := by
    intro i hi hl
    have := h.nlink_linked hl
    have := hsub i
    rw [hnlink hi]
    omega
  have hold : ∀ {i}, (n.dropDir e).Linked i → n.Linked i := by
    rintro i ⟨hi, hn⟩
    refine ⟨hi, fun hz => hn ?_⟩
    change (if i = e.target then 0 else n.nlink i - ind (e.dir = i)) = 0
    rw [hz]
    split_ifs <;> omega
  have h0 : (0 : ℕ) ≠ e.target := (h.target e he).2.symm
  refine ⟨h.root, h.rootParent, hlinked h0 h.linked_root, ?_, forall_erase h.target,
    forall_erase h.plain, ?_,
    forall_erase h.up, ?_, ?_, h.parents, fun i hi => h.ends i (hold hi)⟩
  · refine forall_erase fun e' he' => ⟨(h.holder e' he').1, ?_⟩
    rw [hlinked (hempty e' he') (h.holder e' he')]
    omega
  · exact forall_erase fun e₁ h₁ => forall_erase (h.unique e₁ h₁)
  · intro i hi hf
    have hne : i ≠ e.target := by
      rintro rfl
      exact hf hd
    have hdir : e.dir ≠ i := by
      rintro rfl
      exact hf (h.holder e he).1
    have hrefs := refs_erase he i
    rw [ind_of_false (Ne.symm hne)] at hrefs
    rw [hnlink hne, ind_of_false hdir, show (n.dropDir e).refs i = n.refs i from hrefs]
    exact h.files i hi hf
  · intro i hid hi0
    have hrefs := refs_erase he i
    change (n.dropDir e).refs i + _ = _ at hrefs
    by_cases hi : i = e.target
    · rw [hi] at hrefs ⊢
      rw [ind_of_true rfl] at hrefs
      refine .inl ⟨hself, ?_⟩
      rcases h.dirs _ hd h0.symm with hz | hz <;> omega
    · rw [ind_of_false (Ne.symm hi)] at hrefs
      rcases h.dirs i hid hi0 with hz | hz
      · refine .inl ⟨?_, by omega⟩
        rw [hnlink hi, hz.1, Nat.zero_sub]
      · exact .inr ⟨hlinked hi ⟨hid, by omega⟩, by omega⟩

/-! ## Freeing an inode -/

def free (n : Names) (i : ℕ) : Names := { n with type := update n.type i .none }

theorem Tree.free (h : Tree n) (hi : n.type i ≠ .none) (hz : n.nlink i = 0)
    (hp : ∀ j, n.type j = .dir → n.parent j ≠ some i) : Tree (n.free i) := by
  have hi0 : i ≠ 0 := by
    rintro rfl
    exact h.linked_root.2 hz
  have hrefs : n.refs i = 0 := by
    by_cases hd : n.type i = .dir
    · rcases h.dirs i hd hi0 with hr | hr <;> omega
    · rw [← h.files i hi hd, hz]
  have htarget : ∀ e ∈ n.ents, e.target ≠ i := count_eq_zero.mp hrefs
  have htype : ∀ {j}, j ≠ i → (n.free i).type j = n.type j := fun hj => update_of_ne hj ..
  have hne : ∀ {j}, (n.free i).type j ≠ .none → j ≠ i := by
    rintro j hj rfl
    exact hj (update_self ..)
  have hne' : ∀ {j}, (n.free i).type j = .dir → j ≠ i := fun hj => hne (by rw [hj]; decide)
  have hlinked : ∀ {j}, n.Linked j → (n.free i).Linked j := by
    intro j hj
    have hji : j ≠ i := by
      rintro rfl
      exact hj.2 hz
    exact ⟨by rw [htype hji, hj.1], hj.2⟩
  have hsub : ∀ p, (n.free i).subdirs p = n.subdirs p :=
    fun p => count_congr fun e he => by rw [htype (htarget e he)]
  refine ⟨(hlinked h.linked_root).1, h.rootParent, ?_, fun e he => hlinked (h.holder e he), ?_,
    h.plain, h.unique, ?_,
    ?_, ?_, ?_, ?_⟩
  · rw [hsub]
    exact h.rootNlink
  · intro e he
    rw [htype (htarget e he)]
    exact h.target e he
  · intro e he hd
    rw [htype (htarget e he)] at hd
    exact h.up e he hd
  · intro j hj hd
    have hji := hne hj
    rw [htype hji] at hj hd
    exact h.files j hj hd
  · intro j hd h0
    rw [htype (hne' hd)] at hd
    rw [hsub]
    exact h.dirs j hd h0
  · intro j hd h0
    rw [htype (hne' hd)] at hd
    obtain ⟨p, hpar, hpd⟩ := h.parents j hd h0
    refine ⟨p, hpar, ?_⟩
    rw [htype, hpd]
    rintro rfl
    exact hp j hd hpar
  · intro j hj
    exact h.ends j ⟨by rw [← htype (hne' hj.1), hj.1], hj.2⟩

/-! ## Moving a name -/

/-- The entry `e` becomes `new` of `nd`. -/
def move (n : Names) (e : Entry) (nd : ℕ) (new : Name) : Names where
  type := n.type
  nlink i := if n.type e.target = .dir then n.nlink i + ind (nd = i) - ind (e.dir = i)
    else n.nlink i
  parent := if n.type e.target = .dir then update n.parent e.target (some nd) else n.parent
  ents := insert ⟨nd, new, e.target⟩ (n.ents.erase e)

section

theorem vacant_erase (hv : n.Vacant nd new) : ∀ c, ⟨nd, new, c⟩ ∉ n.ents.erase e :=
  fun c hc => hv c (mem_of_mem_erase hc)

theorem move_refs (he : e ∈ n.ents) (hv : n.Vacant nd new) (i : ℕ) :
    (n.move e nd new).refs i = n.refs i := by
  refine (count_insert (vacant_erase hv e.target)).trans ?_
  exact refs_erase he i

theorem move_subdirs (he : e ∈ n.ents) (hv : n.Vacant nd new) (p : ℕ) :
    (n.move e nd new).subdirs p + ind (e.dir = p ∧ n.type e.target = .dir) =
      n.subdirs p + ind (nd = p ∧ n.type e.target = .dir) := by
  have hins : (n.move e nd new).subdirs p = _ := count_insert (vacant_erase hv e.target)
  have hers := subdirs_erase he p
  rw [hins]
  change _ + ind (nd = p ∧ n.type e.target = .dir) + _ = _
  change count (n.ents.erase e) (fun e => e.dir = p ∧ n.type e.target = .dir) + _ + _ = _
  omega

theorem forall_move (hnew : P ⟨nd, new, e.target⟩) (hold : ∀ e' ∈ n.ents, e' ≠ e → P e') :
    ∀ e' ∈ (n.move e nd new).ents, P e' := by
  intro e' he'
  rcases mem_insert.mp he' with rfl | he'
  · exact hnew
  · exact hold e' (mem_of_mem_erase he') (ne_of_mem_erase he')

variable (h : Tree n) (he : e ∈ n.ents) (hnd : n.Linked nd) (hv : n.Vacant nd new)

section

include h he

theorem move_nlink (hv : n.Vacant nd new) (hi : n.Linked i) :
    (n.move e nd new).nlink i = 2 + (n.move e nd new).subdirs i := by
  have hsub := move_subdirs he hv i
  have hold := h.nlink_linked hi
  change (if n.type e.target = .dir then n.nlink i + ind (nd = i) - ind (e.dir = i) else
    n.nlink i) = _
  split_ifs with hd
  · simp only [hd, and_true] at hsub
    omega
  · simp only [hd, and_false, ind_of_false not_false] at hsub
    omega

theorem move_nlink_other (hnd : n.Linked nd) (hi : ¬ n.Linked i) :
    (n.move e nd new).nlink i = n.nlink i := by
  have hndi : nd ≠ i := fun hni => hi (hni ▸ hnd)
  have hdir : e.dir ≠ i := fun hdi => hi (hdi ▸ h.holder e he)
  change (if n.type e.target = .dir then n.nlink i + ind (nd = i) - ind (e.dir = i) else
    n.nlink i) = _
  rw [ind_of_false hndi, ind_of_false hdir]
  split_ifs <;> rfl

end

include h he hnd hv

theorem move_linked : (n.move e nd new).Linked i ↔ n.Linked i := by
  by_cases hi : n.Linked i
  · refine iff_of_true ⟨hi.1, ?_⟩ hi
    rw [move_nlink h he hv hi]
    omega
  · unfold Linked
    rw [move_nlink_other h he hnd hi]
    rfl

theorem Tree.move (hpl : Plain new) (hacyc : n.type e.target = .dir →
    Avoids n.parent e.target (some nd)) :
    Tree (n.move e nd new) := by
  have hlinked : ∀ {i}, (n.move e nd new).Linked i ↔ n.Linked i := move_linked h he hnd hv
  have ht0 := (h.target e he).2
  have hpar : ∀ {i}, i ≠ e.target → (n.move e nd new).parent i = n.parent i := by
    intro i hi
    change (if n.type e.target = .dir then update n.parent e.target (some nd) else n.parent) i = _
    split_ifs
    · exact update_of_ne hi ..
    · rfl
  have hparself : n.type e.target = .dir → (n.move e nd new).parent = update n.parent e.target
      (some nd) :=
    fun hd => if_pos hd
  refine ⟨h.root, by rw [hpar ht0.symm, h.rootParent], move_nlink h he hv h.linked_root, ?_, ?_,
    ?_, ?_, ?_, ?_,
    ?_, ?_, ?_⟩
  · exact forall_move (hlinked.mpr hnd) fun e' he' _ => hlinked.mpr (h.holder e' he')
  · exact forall_move (h.target e he) fun e' he' _ => h.target e' he'
  · exact forall_move hpl fun e' he' _ => h.plain e' he'
  · exact unique_insert (n := { n with ents := n.ents.erase e })
      (forall_erase fun e₁ h₁ => forall_erase (h.unique e₁ h₁)) (vacant_erase hv)
  · refine forall_move (fun hd => ?_) fun e' he' hne hd => ?_
    · rw [hparself hd, update_self]
    · have hdir : n.type e.target = .dir → e'.target ≠ e.target :=
        fun hde ht => hne (h.entry_unique he he' hde ht)
      by_cases ht : e'.target = e.target
      · exact absurd ht (hdir (ht ▸ hd))
      · rw [hpar ht]
        exact h.up e' he' hd
  · intro i hi hd
    rw [move_refs he hv, move_nlink_other h he hnd fun hl => hd hl.1]
    exact h.files i hi hd
  · intro i hd h0
    rw [move_refs he hv]
    by_cases hl : n.Linked i
    · refine .inr ⟨move_nlink h he hv hl, ?_⟩
      rcases h.dirs i hd h0 with hz | hz
      · exact absurd hz.1 hl.2
      · exact hz.2
    · rw [move_nlink_other h he hnd hl]
      rcases h.dirs i hd h0 with hz | hz
      · exact .inl hz
      · exact absurd ⟨hd, by omega⟩ hl
  · intro i hd h0
    by_cases hi : i = e.target
    · subst hi
      exact ⟨nd, by rw [hparself hd, update_self], hnd.1⟩
    · obtain ⟨p, hp, hpd⟩ := h.parents i hd h0
      exact ⟨p, by rw [hpar hi, hp], hpd⟩
  · intro i hi
    have hold := h.ends i (hlinked.mp hi)
    by_cases hd : n.type e.target = .dir
    · rw [hparself hd]
      exact acc_update hold ((hacyc hd).acc _ nd rfl)
    · rw [show (n.move e nd new).parent = n.parent from if_neg hd]
      exact hold

end

end Names

end Sbunix.Tmpfs
