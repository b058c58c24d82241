import Sbunix.Vm.Unmap

/-!
# File mappings that are unmapped in parts

However often parts of a mapping are unmapped, what is left of it is a set of VMAs
that all give an address the place in the file it had at first. The inode is
referenced once for each of them. Neither depends on the order of the list, so both
survive a `munmap` whose range wraps.
-/

namespace Sbunix.Vm

open Lib Space List Function

/-- The position `drop_file_range` writes a page back to: `va - v->start + v->file_off`. -/
def Vma.flushPos (v : Vma) (va : ℕ) : ℕ := add64 (sub64 va v.start) v.fileOff

theorem Vma.flushPos_eq (v : Vma) {va : ℕ} (h : va % PAGE_SIZE = 0) :
    v.flushPos va = v.filePos va := by
  have hva : pageDown va = va := Nat.div_mul_cancel (Nat.dvd_of_mod_eq_zero h)
  rw [flushPos, filePos, hva, add64, add64, Nat.add_comm]

theorem rightHalf_backs (v : Vma) (fin ip : ℕ) : (rightHalf v fin).Backs ip ↔ v.Backs ip := by
  simp +contextual [Vma.Backs, rightHalf]

theorem backing_file {v : Vma} {va ip pos : ℕ} :
    (v.backing va).file = some (ip, pos) ↔ v.Backs ip ∧ v.filePos va = pos := by
  simp [Vma.backing, Vma.Backs, and_assoc]

namespace Space

variable {s s' s₀ : Space} {alloc : Option ℕ} {v v₀ va addr len fin r ip : ℕ}

def mappings (s : Space) (ip : ℕ) : ℕ := s.list.countP fun i => (s.slot i).Backs ip

/-! ## References -/

theorem mappings_congr (hlist : s'.list = s.list) (hslot : ∀ i ∈ s.list, (s'.slot i).Backs ip ↔
    (s.slot i).Backs ip) :
    s'.mappings ip = s.mappings ip := by
  rw [mappings, hlist]
  exact countP_congr fun i hi => by simpa using hslot i hi

theorem Unmapped.refcnt_sub (h : Unmapped s alloc v addr fin s') (hnd : s.list.Nodup)
    (hv : v ∈ s.list)
    (hfresh : ∀ r, alloc = some r → r ∉ s.list) (ip : ℕ) :
    s'.refcnt ip - s'.mappings ip = s.refcnt ip - s.mappings ip := by
  cases h with
  | whole h1 h2 hlist hslot href =>
    have hcount : s.mappings ip = s'.mappings ip + ind ((s.slot v).Backs ip) := by
      rw [mappings, (perm_cons_erase hv).countP_eq, countP_cons, mappings, hlist]
      congr 1
      · refine countP_congr fun i hi => ?_
        rw [hslot i (hnd.mem_erase_iff.mp hi).1]
      · simp [ind]
    rw [href, hcount]
    omega
  | cut r hr h1 h2 hslot hlist href =>
    have hrv : r ≠ v := fun he => hfresh r hr (he ▸ hv)
    have hcount : s'.mappings ip = s.mappings ip + ind ((s.slot v).Backs ip) := by
      rw [mappings, (insertFrom_perm hlist).countP_eq, countP_cons, mappings]
      congr 1
      · refine countP_congr fun i hi => ?_
        have hir : i ≠ r := fun he => hfresh r hr (he ▸ hi)
        by_cases hiv : i = v
        · subst hiv
          rw [hslot, update_self]
          rfl
        · rw [hslot, update_of_ne hiv, update_of_ne hir]
      · rw [hslot, update_of_ne hrv, update_self, ← ind_congr (rightHalf_backs _ fin ip)]
        simp [ind]
    rw [href, hcount]
    omega
  | uncut h1 h2 hno hlist hslot href =>
    rw [href, mappings_congr hlist fun i hi => by rw [hslot i fun hr => hfresh i hr hi]]
  | head h1 h2 hlist hslot href | tail h1 h2 hlist hslot href =>
    rw [href, mappings_congr hlist fun i hi => ?_]
    by_cases hiv : i = v
    · subst hiv
      rw [hslot, update_self]
      rfl
    · rw [hslot, update_of_ne hiv]

/-! ## What is left of a mapping -/

/-- Every VMA is one of the others as it was, or a piece that backs addresses as the mapping did. -/
def Pieces (s₀ : Space) (v₀ : ℕ) (s : Space) : Prop :=
  ∀ i ∈ s.list, i ∈ s₀.list ∧ i ≠ v₀ ∧ s.slot i = s₀.slot i ∨
    ∀ va, (s.slot i).backing va = (s₀.slot v₀).backing va

theorem Pieces.initial (s₀ : Space) (v₀ : ℕ) : Pieces s₀ v₀ s₀ := fun i hi => by
  by_cases h : i = v₀
  · exact .inr fun va => by rw [h]
  · exact .inl ⟨hi, h, rfl⟩

theorem Pieces.backing_of_has (h : Pieces s₀ v₀ s) (hs : Ordered s₀.slot s₀.list)
    (hv₀ : v₀ ∈ s₀.list)
    (hva : (s₀.slot v₀).Has va) {i : ℕ} (hi : i ∈ s.list) (hhas : (s.slot i).Has va) (w : ℕ) :
    (s.slot i).backing w = (s₀.slot v₀).backing w := by
  rcases h i hi with ⟨hi₀, hne, heq⟩ | hpiece
  · exact absurd (hs.has_unique hi₀ hv₀ (heq ▸ hhas) hva) hne
  · exact hpiece w

theorem Pieces.unmapped (h : Pieces s₀ v₀ s) (hcase : Unmapped s alloc v addr fin s')
    (hv : v ∈ s.list)
    (hnd : s.list.Nodup) (hfresh : ∀ r, alloc = some r → r ∉ s.list) (hfin : fin < 2 ^ 64)
    (hpiece : ∀ va, (s.slot v).backing va = (s₀.slot v₀).backing va) : Pieces s₀ v₀ s' :=
    fun i hi => by
  rcases hcase.old_or_piece hnd hv hfresh hi with ⟨hi, heq⟩ | hp
  · rw [heq]
    exact h i hi
  · exact .inr fun va => (hp.backing hfin).trans (hpiece va)

/-! ## Runs -/

/-- A call of `munmap`, with the struct the slab has for it. -/
structure MunmapCall where
  alloc : Option ℕ
  addr : ℕ
  len : ℕ

def munmapStep (s : Space) (c : MunmapCall) (s' : Space) : Prop :=
    (s.munmap c.alloc c.addr c.len).2 = s'

/-- The call is for an address of `v`, and the struct is not one in use. -/
def PartOf (v : Vma) (s : Space) (c : MunmapCall) : Prop :=
    v.Has c.addr ∧ ∀ r, c.alloc = some r → r ∉ s.list

/-- Any unmapping of parts leaves the other addresses their place in the file, and a
reference for each VMA. -/
theorem partial_unmaps_keep_file (s₀ s : Space) (v : ℕ) (other : ℕ → ℤ) (hs : s₀.WellFormed)
    (hv : v ∈ s₀.list)
    (href : ∀ ip, s₀.refcnt ip = other ip + s₀.mappings ip)
    (hrun : Reaches munmapStep (PartOf (s₀.slot v)) s₀ s) :
    (∀ va, (s₀.slot v).Has va → s.Covers va → s.backing va = some ((s₀.slot v).backing va)) ∧
      (∀ va, (s₀.slot v).Has va → va % PAGE_SIZE = 0 → ∀ i ∈ s.list, (s.slot i).Has va →
        ∀ ip, (s.slot i).Backs ip →
        (s₀.slot v).Backs ip ∧ (s.slot i).flushPos va = (s₀.slot v).filePos va) ∧
      ∀ ip, s.refcnt ip = other ip + s.mappings ip := by
  have hinv : Pieces s₀ v s ∧ s.list.Nodup ∧ ∀ ip, s.refcnt ip = other ip + s.mappings ip := by
    refine hrun.invariant (I :=
      fun s => Pieces s₀ v s ∧ s.list.Nodup ∧ ∀ ip, s.refcnt ip = other ip + s.mappings ip)
      ⟨Pieces.initial s₀ v, hs.ordered.nodup, href⟩ ?_
    rintro t ⟨alloc, addr, len⟩ u ⟨hpieces, hnd, href⟩ ⟨haddr, hfresh⟩ rfl
    have hres := munmap_result t alloc addr len
    dsimp only at haddr hfresh ⊢
    generalize t.munmap alloc addr len = res at hres
    cases hres with
    | failed => exact ⟨hpieces, hnd, href⟩
    | unmapped w s' halign hne hfind hle hcase =>
      obtain ⟨hw, hhas⟩ := vmaFind_some hfind
      have hfin : add64 addr (pageRoundUp len) < 2 ^ 64 := Nat.mod_lt _ (by norm_num)
      refine ⟨hpieces.unmapped hcase hw hnd hfresh hfin
        (hpieces.backing_of_has hs.ordered hv haddr hw hhas),
        hcase.nodup hnd hfresh, fun ip => ?_⟩
      have := hcase.refcnt_sub hnd hw hfresh ip
      have := href ip
      dsimp only
      omega
  obtain ⟨hpieces, -, href⟩ := hinv
  refine ⟨fun va hva hcov => ?_, fun va hva hpage i hi hhas ip hback => ?_, href⟩
  · cases hf : s.vmaFind va with
    | none => exact absurd hcov (vmaFind_none.mp hf)
    | some i =>
      rw [backing, hf, Option.map_some, hpieces.backing_of_has hs.ordered hv hva (vmaFind_some hf).1
        (vmaFind_some hf).2]
  · rw [Vma.flushPos_eq _ hpage]
    have hfile : ((s.slot i).backing va).file = some (ip, (s.slot i).filePos va) :=
      backing_file.mpr ⟨hback, rfl⟩
    rw [hpieces.backing_of_has hs.ordered hv hva hi hhas] at hfile
    obtain ⟨hback₀, hpos⟩ := backing_file.mp hfile
    exact ⟨hback₀, hpos.symm⟩

/-- Three pages of a file, open once besides. -/
def filePages : Space where
  slot := fun i => if i = 0 then ⟨MMAP_START, MMAP_START + 3 * PAGE_SIZE, ⟨true, true, false⟩,
    .file, false, true, some 7,
    PAGE_SIZE⟩ else Vma.zero
  list := [0]
  heap := none
  stackMax := 0
  pte := fun _ => none
  refcnt := fun ip => if ip = 7 then 2 else 0

/-- The middle page goes; the last one is still the fourth page of the file, and there are
two mappings. -/
theorem partial_unmaps_keep_file_middle :
    let s := (filePages.munmap (some 1) (MMAP_START + PAGE_SIZE) PAGE_SIZE).2
    s.backing (MMAP_START + 2 * PAGE_SIZE) = some ⟨⟨true, true, false⟩, .file, false, true,
      some (7, 3 * PAGE_SIZE)⟩ ∧
      s.refcnt 7 = 1 + s.mappings 7 ∧ s.mappings 7 = 2 := by
  have h := partial_unmaps_keep_file filePages
    (filePages.munmap (some 1) (MMAP_START + PAGE_SIZE) PAGE_SIZE).2 0
    (fun ip => if ip = 7 then 1 else 0) ⟨⟨by decide, by decide, by decide⟩, by decide⟩ (by decide)
    (fun ip => by by_cases hip : ip = 7 <;> simp [filePages, mappings, Vma.Backs, hip, eq_comm])
    (.single (a := ⟨some 1, MMAP_START + PAGE_SIZE, PAGE_SIZE⟩) ⟨by decide, by decide⟩ rfl)
  exact ⟨h.1 _ (by decide) ⟨1, by decide, by decide⟩, h.2.2 7, by decide⟩

end Space

end Sbunix.Vm
