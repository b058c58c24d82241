import Sbunix.Vm.Layout
import Sbunix.Lib.Machine
import Sbunix.Lib.Count

/-!
# What `munmap` does

The ways a successful `munmap` ends: the VMA is removed, cut in two, trimmed at its
head or at its tail, or left as it was because the cut failed and the return value of
`vma_split` is not looked at. What an address is backed by follows from these cases.
-/

namespace Sbunix.Vm

open Lib Space List Option Function

/-! ## Arithmetic of pages -/

variable {pte : ℕ → Option Pte} {i : ℕ} {a b va n len : ℕ}

def wholePages (len : ℕ) : ℕ := (len + (PAGE_SIZE - 1)) / PAGE_SIZE * PAGE_SIZE

theorem add64_eq (h : a + b < 2 ^ 64) : add64 a b = a + b := Nat.mod_eq_of_lt h

theorem pageRoundUp_eq (h : len + (PAGE_SIZE - 1) < 2 ^ 64) : pageRoundUp len = wholePages len := by
  rw [pageRoundUp, add64_eq h, pageDown, wholePages]

theorem pageRoundUp_wrap (h : 2 ^ 64 ≤ len + (PAGE_SIZE - 1)) (hlen : len < 2 ^ 64) :
    pageRoundUp len = 0 := by
  simp only [pageRoundUp, add64, pageDown, PAGE_SIZE] at *
  omega

theorem add64_pageRoundUp_le (hlen : len < 2 ^ 64) (h : 2 ^ 64 ≤ a + wholePages len) :
    add64 a (pageRoundUp len) ≤ a := by
  by_cases hround : len + (PAGE_SIZE - 1) < 2 ^ 64
  · rw [pageRoundUp_eq hround]
    simp only [add64, wholePages, PAGE_SIZE] at *
    omega
  · rw [pageRoundUp_wrap (Nat.not_lt.mp hround) hlen]
    exact Nat.mod_le ..

theorem cleared_cleared (drops : Pte → Bool) (e : Option Pte) :
    cleared drops (cleared drops e) = cleared drops e := by
  simp [cleared, Option.filter_filter]

theorem clearPages_of_ne {drops : Pte → Bool} {q : ℕ} (h : ∀ k < n, q ≠ vpn (va + k * PAGE_SIZE)) :
    clearPages drops pte va n q = pte q := by
  induction n generalizing pte va with
  | zero => rfl
  | succ n ih =>
    rw [clearPages, ih fun k hk => ?_, update_of_ne (by simpa using h 0 (Nat.succ_pos n))]
    have := h (k + 1) (by omega)
    rwa [Nat.succ_mul, Nat.add_comm (k * PAGE_SIZE), ← Nat.add_assoc] at this

theorem clearPages_of_eq {drops : Pte → Bool} {q k : ℕ} (hk : k < n)
    (hq : q = vpn (va + k * PAGE_SIZE)) :
    clearPages drops pte va n q = cleared drops (pte q) := by
  induction n generalizing pte va k with
  | zero => omega
  | succ n ih =>
    rw [clearPages]
    -- a page that is met again has nothing more to lose
    have hfirst : cleared drops (update pte (vpn va) (cleared drops (pte (vpn va))) q) =
        cleared drops (pte q) := by
      by_cases hqv : q = vpn va
      · rw [hqv, update_self, cleared_cleared]
      · rw [update_of_ne hqv]
    by_cases hno : ∀ k < n, q ≠ vpn (va + PAGE_SIZE + k * PAGE_SIZE)
    · cases k with
      | zero =>
        obtain rfl : q = vpn va := by simpa using hq
        rw [clearPages_of_ne hno, update_self]
      | succ k =>
        refine absurd (hq.trans ?_) (hno k (Nat.lt_of_succ_lt_succ hk))
        rw [Nat.succ_mul, Nat.add_comm (k * PAGE_SIZE), ← Nat.add_assoc]
    · push Not at hno
      obtain ⟨k, hk, hq⟩ := hno
      rw [ih hk hq, hfirst]

theorem clearPages_outside {drops : Pte → Bool} (ha : a % PAGE_SIZE = 0) (hb : b % PAGE_SIZE = 0)
    (hb39 : b ≤ 2 ^ 39) (hva : va < 2 ^ 39) (hout : ¬ (a ≤ va ∧ va < b)) :
    clearPages drops pte a ((b - a + (PAGE_SIZE - 1)) / PAGE_SIZE) (vpn va) = pte (vpn va) := by
  refine clearPages_of_ne fun k hk => ?_
  simp only [vpn, PAGE_SIZE] at *
  omega

/-! ## The cases -/

/-- `v` maps a part of the file `ip`. -/
def Vma.Backs (v : Vma) (ip : ℕ) : Prop := v.type = .file ∧ v.file = some ip

instance (v : Vma) (ip : ℕ) : Decidable (v.Backs ip) := inferInstanceAs (Decidable (_ ∧ _))

/-- What is left at the head is given to `start`. -/
def Vma.trimHead (v : Vma) (fin : ℕ) : Vma :=
  { v with
    start := fin
    fileOff := if v.type = .file then add64 v.fileOff (sub64 fin v.start) else v.fileOff }

def Vma.trimTail (v : Vma) (start : ℕ) : Vma := { v with fin := start }

namespace Space

variable {s s' : Space} {alloc : Option ℕ} {v addr fin r ip : ℕ}

/-- The ways a `munmap` from `addr` up to `fin` can change the list. -/
inductive Unmapped (s : Space) (alloc : Option ℕ) (v addr fin : ℕ) (s' : Space) : Prop
  | whole (hstart : (s.slot v).start = addr) (hfin : (s.slot v).fin = fin)
    (hlist : s'.list = s.list.erase v)
      (hslot : ∀ i, i ≠ v → s'.slot i = s.slot i)
      (href : ∀ ip, s'.refcnt ip = s.refcnt ip - ind ((s.slot v).Backs ip))
  | cut (r : ℕ) (hr : alloc = some r) (hstart : (s.slot v).start < addr)
    (hfin : fin < (s.slot v).fin)
      (hslot : s'.slot = update (update s.slot r (rightHalf (s.slot v) fin)) v
        ((s.slot v).trimTail addr))
      (hlist : insertFrom s'.slot r none s.list = some s'.list)
      (href : ∀ ip, s'.refcnt ip = s.refcnt ip + ind ((s.slot v).Backs ip))
  | uncut (hstart : (s.slot v).start < addr) (hfin : fin < (s.slot v).fin)
      (hno : ∀ r, alloc = some r → insertFrom (update (update s.slot r (rightHalf (s.slot v) fin)) v
        ((s.slot v).trimTail addr)) r none s.list = none) (hlist : s'.list = s.list)
      (hslot : ∀ i, alloc ≠ some i → s'.slot i = s.slot i) (href : s'.refcnt = s.refcnt)
  | head (hstart : (s.slot v).start = addr) (hfin : fin < (s.slot v).fin) (hlist : s'.list = s.list)
      (hslot : s'.slot = update s.slot v ((s.slot v).trimHead fin)) (href : s'.refcnt = s.refcnt)
  | tail (hstart : (s.slot v).start < addr) (hfin : (s.slot v).fin = fin) (hlist : s'.list = s.list)
      (hslot : s'.slot = update s.slot v ((s.slot v).trimTail addr)) (href : s'.refcnt = s.refcnt)

theorem Unmapped.of_eq {s₁ : Space} (h : Unmapped s₁ alloc v addr fin s') (hslot : s₁.slot = s.slot)
    (hlist : s₁.list = s.list) (href : s₁.refcnt = s.refcnt) : Unmapped s alloc v addr fin s' := by
  cases h with
  | whole h1 h2 h3 h4 h5 =>
    rw [hslot] at h1 h2 h4 h5
    rw [hlist] at h3
    rw [href] at h5
    exact .whole h1 h2 h3 h4 h5
  | cut r hr h1 h2 h3 h4 h5 =>
    rw [hslot] at h1 h2 h3 h5
    rw [hlist] at h4
    rw [href] at h5
    exact .cut r hr h1 h2 h3 h4 h5
  | uncut h1 h2 hno h3 h4 h5 =>
    rw [hslot] at h1 h2 h4
    rw [hslot, hlist] at hno
    exact .uncut h1 h2 hno (h3.trans hlist) h4 (h5.trans href)
  | head h1 h2 h3 h4 h5 =>
    rw [hslot] at h1 h2 h4
    exact .head h1 h2 (h3.trans hlist) h4 (h5.trans href)
  | tail h1 h2 h3 h4 h5 =>
    rw [hslot] at h1 h2 h4
    exact .tail h1 h2 (h3.trans hlist) h4 (h5.trans href)

/-- What may be left of `v`. -/
inductive Piece (v : Vma) (addr fin : ℕ) : Vma → Prop
  | left (hstart : v.start < addr) : Piece v addr fin (v.trimTail addr)
  | right (hstart : v.start < addr) (hfin : fin < v.fin) : Piece v addr fin (rightHalf v fin)
  | rest (hstart : v.start = addr) (hfin : fin < v.fin) : Piece v addr fin (v.trimHead fin)

theorem Unmapped.old_or_piece (h : Unmapped s alloc v addr fin s') (hnd : s.list.Nodup)
    (hv : v ∈ s.list)
    (hfresh : ∀ r, alloc = some r → r ∉ s.list) (hi : i ∈ s'.list) :
    i ∈ s.list ∧ s'.slot i = s.slot i ∨ Piece (s.slot v) addr fin (s'.slot i) := by
  cases h with
  | whole h1 h2 hlist hslot =>
    obtain ⟨hne, hi⟩ := hnd.mem_erase_iff.mp (hlist ▸ hi)
    exact .inl ⟨hi, hslot i hne⟩
  | cut r hr h1 h2 hslot hlist =>
    have hrv : r ≠ v := fun he => hfresh r hr (he ▸ hv)
    rw [hslot]
    by_cases hiv : i = v
    · rw [hiv, update_self]
      exact .inr (.left h1)
    by_cases hir : i = r
    · rw [hir, update_of_ne hrv, update_self]
      exact .inr (.right h1 h2)
    · rw [update_of_ne hiv, update_of_ne hir]
      exact .inl ⟨(mem_cons.mp ((insertFrom_perm hlist).mem_iff.mp hi)).resolve_left hir, rfl⟩
  | uncut h1 h2 hno hlist hslot =>
    rw [hlist] at hi
    exact .inl ⟨hi, hslot i fun hr => hfresh i hr hi⟩
  | head h1 h2 hlist hslot =>
    rw [hslot]
    by_cases hiv : i = v
    · rw [hiv, update_self]
      exact .inr (.rest h1 h2)
    · rw [update_of_ne hiv]
      exact .inl ⟨hlist ▸ hi, rfl⟩
  | tail h1 h2 hlist hslot =>
    rw [hslot]
    by_cases hiv : i = v
    · rw [hiv, update_self]
      exact .inr (.left h1)
    · rw [update_of_ne hiv]
      exact .inl ⟨hlist ▸ hi, rfl⟩

theorem Unmapped.stays (h : Unmapped s alloc v addr fin s') (hnd : s.list.Nodup)
    (hfresh : ∀ r, alloc = some r → r ∉ s.list) (hi : i ∈ s.list)
    (hkeep : ¬ (i = v ∧ (s.slot v).start = addr ∧ (s.slot v).fin = fin)) :
    i ∈ s'.list ∧ (s'.slot i).type = (s.slot i).type := by
  have hupdate (w : Vma) (hw : w.type = (s.slot v).type) :
      (update s.slot v w i).type = (s.slot i).type := by
    by_cases hiv : i = v
    · rw [hiv, update_self, hw]
    · rw [update_of_ne hiv]
  cases h with
  | whole h1 h2 hlist hslot =>
    have hne : i ≠ v := fun he => hkeep ⟨he, h1, h2⟩
    exact ⟨hlist ▸ hnd.mem_erase_iff.mpr ⟨hne, hi⟩, by rw [hslot i hne]⟩
  | cut r hr h1 h2 hslot hlist =>
    have hir : i ≠ r := fun he => hfresh r hr (he ▸ hi)
    refine ⟨(insertFrom_perm hlist).mem_iff.mpr (mem_cons_of_mem _ hi), ?_⟩
    rw [hslot]
    by_cases hiv : i = v
    · rw [hiv, update_self]
      rfl
    · rw [update_of_ne hiv, update_of_ne hir]
  | uncut h1 h2 hno hlist hslot => exact ⟨hlist ▸ hi, by rw [hslot i fun hr => hfresh i hr hi]⟩
  | head h1 h2 hlist hslot | tail h1 h2 hlist hslot => exact ⟨hlist ▸ hi, hslot ▸ hupdate _ rfl⟩

theorem Unmapped.nodup (hcase : Unmapped s alloc v addr fin s') (hnd : s.list.Nodup)
    (hfresh : ∀ r, alloc = some r → r ∉ s.list) : s'.list.Nodup := by
  cases hcase with
  | whole h1 h2 hlist => exact hlist ▸ hnd.erase v
  | cut r hr h1 h2 hslot hlist =>
    exact (insertFrom_perm hlist).nodup_iff.mpr (nodup_cons.mpr ⟨hfresh r hr, hnd⟩)
  | uncut h1 h2 hno hlist | head h1 h2 hlist | tail h1 h2 hlist => exact hlist ▸ hnd

theorem inodeGetOpt_refcnt (s : Space) (f : Option ℕ) (ip : ℕ) :
    (s.inodeGetOpt f).refcnt ip = s.refcnt ip + ind (f = some ip) := by
  cases f with
  | none => simp [inodeGetOpt]
  | some jp =>
    by_cases h : ip = jp
    · subst h
      simp [inodeGetOpt, inodeGet]
    · simp [inodeGetOpt, inodeGet, update_of_ne h, Ne.symm h]

theorem inodePutOpt_refcnt (s : Space) (f : Option ℕ) (ip : ℕ) :
    (s.inodePutOpt f).refcnt ip = s.refcnt ip - ind (f = some ip) := by
  cases f with
  | none => simp [inodePutOpt]
  | some jp =>
    by_cases h : ip = jp
    · subst h
      simp [inodePutOpt, inodePut]
    · simp [inodePutOpt, inodePut, update_of_ne h, Ne.symm h]

theorem inodeGetOpt_eq (s : Space) (f : Option ℕ) :
    s.inodeGetOpt f = { s with refcnt := (s.inodeGetOpt f).refcnt } := by
  cases f <;> rfl

theorem inodePutOpt_eq (s : Space) (f : Option ℕ) :
    s.inodePutOpt f = { s with refcnt := (s.inodePutOpt f).refcnt } := by
  cases f <;> rfl

/-! ## Each call is one of the cases -/

/-- What a `munmap` leaves alone. -/
structure Framed (s s' : Space) : Prop where
  pte : s'.pte = s.pte
  heap : s'.heap = s.heap
  stackMax : s'.stackMax = s.stackMax

theorem cutMiddle_cases (hstart : (s.slot v).start < addr) (hfin : fin < (s.slot v).fin) :
    Unmapped s alloc v addr fin (s.cutMiddle alloc v addr fin).2 ∧
      Framed s (s.cutMiddle alloc v addr fin).2 := by
  cases alloc with
  | none =>
    exact ⟨.uncut hstart hfin (fun _ h => nomatch h) rfl (fun _ _ => rfl) rfl, rfl, rfl, rfl⟩
  | some r =>
    have hback (ip : ℕ) : (rightHalf (s.slot v) fin).file = some ip ↔ (s.slot v).Backs ip := by
      simp [rightHalf, Vma.Backs]
    have hslot : update (update s.slot r Vma.zero) r (rightHalf (s.slot v) fin) =
        update s.slot r (rightHalf (s.slot v) fin) := update_idem ..
    simp only [cutMiddle, vmaInsert, setVma, vmaAlloc, vmaFree]
    rw [inodeGetOpt_eq]
    simp only [hslot]
    cases he : insertFrom (update (update s.slot r (rightHalf (s.slot v) fin)) v
        ((s.slot v).trimTail addr)) r none s.list with
    | some l =>
      have he' := he
      rw [Vma.trimTail] at he'
      rw [he']
      refine ⟨.cut r rfl hstart hfin rfl he fun ip => ?_, rfl, rfl, rfl⟩
      rw [← ind_congr (hback ip)]
      exact inodeGetOpt_refcnt ..
    | none =>
      have he' := he
      rw [Vma.trimTail] at he'
      rw [he', inodePutOpt_eq]
      refine ⟨.uncut hstart hfin (fun _ h => Option.some.inj h ▸ he) rfl (fun i hi => ?_)
        (funext fun ip => ?_), rfl, rfl, rfl⟩
      · have hir : i ≠ r := fun he => hi (congrArg some he.symm)
        by_cases hiv : i = v
        · subst hiv
          simp [update_of_ne hir]
        · simp [update_of_ne hir, update_of_ne hiv]
      · change (inodePutOpt _ _).refcnt ip = _
        rw [inodePutOpt_refcnt]
        change (inodeGetOpt _ _).refcnt ip - _ = _
        rw [inodeGetOpt_refcnt]
        exact add_sub_cancel_right _ _

theorem vmaSplit_cases (hstart : (s.slot v).start ≤ addr) (hfin : fin ≤ (s.slot v).fin)
    (hpart : ¬ (addr ≤ (s.slot v).start ∧ (s.slot v).fin ≤ fin)) :
    Unmapped s alloc v addr fin (s.vmaSplit alloc v addr fin).2 ∧
      Framed s (s.vmaSplit alloc v addr fin).2 := by
  simp only [vmaSplit, if_neg hpart]
  by_cases hmid : (s.slot v).start < addr ∧ fin < (s.slot v).fin
  · rw [if_pos hmid]
    exact cutMiddle_cases hmid.1 hmid.2
  rw [if_neg hmid]
  by_cases hhead : addr ≤ (s.slot v).start
  · rw [if_pos hhead]
    exact ⟨.head (by omega) (by omega) rfl rfl rfl, rfl, rfl, rfl⟩
  · rw [if_neg hhead]
    exact ⟨.tail (by omega) (by omega) rfl rfl rfl, rfl, rfl, rfl⟩

theorem dropRange_pte (hstart : (s.slot v).start ≤ addr) (hfin : fin ≤ (s.slot v).fin) :
    (s.dropRange v addr fin).pte = clearPages (if (s.slot v).type = .file then Pte.v else Pte.leaf)
      s.pte addr ((fin - addr + (PAGE_SIZE - 1)) / PAGE_SIZE) := by
  unfold dropRange
  split_ifs with hfile hwhole
  · rw [vmaDropFilePages, inodePutOpt_eq]
    have h1 : (s.slot v).start = addr := by omega
    have h2 : (s.slot v).fin = fin := by omega
    simp [setVma, dropFileRange, unmapPages, h1, h2]
  · simp [dropFileRange, unmapPages, Nat.max_eq_left hstart, Nat.min_eq_left hfin]
  · rfl

theorem dropRange_part (hpart : ¬ (addr ≤ (s.slot v).start ∧ (s.slot v).fin ≤ fin)) :
    s.dropRange v addr fin = { s with pte := (s.dropRange v addr fin).pte } := by
  simp only [dropRange, if_neg hpart]
  split_ifs <;> rfl

theorem dropRange_whole (hwhole : addr ≤ (s.slot v).start ∧ (s.slot v).fin ≤ fin) :
    (s.dropRange v addr fin).list = s.list ∧
    (∀ i, i ≠ v → (s.dropRange v addr fin).slot i = s.slot i) ∧
      (s.dropRange v addr fin).heap = s.heap ∧ (s.dropRange v addr fin).stackMax = s.stackMax ∧
      ((s.dropRange v addr fin).slot v).start = (s.slot v).start ∧
        ((s.dropRange v addr fin).slot v).fin = (s.slot v).fin ∧
      ∀ ip, (s.dropRange v addr fin).refcnt ip = s.refcnt ip - ind ((s.slot v).Backs ip) := by
  simp only [dropRange, if_pos hwhole]
  split_ifs with hfile
  · rw [vmaDropFilePages, inodePutOpt_eq]
    refine ⟨rfl, fun i hi => update_of_ne hi .., rfl, rfl, ?_, ?_, fun ip => ?_⟩
    · simp [setVma, dropFileRange, unmapPages]
    · simp [setVma, dropFileRange, unmapPages]
    · change (inodePutOpt _ _).refcnt ip = _
      rw [inodePutOpt_refcnt]
      have : (s.slot v).Backs ip ↔ (s.slot v).file = some ip := by simp [Vma.Backs, hfile]
      rw [ind_congr this]
      rfl
  · refine ⟨rfl, fun _ _ => rfl, rfl, rfl, rfl, rfl, fun ip => ?_⟩
    rw [ind_of_false fun h => hfile h.1]
    exact (sub_zero _).symm

/-- A `munmap` fails and changes nothing, or does one of the cases. -/
inductive MunmapResult (s : Space) (alloc : Option ℕ) (addr len : ℕ) : ℤ × Space → Prop
  | failed : MunmapResult s alloc addr len (-EINVAL, s)
  | unmapped (v : ℕ) (s' : Space) (halign : addr % PAGE_SIZE = 0) (hlen : len ≠ 0)
    (hfind : s.vmaFind addr = some v)
      (hfin : add64 addr (pageRoundUp len) ≤ (s.slot v).fin)
      (hcase : Unmapped s alloc v addr (add64 addr (pageRoundUp len)) s')
      (hpte : s'.pte = clearPages (if (s.slot v).type = .file then Pte.v else Pte.leaf) s.pte addr
        ((add64 addr (pageRoundUp len) - addr + (PAGE_SIZE - 1)) / PAGE_SIZE))
      (hheap : s'.heap = s.heap) (hstack : s'.stackMax = s.stackMax) :
        MunmapResult s alloc addr len (0, s')

theorem munmap_result (s : Space) (alloc : Option ℕ) (addr len : ℕ) :
    MunmapResult s alloc addr len (s.munmap alloc addr len) := by
  unfold munmap
  split_ifs with halign hlen
  · exact .failed
  · exact .failed
  dsimp only
  split
  · exact .failed
  next v hfind =>
  split_ifs with hfin
  · exact .failed
  obtain ⟨hv, hstart, hend⟩ := vmaFind_some hfind
  set fin := add64 addr (pageRoundUp len)
  have hle : fin ≤ (s.slot v).fin := Nat.not_lt.mp hfin
  have hpte := dropRange_pte hstart hle
  by_cases hwhole : addr ≤ (s.slot v).start ∧ (s.slot v).fin ≤ fin
  · obtain ⟨hlist, hslot, hheap, hstack, h1, h2, href⟩ := dropRange_whole hwhole
    have hsplit : ((s.dropRange v addr fin).vmaSplit alloc v addr fin).2 =
        ((s.dropRange v addr fin).vmaRemove v).vmaFree v := by
      simp only [vmaSplit]
      rw [if_pos ⟨h1.symm ▸ hwhole.1, h2.symm ▸ hwhole.2⟩]
    rw [hsplit]
    refine .unmapped v _ (not_not.mp halign) hlen hfind hle
      (.whole (by omega) (by omega) ?_ (fun i hi => ?_) href) hpte
      hheap hstack
    · exact congrArg (·.erase v) hlist
    · exact (update_of_ne hi ..).trans (hslot i hi)
  · have heq := dropRange_part hwhole
    have hslot : (s.dropRange v addr fin).slot = s.slot := by rw [heq]
    have hlist : (s.dropRange v addr fin).list = s.list := by rw [heq]
    have href : (s.dropRange v addr fin).refcnt = s.refcnt := by rw [heq]
    have hheap : (s.dropRange v addr fin).heap = s.heap := by rw [heq]
    have hstack : (s.dropRange v addr fin).stackMax = s.stackMax := by rw [heq]
    have hsplit : Unmapped (s.dropRange v addr fin) alloc v addr fin _ ∧ Framed _ _ :=
      vmaSplit_cases (hslot.symm ▸ hstart) (hslot.symm ▸ hle) (hslot.symm ▸ hwhole)
    obtain ⟨hcase, hframe⟩ := hsplit
    exact .unmapped v _ (not_not.mp halign) hlen hfind hle (hcase.of_eq hslot hlist href)
      (hframe.pte.trans hpte)
      (hframe.heap.trans hheap) (hframe.stackMax.trans hstack)

end Space

/-! ## What backs an address -/

/-- Where a page of a mapping lies in the file: `v->file_off + (fault_va - v->start)`. -/
def Vma.filePos (v : Vma) (va : ℕ) : ℕ := add64 v.fileOff (sub64 (pageDown va) v.start)

/-- What the fault handler and the write-back look at: rights, kind, sharing, and for
a file the inode and the position in it. -/
structure Backing where
  prot : Prot
  type : VmaType
  cow : Bool
  shared : Bool
  file : Option (ℕ × ℕ)
  deriving DecidableEq

def Vma.backing (v : Vma) (va : ℕ) : Backing :=
  ⟨v.prot, v.type, v.cow, v.shared, if v.type = .file then v.file.map fun ip =>
    (ip, v.filePos va) else none⟩

variable {v : Vma} {addr fin : ℕ}

theorem filePos_moved (hfin : fin < 2 ^ 64) :
    add64 (add64 v.fileOff (sub64 fin v.start)) (sub64 (pageDown va) fin) = v.filePos va := by
  simp only [Vma.filePos, add64, sub64]
  omega

@[simp] theorem trimTail_backing : (v.trimTail addr).backing va = v.backing va := rfl

theorem trimHead_backing (hfin : fin < 2 ^ 64) : (v.trimHead fin).backing va = v.backing va := by
  simp only [Vma.backing, Vma.trimHead, Vma.filePos]
  by_cases h : v.type = .file
  · simp only [if_pos h, filePos_moved hfin]
    rfl
  · simp only [if_neg h]

theorem rightHalf_backing (hfin : fin < 2 ^ 64) : (rightHalf v fin).backing va = v.backing va := by
  simp only [Vma.backing, rightHalf, Vma.filePos]
  by_cases h : v.type = .file
  · cases hf : v.file with
    | none => simp [h]
    | some ip =>
      simp only [h, true_and, if_true, isSome_some, map_some, filePos_moved hfin]
      rfl
  · simp only [if_neg h]

theorem Space.Piece.backing {w : Vma} (h : Piece v addr fin w) (hfin : fin < 2 ^ 64) :
    w.backing va = v.backing va := by
  cases h with
  | left => rfl
  | right => exact rightHalf_backing hfin
  | rest => exact trimHead_backing hfin

namespace Space

variable {s s' : Space} {alloc : Option ℕ} {v r : ℕ} {b : Backing}

def backing (s : Space) (va : ℕ) : Option Backing :=
    (s.vmaFind va).map fun i => (s.slot i).backing va

/-- Some VMA at `va` says `b`. -/
def Maps (s : Space) (va : ℕ) (b : Backing) : Prop :=
    ∃ i ∈ s.list, (s.slot i).Has va ∧ (s.slot i).backing va = b

/-- One other than `v` does. -/
def MapsBeside (s : Space) (v va : ℕ) (b : Backing) : Prop :=
  ∃ i ∈ s.list, i ≠ v ∧ (s.slot i).Has va ∧ (s.slot i).backing va = b

theorem covers_iff : s.Covers va ↔ ∃ b, s.Maps va b :=
  ⟨fun ⟨i, hi, h⟩ => ⟨_, i, hi, h, rfl⟩, fun ⟨_, i, hi, h, _⟩ => ⟨i, hi, h⟩⟩

theorem backing_eq_some (hs : Ordered s.slot s.list) : s.backing va = some b ↔ s.Maps va b := by
  constructor
  · intro h
    obtain ⟨i, hi, he⟩ := map_eq_some_iff.mp h
    exact ⟨i, (vmaFind_some hi).1, (vmaFind_some hi).2, he⟩
  · rintro ⟨i, hi, hhas, he⟩
    cases hf : s.vmaFind va with
    | none => exact absurd ⟨i, hi, hhas⟩ (vmaFind_none.mp hf)
    | some j =>
      obtain rfl := hs.has_unique (vmaFind_some hf).1 hi (vmaFind_some hf).2 hhas
      rw [backing, hf, map_some, he]

theorem maps_iff_beside (hv : v ∈ s.list) :
    s.Maps va b ↔ ((s.slot v).Has va ∧ (s.slot v).backing va = b) ∨ s.MapsBeside v va b := by
  constructor
  · rintro ⟨i, hi, h⟩
    by_cases hiv : i = v
    · exact .inl (hiv ▸ h)
    · exact .inr ⟨i, hi, hiv, h⟩
  · rintro (h | ⟨i, hi, -, h⟩)
    · exact ⟨v, hv, h⟩
    · exact ⟨i, hi, h⟩

theorem MapsBeside.not_has (h : s.MapsBeside v va b) (hs : Ordered s.slot s.list)
    (hv : v ∈ s.list) :
    ¬ (s.slot v).Has va := fun hhas => by
  obtain ⟨i, hi, hne, hi', -⟩ := h
  exact hne (hs.has_unique hi hv hi' hhas)

theorem mapsBeside_congr (hlist : s'.list = s.list) (hslot : ∀ i ∈ s.list, i ≠ v →
    s'.slot i = s.slot i) :
    s'.MapsBeside v va b ↔ s.MapsBeside v va b := by
  constructor
  · rintro ⟨i, hi, hne, h⟩
    rw [hlist] at hi
    exact ⟨i, hi, hne, hslot i hi hne ▸ h⟩
  · rintro ⟨i, hi, hne, h⟩
    exact ⟨i, hlist ▸ hi, hne, (hslot i hi hne).symm ▸ h⟩

/-! ## A range that does not wrap -/

section

variable (hs : Ordered s.slot s.list) (hv : v ∈ s.list) (hfresh : ∀ r, alloc = some r → r ∉ s.list)
  (haddr : (s.slot v).Has addr)

include hs hv hfresh haddr

theorem ordered_trimTail (hr : alloc = some r) (w : Vma) :
    Ordered (update (update s.slot r w) v ((s.slot v).trimTail addr)) s.list := by
  refine hs.shrink fun i hi => ?_
  have hir : i ≠ r := fun he => hfresh r hr (he ▸ hi)
  by_cases hiv : i = v
  · subst hiv
    rw [update_self]
    exact ⟨Nat.le_refl _, haddr.2.le, haddr.1⟩
  · rw [update_of_ne hiv, update_of_ne hir]
    exact ⟨Nat.le_refl _, Nat.le_refl _, hs.le i hi⟩

theorem rightHalf_inserts (hr : alloc = some r) (hstart : (s.slot v).start < addr)
    (hle : addr ≤ fin)
    (hfin : fin < (s.slot v).fin) :
    (insertFrom (update (update s.slot r (rightHalf (s.slot v) fin)) v
      ((s.slot v).trimTail addr)) r none s.list).isSome := by
  have hrv : r ≠ v := fun he => hfresh r hr (he ▸ hv)
  refine insertFrom_isSome (fun j hj => ?_) (fun p hp => nomatch hp)
  have hjr : j ≠ r := fun he => hfresh r hr (he ▸ hj)
  rw [update_of_ne hrv, update_self]
  by_cases hjv : j = v
  · subst hjv
    rw [update_self]
    exact .inl ⟨hstart.trans_le hle, hle⟩
  · rw [update_of_ne hjv, update_of_ne hjr]
    change (s.slot j).start < fin ∧ (s.slot j).fin ≤ fin ∨ fin ≤ (s.slot j).start ∧
      (s.slot v).fin ≤ (s.slot j).start
    have := hs.le j hj
    rcases hs.below_or_above hj hv hjv with hb | hb <;> omega

theorem Unmapped.ordered (h : Unmapped s alloc v addr fin s') (hfin : fin ≤ (s.slot v).fin)
    (hle : addr ≤ fin) :
    Ordered s'.slot s'.list := by
  cases h with
  | whole h1 h2 hlist hslot =>
    rw [hlist]
    refine (hs.sublist erase_sublist).shrink fun i hi => ?_
    obtain ⟨hne, hi⟩ := hs.nodup.mem_erase_iff.mp hi
    rw [hslot i hne]
    exact ⟨Nat.le_refl _, Nat.le_refl _, hs.le i hi⟩
  | cut r hr h1 h2 hslot hlist =>
    have hrv : r ≠ v := fun he => hfresh r hr (he ▸ hv)
    refine (Ordered.insertFrom (hslot ▸ ordered_trimTail hs hv hfresh haddr hr _) (hfresh r hr) ?_
      (by simp) hlist).1
    rw [hslot, update_of_ne hrv, update_self]
    exact hfin
  | uncut h1 h2 hno hlist hslot =>
    rw [hlist]
    refine hs.shrink fun i hi => ?_
    rw [hslot i fun hr => hfresh i hr hi]
    exact ⟨Nat.le_refl _, Nat.le_refl _, hs.le i hi⟩
  | head h1 h2 hlist hslot =>
    rw [hlist, hslot]
    refine hs.shrink fun i hi => ?_
    by_cases hiv : i = v
    · subst hiv
      rw [update_self]
      exact ⟨haddr.1.trans hle, Nat.le_refl _, hfin⟩
    · rw [update_of_ne hiv]
      exact ⟨Nat.le_refl _, Nat.le_refl _, hs.le i hi⟩
  | tail h1 h2 hlist hslot =>
    rw [hlist, hslot]
    refine hs.shrink fun i hi => ?_
    by_cases hiv : i = v
    · subst hiv
      rw [update_self]
      exact ⟨Nat.le_refl _, haddr.2.le, haddr.1⟩
    · rw [update_of_ne hiv]
      exact ⟨Nat.le_refl _, Nat.le_refl _, hs.le i hi⟩

theorem Unmapped.maps_iff (h : Unmapped s alloc v addr fin s') (hfin : fin ≤ (s.slot v).fin)
    (hbound : fin < 2 ^ 64) (hle : addr ≤ fin)
    (hmem : (s.slot v).start < addr → fin < (s.slot v).fin → alloc ≠ none) :
    s'.Maps va b ↔ s.Maps va b ∧ ¬ (addr ≤ va ∧ va < fin) := by
  have hout (hbeside : s.MapsBeside v va b) : ¬ (addr ≤ va ∧ va < fin) := fun hr =>
    hbeside.not_has hs hv ⟨haddr.1.trans hr.1, hr.2.trans_le hfin⟩
  rw [maps_iff_beside hv]
  -- it is enough to look at what is left of `v`
  have hjoin {own : Prop} (hown : own ↔ ((s.slot v).Has va ∧ ¬ (addr ≤ va ∧ va < fin)) ∧
    (s.slot v).backing va = b) :
      own ∨ s.MapsBeside v va b ↔
        (((s.slot v).Has va ∧ (s.slot v).backing va = b) ∨ s.MapsBeside v va b) ∧
          ¬ (addr ≤ va ∧ va < fin) := by
    rw [hown]
    exact ⟨fun h => h.elim (fun h => ⟨.inl ⟨h.1.1, h.2⟩, h.1.2⟩) fun h => ⟨.inr h, hout h⟩,
      fun h => h.1.elim (fun hown => .inl ⟨⟨hown.1, h.2⟩, hown.2⟩) .inr⟩
  have hstart := haddr.1
  cases h with
  | whole h1 h2 hlist hslot =>
    have hbeside : s'.Maps va b ↔ s.MapsBeside v va b := by
      constructor
      · rintro ⟨i, hi, h⟩
        obtain ⟨hne, hi⟩ := hs.nodup.mem_erase_iff.mp (hlist ▸ hi)
        exact ⟨i, hi, hne, hslot i hne ▸ h⟩
      · rintro ⟨i, hi, hne, h⟩
        exact ⟨i, hlist ▸ hs.nodup.mem_erase_iff.mpr ⟨hne, hi⟩, (hslot i hne).symm ▸ h⟩
    rw [hbeside, ← h1, ← h2]
    exact ⟨fun h => ⟨.inr h, by rw [h1, h2]; exact hout h⟩,
      fun h => h.1.resolve_left fun hv => h.2 hv.1⟩
  | cut r hr h1 h2 hslot hlist =>
    have hrv : r ≠ v := fun he => hfresh r hr (he ▸ hv)
    have hperm := insertFrom_perm hlist
    have hmaps : s'.Maps va b ↔ (((s'.slot v).Has va ∧ (s'.slot v).backing va = b) ∨
        ((s'.slot r).Has va ∧ (s'.slot r).backing va = b)) ∨ s.MapsBeside v va b := by
      constructor
      · rintro ⟨i, hi, h⟩
        rcases mem_cons.mp (hperm.mem_iff.mp hi) with rfl | hi
        · exact .inl (.inr h)
        by_cases hiv : i = v
        · exact .inl (.inl (hiv ▸ h))
        · have hir : i ≠ r := fun he => hfresh r hr (he ▸ hi)
          rw [hslot, update_of_ne hiv, update_of_ne hir] at h
          exact .inr ⟨i, hi, hiv, h⟩
      · rintro ((h | h) | ⟨i, hi, hiv, h⟩)
        · exact ⟨v, hperm.mem_iff.mpr (mem_cons_of_mem _ hv), h⟩
        · exact ⟨r, hperm.mem_iff.mpr mem_cons_self, h⟩
        · have hir : i ≠ r := fun he => hfresh r hr (he ▸ hi)
          refine ⟨i, hperm.mem_iff.mpr (mem_cons_of_mem _ hi), ?_⟩
          rwa [hslot, update_of_ne hiv, update_of_ne hir]
    rw [hmaps]
    refine hjoin ?_
    rw [hslot, update_self, update_of_ne hrv, update_self, rightHalf_backing hbound,
      trimTail_backing, ← or_and_right]
    refine and_congr_left fun _ => ?_
    simp only [Vma.Has, Vma.trimTail, rightHalf]
    omega
  | uncut h1 h2 hno hlist hslot =>
    cases alloc with
    | none => exact absurd rfl (hmem h1 h2)
    | some r =>
      have hsome := rightHalf_inserts hs hv hfresh haddr rfl h1 hle h2
      rw [hno r rfl] at hsome
      cases hsome
  | head h1 h2 hlist hslot =>
    rw [maps_iff_beside (hlist ▸ hv), mapsBeside_congr hlist fun i hi hne => by
      rw [hslot, update_of_ne hne],
      hslot, update_self, trimHead_backing hbound]
    refine hjoin (and_congr_left fun _ => ?_)
    simp only [Vma.Has, Vma.trimHead]
    omega
  | tail h1 h2 hlist hslot =>
    rw [maps_iff_beside (hlist ▸ hv), mapsBeside_congr hlist fun i hi hne => by
      rw [hslot, update_of_ne hne],
      hslot, update_self, trimTail_backing]
    refine hjoin (and_congr_left fun _ => ?_)
    simp only [Vma.Has, Vma.trimTail]
    omega

omit hs in
theorem Unmapped.covers_of_wrap (h : Unmapped s alloc v addr fin s') (hle : fin ≤ addr) :
    s'.Covers addr := by
  obtain ⟨hlo, hhi⟩ := haddr
  cases h with
  | whole h1 h2 | tail h1 h2 => omega
  | uncut h1 h2 hno hlist hslot =>
    refine ⟨v, hlist ▸ hv, ?_⟩
    rw [hslot v fun hr => hfresh v hr hv]
    exact ⟨hlo, hhi⟩
  | head h1 h2 hlist hslot =>
    refine ⟨v, hlist ▸ hv, ?_⟩
    rw [hslot, update_self]
    exact ⟨hle, hhi⟩
  | cut r hr h1 h2 hslot hlist =>
    have hrv : r ≠ v := fun he => hfresh r hr (he ▸ hv)
    have hsr : s'.slot r = rightHalf (s.slot v) fin := by rw [hslot, update_of_ne hrv, update_self]
    refine ⟨r, (insertFrom_perm hlist).mem_iff.mpr mem_cons_self, ?_⟩
    rw [hsr]
    exact ⟨hle, hhi⟩

end

/-! ## Exactness -/

/-- Exactly the pages from `addr` on that hold `len` bytes are gone. -/
structure Exact (s s' : Space) (addr len : ℕ) : Prop where
  covers : ∀ va, s'.Covers va ↔ s.Covers va ∧ ¬ (addr ≤ va ∧ va < addr + wholePages len)
  backing : ∀ va, ¬ (addr ≤ va ∧ va < addr + wholePages len) → s'.backing va = s.backing va
  pages : ∀ va < 2 ^ 39, ¬ (addr ≤ va ∧ va < addr + wholePages len) →
    s'.pte (vpn va) = s.pte (vpn va)

/-- The range does not wrap, and where it cuts a VMA in two there is a struct for the right half. -/
def Fits (s : Space) (alloc : Option ℕ) (addr len : ℕ) : Prop :=
  addr + wholePages len < 2 ^ 64 ∧
    (alloc = none → ∀ i ∈ s.list, ¬ ((s.slot i).start < addr ∧
    addr + wholePages len < (s.slot i).fin))

/-- The VMAs are in tables of the process: below the 39 bits of an address, and outside of the
kernel's entries for physical memory, which every process shares. -/
def InOwnTables (s : Space) : Prop :=
  ∀ i ∈ s.list, (s.slot i).fin ≤ 2 ^ 39 ∧
    ((s.slot i).fin ≤ IDENTITY_START ∨ IDENTITY_END ≤ (s.slot i).start)

instance (s : Space) : Decidable s.InOwnTables := inferInstanceAs (Decidable (∀ i ∈ s.list, _))

/-- `munmap` is exact where the range fits, and only there. -/
theorem munmap_exact_iff (s : Space) (alloc : Option ℕ) (addr len : ℕ) (hs : s.WellFormed)
    (hown : s.InOwnTables) (hfresh : ∀ r, alloc = some r → r ∉ s.list)
    (hlen : len < 2 ^ 64) :
    ((s.munmap alloc addr len).1 ≠ 0 → (s.munmap alloc addr len).2 = s) ∧
      ((s.munmap alloc addr len).1 = 0 →
        (s.Exact (s.munmap alloc addr len).2 addr len ↔ s.Fits alloc addr len)) := by
  have hres := munmap_result s alloc addr len
  generalize s.munmap alloc addr len = res at hres
  cases hres with
  | failed => exact ⟨fun _ => rfl, fun h => nomatch h⟩
  | unmapped v s' halign hne hfind hfin hcase hpte =>
    refine ⟨fun h => absurd rfl h, fun _ => ?_⟩
    obtain ⟨hv, hhas⟩ := vmaFind_some hfind
    have hv39 := (hown v hv).1
    have hin : addr ≤ addr ∧ addr < addr + wholePages len := by
      simp only [wholePages, PAGE_SIZE]
      omega
    by_cases hwrap : addr + wholePages len < 2 ^ 64
    · have hround : add64 addr (pageRoundUp len) = addr + wholePages len := by
        rw [pageRoundUp_eq (by simp only [wholePages, PAGE_SIZE] at *; omega), add64_eq hwrap]
      rw [hround] at hfin hcase hpte
      constructor
      · intro hexact
        refine ⟨hwrap, fun hnone i hi hmid => ?_⟩
        obtain rfl : i = v := hs.ordered.has_unique hi hv ⟨hmid.1.le, by omega⟩ hhas
        -- without a right half the VMA stays
        have hstays : s'.Covers addr := by
          cases hcase with
          | whole h1 h2 | tail h1 h2 | head h1 h2 => omega
          | cut r hr => cases hnone.symm.trans hr
          | uncut h1 h2 hno hlist hslot =>
            refine ⟨i, hlist ▸ hv, ?_⟩
            rw [hslot i (by rw [hnone]; exact nofun)]
            exact hhas
        exact ((hexact.covers addr).mp hstays).2 hin
      · rintro ⟨-, hmem⟩
        have hiff (va : ℕ) (b : Backing) :
            s'.Maps va b ↔ s.Maps va b ∧ ¬ (addr ≤ va ∧ va < addr + wholePages len) :=
          hcase.maps_iff hs.ordered hv hfresh hhas hfin hwrap (Nat.le_add_right ..)
            fun h1 h2 hnone => hmem hnone v hv ⟨h1, h2⟩
        have hord := hcase.ordered hs.ordered hv hfresh hhas hfin (Nat.le_add_right ..)
        refine ⟨fun va => ?_, fun va hva => ?_, fun va hva hout => ?_⟩
        · simp only [covers_iff, hiff, exists_and_right]
        · refine Option.ext fun b => ?_
          rw [backing_eq_some hord, backing_eq_some hs.ordered, hiff]
          exact and_iff_left hva
        · rw [hpte]
          refine clearPages_outside halign ?_ (hfin.trans hv39) hva hout
          simp only [wholePages, PAGE_SIZE] at *
          omega
    · have hle := add64_pageRoundUp_le hlen (Nat.not_lt.mp hwrap)
      have hstays := hcase.covers_of_wrap hv hfresh hhas hle
      exact ⟨fun hexact => absurd hin ((hexact.covers addr).mp hstays).2,
        fun hfits => absurd hfits.1 hwrap⟩

/-- One anonymous mapping of three pages at the start of the window. -/
def threePages : Space where
  slot := fun i => if i = 0 then ⟨MMAP_START, MMAP_START + 3 * PAGE_SIZE, ⟨true, true, false⟩,
    .anon, false, false, none, 0⟩
    else Vma.zero
  list := [0]
  heap := none
  stackMax := 0
  pte := fun _ => none
  refcnt := fun _ => 0

theorem threePages_wellFormed : threePages.WellFormed :=
  ⟨⟨by decide, by decide, by decide⟩, by decide⟩

/-- The middle page is unmapped. -/
theorem munmap_middle_page : (threePages.munmap (some 1) (MMAP_START + PAGE_SIZE) 1).1 = 0 ∧
    threePages.Exact (threePages.munmap (some 1) (MMAP_START + PAGE_SIZE) 1).2
      (MMAP_START + PAGE_SIZE) 1 :=
  ⟨by decide, ((munmap_exact_iff threePages (some 1) (MMAP_START + PAGE_SIZE) 1
    threePages_wellFormed (by decide)
    (by decide) (by decide)).2 (by decide)).mpr ⟨by decide, nofun⟩⟩

/-- The largest length is rounded up to 0: the call succeeds and the page is still there. -/
theorem munmap_largest_length :
    threePages.WellFormed ∧ (threePages.munmap (some 1) MMAP_START (2 ^ 64 - 1)).1 = 0 ∧
    ¬ threePages.Exact (threePages.munmap (some 1) MMAP_START (2 ^ 64 - 1)).2 MMAP_START
      (2 ^ 64 - 1) := by
  refine ⟨threePages_wellFormed, by decide, fun h => ?_⟩
  have hstays : (threePages.munmap (some 1) MMAP_START (2 ^ 64 - 1)).2.Covers MMAP_START :=
    ⟨0, by decide, by decide⟩
  exact ((h.covers MMAP_START).mp hstays).2 (by decide)

end Space

end Sbunix.Vm
