import Sbunix.Vm.Break

/-!
# The growth of the stack

The fault handler moves the start of the stack VMA down without a look at the other
VMAs. What keeps them apart is the limit: a mapping at a fixed address must end below
the floor it gives, the window of the other mappings ends below the default floor, and
so does the heap. Raising the limit lowers the floor.
-/

namespace Sbunix.Vm

open Lib List

variable {search : ℕ} {a : MmapArgs}

namespace Space

variable {s s' : Space} {alloc : Option ℕ} {stval sv addr len : ℕ} {incr : ℤ}

theorem stackFloor_eq (hstack : s'.stackMax = s.stackMax) : s'.stackFloor = s.stackFloor := by
  rw [stackFloor, stackFloor, stackLimit, stackLimit, hstack]

/-- The VMAs other than stacks end below the floor, which is above the window. -/
structure UnderFloor (s : Space) : Prop extends WellFormed s where
  window : MMAP_END ≤ s.stackFloor
  below : ∀ i ∈ s.list, (s.slot i).type ≠ .stack → (s.slot i).fin ≤ s.stackFloor
  aligned : ∀ i ∈ s.list, (s.slot i).type = .stack → (s.slot i).start % PAGE_SIZE = 0

/-! ## Growth -/

/-- What growth is to do: nothing, or give the stack `sv` pages above the floor that belong
to no other VMA. -/
structure GrowsClear (s s' : Space) (sv : ℕ) : Prop where
  list : s'.list = s.list
  wellFormed : s'.WellFormed
  others : ∀ i, i ≠ sv → s'.slot i = s.slot i
  floor : (s'.slot sv).start ≠ (s.slot sv).start → s.stackFloor ≤ (s'.slot sv).start
  clear : ∀ va, (s'.slot sv).Has va → ¬ (s.slot sv).Has va → ∀ i ∈ s.list, i ≠ sv →
    ∀ w, (s.slot i).Has w →
    w / PAGE_SIZE ≠ va / PAGE_SIZE

/-- How `user_page_fault` can go on. -/
inductive GrowResult (s : Space) (stval : ℕ) : Option (ℕ × Space) → Prop
  | segv : GrowResult s stval none
  | found (v : ℕ) (hv : s.vmaFind stval = some v) : GrowResult s stval (some (v, s))
  | grown (sv : ℕ) (hsv : s.findStackVma = some sv) (hlt : stval < (s.slot sv).start)
      (hfloor : s.stackFloor ≤ pageDown stval) :
      GrowResult s stval (some (sv, s.setVma sv { s.slot sv with start := pageDown stval }))

theorem growStack_result (s : Space) (stval : ℕ) : GrowResult s stval (s.growStack stval) := by
  unfold growStack
  split
  next v hv => exact .found v hv
  split
  · exact .segv
  next sv hsv =>
  split_ifs with h
  · exact .grown sv hsv h.1 h.2
  · exact .segv

/-- The stack found is the lowest: those before it are none, those after it lie above. -/
theorem findStackVma_split (hs : Ordered s.slot s.list) (h : s.findStackVma = some sv) :
    (s.slot sv).type = .stack ∧ ∃ l₁ l₂, s.list = l₁ ++ sv :: l₂ ∧
    (∀ i ∈ l₁, (s.slot i).type ≠ .stack) ∧
      ∀ j ∈ l₂, (s.slot sv).fin ≤ (s.slot j).start := by
  obtain ⟨htype, l₁, l₂, hlist, hbefore⟩ := find?_eq_some_iff_append.mp h
  refine ⟨by simpa using htype, l₁, l₂, hlist, fun i hi => by simpa using hbefore i hi, ?_⟩
  have hp := hs.apart
  rw [hlist] at hp
  exact (pairwise_cons.mp (pairwise_append.mp hp).2.1).1

theorem UnderFloor.grow (hs : s.UnderFloor) (hg : s.growStack stval = some (sv, s')) :
    GrowsClear s s' sv ∧ s'.UnderFloor := by
  have hres := growStack_result s stval
  rw [hg] at hres
  cases hres with
  | found _ hv =>
    exact ⟨⟨rfl, hs.toWellFormed, fun _ _ => rfl, fun h => absurd rfl h,
      fun va h h' => absurd h h'⟩, hs⟩
  | grown _ hsv hlt hfloor =>
    obtain ⟨htype, l₁, l₂, hlist, hbefore, hafter⟩ := findStackVma_split hs.ordered hsv
    have hmem : sv ∈ s.list := mem_of_find?_eq_some hsv
    have hpage : pageDown stval ≤ stval := Nat.div_mul_le_self ..
    have hle := hs.ordered.le sv hmem
    have hunder (i : ℕ) (hi : i ∈ l₁) : (s.slot i).fin ≤ pageDown stval :=
      (hs.below i (hlist ▸ mem_append_left _ hi) (hbefore i hi)).trans hfloor
    have hself : (s.setVma sv { s.slot sv with start := pageDown stval }).slot sv =
        { s.slot sv with start := pageDown stval } := Function.update_self ..
    have hrest (i : ℕ) (hi : i ≠ sv) :
        (s.setVma sv { s.slot sv with start := pageDown stval }).slot i = s.slot i :=
      Function.update_of_ne hi ..
    have hwf : (s.setVma sv { s.slot sv with start := pageDown stval }).WellFormed := by
      refine ⟨?_, fun i hi => ?_⟩
      · change Ordered (Function.update s.slot sv _) s.list
        have hord := hs.ordered
        rw [hlist] at hord ⊢
        exact hord.resize (by change pageDown stval ≤ (s.slot sv).fin; omega) hunder hafter
      · by_cases hne : i = sv
        · rw [hne, hself]
          exact hs.bound sv hmem
        · rw [hrest i hne]
          exact hs.bound i hi
    refine ⟨⟨rfl, hwf, hrest, fun _ => by rw [hself]; exact hfloor,
      fun va hva hno i hi hne w hw => ?_⟩,
      ⟨hwf, hs.window, fun i hi hst => ?_, fun i hi hst => ?_⟩⟩
    · rw [hself] at hva
      have hstart := hs.aligned sv hmem htype
      have hi' : i ∈ l₁ ∨ i ∈ l₂ := by
        rw [hlist, mem_append, mem_cons] at hi
        exact hi.imp_right fun h => h.resolve_left hne
      simp only [Vma.Has, pageDown, PAGE_SIZE] at *
      rcases hi' with hi' | hi'
      · have := hunder i hi'
        omega
      · have := hafter i hi'
        omega
    · by_cases hne : i = sv
      · rw [hne, hself] at hst
        exact absurd htype hst
      · rw [hrest i hne] at hst ⊢
        exact hs.below i hi hst
    · by_cases hne : i = sv
      · rw [hne, hself]
        exact Nat.mul_mod_left ..
      · rw [hrest i hne] at hst ⊢
        exact hs.aligned i hi hst

/-! ## The other calls -/

theorem UnderFloor.congr (hs : s.UnderFloor) (hlist : s'.list = s.list)
    (hslot : ∀ i ∈ s.list, s'.slot i = s.slot i)
    (hstack : s'.stackMax = s.stackMax) : s'.UnderFloor := by
  have hfloor := stackFloor_eq hstack
  refine ⟨⟨?_, fun i hi => ?_⟩, hfloor ▸ hs.window, fun i hi => ?_, fun i hi => ?_⟩
  · rw [hlist]
    refine hs.ordered.shrink fun i hi => ?_
    rw [hslot i hi]
    exact ⟨Nat.le_refl _, Nat.le_refl _, hs.ordered.le i hi⟩
  all_goals
    rw [hlist] at hi
    rw [hslot i hi]
  · exact hs.bound i hi
  · rw [hfloor]
    exact hs.below i hi
  · exact hs.aligned i hi

theorem UnderFloor.munmap (hs : s.UnderFloor) (hfresh : ∀ r, alloc = some r → r ∉ s.list)
    (hwrap : addr + wholePages len < 2 ^ 64) : (s.munmap alloc addr len).2.UnderFloor := by
  have hres := munmap_result s alloc addr len
  generalize s.munmap alloc addr len = res at hres
  cases hres with
  | failed => exact hs
  | unmapped v s' halign hne hfind hfin hcase hpte hheap hstack =>
    obtain ⟨hv, hhas⟩ := vmaFind_some hfind
    have hround : add64 addr (pageRoundUp len) = addr + wholePages len := by
      rw [pageRoundUp_eq (by simp only [wholePages, PAGE_SIZE] at *; omega), add64_eq hwrap]
    rw [hround] at hfin hcase
    have hend : (addr + wholePages len) % PAGE_SIZE = 0 := by
      simp only [wholePages, PAGE_SIZE] at *
      omega
    have hfloor := stackFloor_eq hstack
    have hpiece {i : ℕ} (hi : i ∈ s'.list) := hcase.old_or_piece hs.ordered.nodup hv hfresh hi
    refine ⟨⟨hcase.ordered hs.ordered hv hfresh hhas hfin (Nat.le_add_right ..), fun i hi => ?_⟩,
      hfloor ▸ hs.window,
      fun i hi htype => ?_, fun i hi htype => ?_⟩
    · rcases hpiece hi with ⟨hi, heq⟩ | hp
      · rw [heq]
        exact hs.bound i hi
      · have := hs.bound v hv
        generalize s'.slot i = w at hp
        cases hp with
        | left => exact hhas.2.trans this
        | right | rest => exact this
    · rw [hfloor]
      rcases hpiece hi with ⟨hi, heq⟩ | hp
      · rw [heq] at htype ⊢
        exact hs.below i hi htype
      · have hbelow := hs.below v hv
        generalize s'.slot i = w at hp htype
        cases hp with
        | left => exact hhas.2.le.trans (hbelow htype)
        | right | rest => exact hbelow htype
    · rcases hpiece hi with ⟨hi, heq⟩ | hp
      · rw [heq] at htype ⊢
        exact hs.aligned i hi htype
      · have haligned := hs.aligned v hv
        generalize s'.slot i = w at hp htype
        cases hp with
        | left => exact haligned htype
        | right | rest => exact hend

theorem searchFrom_end {n fuel p : ℕ} (hend : search + n ≤ MMAP_END)
    (h : s.searchFrom n fuel search = .ok p) :
    p + n ≤ MMAP_END := by
  induction fuel generalizing search with
  | zero => cases h
  | succ fuel ih =>
    have hsum : add64 search n = search + n := add64_eq (by simp only [MMAP_END] at *; omega)
    have hlow : add64 MMAP_START n = MMAP_START + n :=
      add64_eq (by simp only [MMAP_START, MMAP_END] at *; omega)
    rw [searchFrom] at h
    split at h
    · cases h
    split at h
    · cases h
      exact hend
    next v hfind =>
    split at h
    · cases h
    next hroom =>
    rw [hlow] at hroom
    have hover : (s.slot v).Overlaps search n := by simpa using find?_some hfind
    have hvstart := hover.2
    rw [hsum] at hvstart
    refine ih ?_ h
    simp only [pageDown, PAGE_SIZE, sub64, MMAP_START, MMAP_END] at *
    omega

section

variable (hs : s.UnderFloor)
include hs

theorem place_under_floor {n : ℕ} (h : s.place a n = .ok search) :
    search ≤ add64 search n ∧ add64 search n ≤ s.stackFloor := by
  have hwin := hs.window
  rw [place] at h
  split at h
  · unfold fixedPlace at h
    split_ifs at h with h1 h2 h3 h4 h5
    cases h
    exact ⟨Nat.not_lt.mp h3, Nat.not_lt.mp h5⟩
  · unfold searchPlace at h
    split at h
    · cases h
    next hfits =>
    have hend : search + n ≤ MMAP_END := searchFrom_end (by
      simp only [pageDown, PAGE_SIZE, sub64, MMAP_START, MMAP_END] at *
      omega) h
    rw [add64_eq (by simp only [MMAP_END] at *; omega)]
    omega

theorem UnderFloor.mmap {ofile : ℕ → Option OpenFile}
    (hfresh : ∀ r, alloc = some r → r ∉ s.list) : (s.mmap ofile alloc a).2.UnderFloor := by
  have hres := mmap_result s ofile alloc a
  generalize s.mmap ofile alloc a = res at hres
  cases hres with
  | invalid | noPlace | noStruct => exact hs
  | rejected n search r file s' hn hplace hr hno hslot hlist hrest =>
    exact hs.congr hlist (fun i hi => hslot i fun he => hfresh r hr (he ▸ hi)) hrest.2.2
  | mapped n search r file s' hn hplace hr hslot hlist hrest =>
    obtain ⟨hle, hend⟩ := place_under_floor hs hplace
    have hmapped := mapped_of_insert hs.ordered (hfresh r hr) hle hslot hlist
    have hfloor := stackFloor_eq hrest.2.2
    have htop : s.stackFloor ≤ USER_STACK_TOP := Nat.sub_le ..
    have hcases {i : ℕ} (hi : i ∈ s'.list) := mem_cons.mp (hmapped.perm.mem_iff.mp hi)
    refine ⟨⟨hmapped.ordered, fun i hi => ?_⟩, hfloor ▸ hs.window, fun i hi htype => ?_,
      fun i hi htype => ?_⟩
    · rcases hcases hi with rfl | hi
      · rw [hmapped.new]
        exact (hend.trans htop).trans_lt (by decide)
      · rw [hmapped.old i hi]
        exact hs.bound i hi
    · rw [hfloor]
      rcases hcases hi with rfl | hi
      · rw [hmapped.new]
        exact hend
      · rw [hmapped.old i hi] at htype ⊢
        exact hs.below i hi htype
    · rcases hcases hi with rfl | hi
      · rw [hmapped.new] at htype
        cases file <;> cases htype
      · rw [hmapped.old i hi] at htype ⊢
        exact hs.aligned i hi htype

theorem UnderFloor.setEnd {h new : ℕ} (hstart : h ∈ s.list → (s.slot h).start ≤ new)
    (hwin : new ≤ max (s.slot h).fin MMAP_START)
    (habove : ∀ i ∈ s.list, i ≠ h → (s.slot h).fin ≤ (s.slot i).start → new ≤ (s.slot i).start) :
    (s.setEnd h new).UnderFloor := by
  have hself : (s.setEnd h new).slot h = { s.slot h with fin := new } := Function.update_self ..
  have hrest (i : ℕ) (hi : i ≠ h) :
    (s.setEnd h new).slot i = s.slot i := Function.update_of_ne hi ..
  by_cases hmem : h ∈ s.list
  · obtain ⟨l₁, l₂, hlist⟩ := append_of_mem hmem
    have hfloor : MMAP_START ≤ s.stackFloor := (by decide : MMAP_START ≤ MMAP_END).trans hs.window
    refine ⟨⟨?_, fun i hi => ?_⟩, hs.window, fun i hi htype => ?_, fun i hi htype => ?_⟩
    · change Ordered (Function.update s.slot h _) s.list
      have hord := hs.ordered
      rw [hlist] at hord ⊢
      obtain ⟨hp₁, hp₂, hcross⟩ := pairwise_append.mp hord.apart
      have hhead := (pairwise_cons.mp hp₂).1
      have hh := (nodup_cons.mp (nodup_append.mp hord.nodup).2.1).1
      refine hord.resize (hstart hmem) (fun i hi => hcross i hi h mem_cons_self) fun j hj => ?_
      refine habove j ?_ (fun he => hh (he ▸ hj)) (hhead j hj)
      rw [hlist]
      exact mem_append_right _ (mem_cons_of_mem _ hj)
    all_goals by_cases hne : i = h
    · have := hs.bound h hmem
      rw [hne, hself]
      refine hwin.trans_lt (max_lt this (by decide))
    · rw [hrest i hne]
      exact hs.bound i hi
    · rw [hne, hself] at htype ⊢
      exact hwin.trans (max_le (hs.below h hmem htype) hfloor)
    · rw [hrest i hne] at htype ⊢
      exact hs.below i hi htype
    · rw [hne, hself] at htype ⊢
      exact hs.aligned h hmem htype
    · rw [hrest i hne] at htype ⊢
      exact hs.aligned i hi htype
  · exact hs.congr rfl (fun i hi => hrest i fun he => hmem (he ▸ hi)) rfl

theorem UnderFloor.sbrk (hwrap : s.NoWrap incr) : (s.sbrk incr).2.UnderFloor := by
  have hres := sbrk_result s incr
  generalize s.sbrk incr = res at hres
  cases hres with
  | failed | same => exact hs
  | grown h new hh hpos hnew hold hceil =>
    refine hs.setEnd (fun hmem => (hs.ordered.le h hmem).trans hold) ?_ fun i hi hne hfin => ?_
    · exact (hceil.trans (ceiling_le s _ _).1).trans (Nat.le_max_right ..)
    · exact hceil.trans ((ceiling_le s _ _).2 i hi hne hfin)
  | shrunk h new hh hneg hnew hstart =>
    have hsum := hwrap h hh
    have hle : new ≤ (s.slot h).fin := by omega
    have hunmap : (s.uvmunmapRange (pageRoundUp new) (pageRoundUp (s.slot h).fin)).UnderFloor :=
      hs.congr rfl (fun _ _ => rfl) rfl
    exact hunmap.setEnd (fun _ => hstart) (hle.trans (Nat.le_max_left ..)) fun i hi hne hfin =>
      hle.trans hfin

theorem UnderFloor.setrlimit {cur max : ℕ}
    (hwin : MMAP_END ≤ ({ s with stackMax := cur } : Space).stackFloor)
    (hbelow : ∀ i ∈ s.list, (s.slot i).type ≠ .stack →
    (s.slot i).fin ≤ ({ s with stackMax := cur } : Space).stackFloor) :
    (s.setrlimit cur max).2.UnderFloor := by
  unfold Space.setrlimit
  split
  · exact hs
  · exact ⟨⟨hs.ordered, hs.bound⟩, hwin, hbelow, hs.aligned⟩

end

/-! ## Runs -/

/-- The calls, and faulting accesses with the page table the handler leaves. -/
inductive VmCall
  | setrlimit (cur max : ℕ)
  | mmap (ofile : ℕ → Option OpenFile) (alloc : Option ℕ) (a : MmapArgs)
  | sbrk (incr : ℤ)
  | munmap (alloc : Option ℕ) (addr len : ℕ)
  | fault (stval : ℕ) (pte : ℕ → Option Pte)

/-- The rest of `user_page_fault` works on pages; the list keeps the growth even if the
access is refused. -/
def fault (s : Space) (stval : ℕ) (pte : ℕ → Option Pte) : Space :=
  match s.growStack stval with
  | none => s
  | some (_, t) => { t with pte := pte }

def vmStep (s : Space) : VmCall → Space → Prop
  | .setrlimit cur max, s' => (s.setrlimit cur max).2 = s'
  | .mmap ofile alloc a, s' => (s.mmap ofile alloc a).2 = s'
  | .sbrk incr, s' => (s.sbrk incr).2 = s'
  | .munmap alloc addr len, s' => (s.munmap alloc addr len).2 = s'
  | .fault stval pte, s' => s.fault stval pte = s'

/-- The slab gives structs that are not in use. A new stack limit leaves the floor above the
window and above the end of every VMA that is no stack; `sbrk` and `munmap` do not wrap. -/
def VmCareful (s : Space) : VmCall → Prop
  | .setrlimit cur _ => MMAP_END ≤ ({ s with stackMax := cur } : Space).stackFloor ∧
      ∀ i ∈ s.list, (s.slot i).type ≠ .stack →
        (s.slot i).fin ≤ ({ s with stackMax := cur } : Space).stackFloor
  | .mmap _ alloc _ => ∀ r, alloc = some r → r ∉ s.list
  | .sbrk incr => s.NoWrap incr
  | .munmap alloc addr len => (∀ r, alloc = some r → r ∉ s.list) ∧ addr + wholePages len < 2 ^ 64
  | .fault _ _ => True

/-- The list stays sorted and disjoint, and growth stays above the limit and clear of the
pages of other VMAs. -/
theorem stack_growth_clear (s₀ s : Space) (hs : s₀.UnderFloor)
    (hrun : Reaches vmStep VmCareful s₀ s) :
    s.WellFormed ∧ ∀ stval sv s', s.growStack stval = some (sv, s') → GrowsClear s s' sv := by
  have hinv : s.UnderFloor := by
    refine hrun.invariant (I := UnderFloor) hs fun t c u ht hok hstep => ?_
    cases c with
    | setrlimit cur max => exact hstep ▸ ht.setrlimit hok.1 hok.2
    | mmap ofile alloc a => exact hstep ▸ ht.mmap hok
    | sbrk incr => exact hstep ▸ ht.sbrk hok
    | munmap alloc addr len => exact hstep ▸ ht.munmap hok.1 hok.2
    | fault stval pte =>
      cases hstep
      unfold fault
      split
      · exact ht
      next hg => exact (ht.grow hg).2.congr rfl (fun _ _ => rfl) rfl
  exact ⟨hinv.toWellFormed, fun stval sv s' hg => (hinv.grow hg).1⟩

theorem fresh_underFloor : fresh.UnderFloor :=
  ⟨⟨⟨by decide, by decide, by decide⟩, by decide⟩, by decide, by decide, by decide⟩

def threePagesAnon : MmapArgs :=
  ⟨0, 3 * PAGE_SIZE, ⟨true, true, false⟩, ⟨true, false, false, true⟩, -1, 0⟩

/-- The limit is lowered to 1 MiB, three pages are mapped and the middle one is unmapped. -/
def settled : Space :=
  (((fresh.setrlimit 0x100000 0x800000).2.mmap (fun _ => none) (some 3) threePagesAnon).2.munmap
    (some 4)
    (MMAP_END - 2 * PAGE_SIZE) 1).2

/-- Then the stack grows by a page. -/
theorem stack_growth_clear_fresh : ∃ s',
    settled.list = [0, 1, 3, 4, 2] ∧ settled.growStack (USER_STACK_TOP - PAGE_SIZE - 8) =
      some (2, s') ∧
    GrowsClear settled s' 2 ∧ (s'.slot 2).start = USER_STACK_TOP - 2 * PAGE_SIZE := by
  have hlimit : VmCareful fresh (.setrlimit 0x100000 0x800000) := ⟨by decide, by decide⟩
  have hmap : VmCareful (fresh.setrlimit 0x100000 0x800000).2
      (.mmap (fun _ => none) (some 3) threePagesAnon) := by
    rintro _ ⟨⟩
    decide
  have hunmap : VmCareful ((fresh.setrlimit 0x100000 0x800000).2.mmap (fun _ => none) (some 3)
      threePagesAnon).2 (.munmap (some 4) (MMAP_END - 2 * PAGE_SIZE) 1) := by
    refine ⟨?_, by decide⟩
    rintro _ ⟨⟩
    decide +kernel
  have hrun : Reaches vmStep VmCareful fresh settled :=
    ((Reaches.single hlimit rfl).tail hmap rfl).tail hunmap rfl
  obtain ⟨⟨sv, s'⟩, hgrow⟩ : ∃ x, settled.growStack (USER_STACK_TOP - PAGE_SIZE - 8) = some x :=
    Option.isSome_iff_exists.mp (by decide +kernel)
  have hstart : (settled.growStack (USER_STACK_TOP - PAGE_SIZE - 8)).map
      (fun x => (x.1, (x.2.slot 2).start)) = some (2, USER_STACK_TOP - 2 * PAGE_SIZE) := by
    decide +kernel
  rw [hgrow] at hstart
  obtain ⟨rfl, hstart⟩ := Prod.mk.inj (Option.some.inj hstart)
  exact ⟨s', by decide +kernel, hgrow, (stack_growth_clear fresh settled fresh_underFloor hrun).2
    _ _ _ hgrow,
    hstart⟩

/-- A page mapped at 192 GB, below the floor of the default limit. -/
def farPage : MmapArgs :=
    ⟨0x3000000000, PAGE_SIZE, ⟨true, true, false⟩, ⟨true, false, true, true⟩, -1, 0⟩

/-- When the limit is raised after that, an access below the page makes the stack cover it. -/
theorem stack_grows_over_mapping :
    let s₁ := (fresh.mmap (fun _ => none) (some 3) farPage).2
    let s₂ := (s₁.setrlimit RLIM_INFINITY RLIM_INFINITY).2
    let s₃ := s₂.fault 0x2FFFFFFFF8 (fun _ => none)
    fresh.WellFormed ∧ (s₃.slot 2).Has 0x3000000000 ∧ (s₃.slot 3).Has 0x3000000000 ∧ 2 ∈ s₃.list ∧
      3 ∈ s₃.list ∧
      ¬ s₃.WellFormed := by
  have h2 : ((((fresh.mmap (fun _ => none) (some 3) farPage).2.setrlimit RLIM_INFINITY
    RLIM_INFINITY).2.fault 0x2FFFFFFFF8
    (fun _ => none)).slot 2).Has 0x3000000000 := by decide +kernel
  have h3 : ((((fresh.mmap (fun _ => none) (some 3) farPage).2.setrlimit RLIM_INFINITY
    RLIM_INFINITY).2.fault 0x2FFFFFFFF8
    (fun _ => none)).slot 3).Has 0x3000000000 := by decide +kernel
  have hlist : (((fresh.mmap (fun _ => none) (some 3) farPage).2.setrlimit RLIM_INFINITY
    RLIM_INFINITY).2.fault 0x2FFFFFFFF8
    (fun _ => none)).list = [0, 1, 3, 2] := by decide +kernel
  refine ⟨fresh_underFloor.toWellFormed, h2, h3, by rw [hlist]; decide, by rw [hlist]; decide,
    fun hwf => ?_⟩
  exact absurd (hwf.ordered.has_unique (by rw [hlist]; decide) (by rw [hlist]; decide) h2 h3)
    (by decide)

end Space

end Sbunix.Vm
