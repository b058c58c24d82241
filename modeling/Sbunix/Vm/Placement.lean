import Sbunix.Vm.Unmap

/-!
# Where `mmap` places a mapping

The search goes down from the end of the window and jumps below the first VMA it
overlaps. Every free place lies at or below the place looked at, and each jump passes
a VMA for good; so the search ends at the highest free place, or there is none. An
empty VMA is in the way of both tests, the one of the search and the one of
`vma_insert`, though it covers nothing: it must not start in the place to be found.
-/

namespace Sbunix.Vm

open Lib List Function

variable {r : ℕ} {v : Vma}

namespace Space

variable {s s' : Space} {alloc : Option ℕ} {a : MmapArgs} {len search p q : ℕ} {file : Option ℕ}

/-- A page-aligned range of the window that no VMA covers a part of. -/
structure Free (s : Space) (p len : ℕ) : Prop where
  aligned : p % PAGE_SIZE = 0
  low : MMAP_START ≤ p
  high : p + len ≤ MMAP_END
  uncovered : ∀ va, p ≤ va → va < p + len → ¬ s.Covers va

/-- The highest free place. -/
structure Highest (s : Space) (p len : ℕ) : Prop extends Free s p len where
  best : ∀ q, s.Free q len → q ≤ p

/-- No VMA starts in the highest free place; only an empty one could. -/
def NoEmpty (s : Space) (len : ℕ) : Prop :=
  ∀ p, s.Highest p len → ∀ i ∈ s.list, ¬ (p ≤ (s.slot i).start ∧ (s.slot i).start < p + len)

theorem Free.exists_highest (h : s.Free q len) : ∃ p, s.Highest p len ∧ q ≤ p := by
  have hbdd : BddAbove {p | s.Free p len} :=
    ⟨MMAP_END, fun p hp => (Nat.le_add_right ..).trans hp.high⟩
  exact ⟨_, ⟨Nat.sSup_mem ⟨q, h⟩ hbdd, fun q hq => le_csSup hbdd hq⟩, le_csSup hbdd h⟩

theorem Free.not_overlap (h : s.Free p len) {i : ℕ} (hi : i ∈ s.list)
    (hne : (s.slot i).start < (s.slot i).fin)
    (hlen : 0 < len) : p + len ≤ (s.slot i).start ∨ (s.slot i).fin ≤ p := by
  by_contra hno
  exact h.uncovered (max p (s.slot i).start) (by omega) (by omega) ⟨i, hi, by constructor <;> omega⟩

def ahead (s : Space) (top : ℕ) : Finset ℕ := s.list.toFinset.filter fun i => (s.slot i).start < top

theorem ahead_lt {top top' v : ℕ} (hv : v ∈ s.list) (hle : top' ≤ (s.slot v).start)
    (hlt : (s.slot v).start < top) :
    (s.ahead top').card < (s.ahead top).card := by
  refine Finset.card_lt_card ⟨fun i hi => ?_, fun hsub => ?_⟩
  · rw [ahead, Finset.mem_filter] at hi ⊢
    exact ⟨hi.1, by omega⟩
  · have := Finset.mem_filter.mp (hsub (Finset.mem_filter.mpr ⟨mem_toFinset.mpr hv, hlt⟩))
    omega

/-- What the search returns: the highest free place, or that there is none. -/
inductive Found (s : Space) (len : ℕ) : Except ℤ ℕ → Prop
  | place (p : ℕ) (hfree : s.Free p len) (hover : ∀ i ∈ s.list, ¬ (s.slot i).Overlaps p len)
      (hbest : ∀ q, s.Free q len → q ≤ p) : Found s len (.ok p)
  | none (hno : ∀ q, ¬ s.Free q len) : Found s len (.error ENOMEM)

theorem searchFrom_found (hs : s.NoEmpty len) (hpos : 0 < len)
    (hpage : len % PAGE_SIZE = 0) {fuel : ℕ}
    (halign : search % PAGE_SIZE = 0) (hend : search + len ≤ MMAP_END)
    (hbest : ∀ q, s.Free q len → q ≤ search)
    (hfuel : (s.ahead (search + len)).card < fuel) :
    Found s len (s.searchFrom len fuel search) := by
  induction fuel generalizing search with
  | zero => omega
  | succ fuel ih =>
    have hsum : add64 search len = search + len := add64_eq (by simp only [MMAP_END] at *; omega)
    have hlow : add64 MMAP_START len = MMAP_START + len :=
      add64_eq (by simp only [MMAP_START, MMAP_END] at *; omega)
    rw [searchFrom]
    split
    next hbelow => exact .none fun q hq => absurd (hbest q hq) (by have := hq.low; omega)
    next hstart =>
    cases hfind : s.list.find? fun i => (s.slot i).Overlaps search len with
    | none =>
      have hover : ∀ i ∈ s.list, ¬ (s.slot i).Overlaps search len := by simpa using hfind
      refine .place search ⟨halign, Nat.not_lt.mp hstart, hend, ?_⟩ hover hbest
      rintro va hlo hhi ⟨i, hi, hstart, hfin⟩
      exact hover i hi ⟨by omega, by omega⟩
    | some v =>
      have hv : v ∈ s.list := mem_of_find?_eq_some hfind
      obtain ⟨hvfin, hvstart⟩ : (s.slot v).Overlaps search len := by simpa using find?_some hfind
      rw [hsum] at hvstart
      -- a free place lies below `v`
      have hbelow (q : ℕ) (hq : s.Free q len) : q + len ≤ (s.slot v).start := by
        obtain ⟨p, hp, hqp⟩ := hq.exists_highest
        have hps := hbest p hp.toFree
        by_cases hne : (s.slot v).start < (s.slot v).fin
        · have := hp.not_overlap hv hne hpos
          omega
        · have := hs p hp v hv
          omega
      dsimp only
      rw [hlow]
      split
      next hfull => exact .none fun q hq => absurd (hbelow q hq) (by have := hq.low; omega)
      next hroom =>
        have hsub : sub64 (s.slot v).start len = (s.slot v).start - len := by
          simp only [sub64, MMAP_END] at *
          omega
        rw [hsub]
        refine ih ?_ ?_ (fun q hq => ?_) ?_
        · exact Nat.mul_mod_left ..
        · simp only [pageDown, PAGE_SIZE] at *
          omega
        · have hqv := hbelow q hq
          have hqa := hq.aligned
          simp only [pageDown, PAGE_SIZE] at *
          omega
        · have : (s.ahead (pageDown ((s.slot v).start - len) + len)).card <
              (s.ahead (search + len)).card :=
            ahead_lt hv (by simp only [pageDown, PAGE_SIZE] at *; omega) hvstart
          omega

theorem searchPlace_found (hs : s.NoEmpty len) (hpos : 0 < len) (hpage : len % PAGE_SIZE = 0) :
    Found s len (s.searchPlace len) := by
  unfold searchPlace
  split
  next hlong => exact .none fun q hq => absurd hq.high (by have := hq.low; omega)
  next hfits =>
    have hsub : sub64 MMAP_END len = MMAP_END - len := by
      simp only [sub64, MMAP_END] at *
      omega
    rw [hsub]
    refine searchFrom_found hs hpos hpage (Nat.mul_mod_left ..) ?_ (fun q hq => ?_) ?_
    · simp only [pageDown, PAGE_SIZE, MMAP_END, MMAP_START] at *
      omega
    · have hqa := hq.aligned
      have hqh := hq.high
      simp only [pageDown, PAGE_SIZE, MMAP_END] at *
      omega
    · exact Nat.lt_succ_of_le ((Finset.card_filter_le ..).trans (toFinset_card_le _))

/-! ## The call -/

theorem put_get (s : Space) (file : Option ℕ) : (s.inodeGetOpt file).inodePutOpt file = s := by
  cases file with
  | none => rfl
  | some ip => simp [inodeGetOpt, inodeGet, inodePutOpt, inodePut]

theorem inodeGetOpt_slot (s : Space) (file : Option ℕ) :
    (s.inodeGetOpt file).slot = s.slot := by rw [inodeGetOpt_eq]

theorem inodeGetOpt_list (s : Space) (file : Option ℕ) :
    (s.inodeGetOpt file).list = s.list := by rw [inodeGetOpt_eq]

/-- The list is in order and holds the mapping besides what it held. -/
structure Mapped (s s' : Space) (r : ℕ) (v : Vma) : Prop where
  ordered : Ordered s'.slot s'.list
  perm : s'.list.Perm (r :: s.list)
  new : s'.slot r = v
  old : ∀ i ∈ s.list, s'.slot i = s.slot i

theorem Mapped.covers (h : Mapped s s' r v) (va : ℕ) : s'.Covers va ↔ s.Covers va ∨ v.Has va := by
  constructor
  · rintro ⟨i, hi, hhas⟩
    rcases mem_cons.mp (h.perm.mem_iff.mp hi) with rfl | hi
    · exact .inr (h.new ▸ hhas)
    · exact .inl ⟨i, hi, h.old i hi ▸ hhas⟩
  · rintro (⟨i, hi, hhas⟩ | hhas)
    · exact ⟨i, h.perm.mem_iff.mpr (mem_cons_of_mem _ hi), (h.old i hi).symm ▸ hhas⟩
    · exact ⟨r, h.perm.mem_iff.mpr mem_cons_self, h.new.symm ▸ hhas⟩

def place (s : Space) (a : MmapArgs) (len : ℕ) : Except ℤ ℕ :=
  if a.flags.fixed then s.fixedPlace a.addr len else s.searchPlace len

theorem searchFrom_congr (hslot : s'.slot = s.slot) (hlist : s'.list = s.list)
    (len fuel search : ℕ) :
    s'.searchFrom len fuel search = s.searchFrom len fuel search := by
  induction fuel generalizing search with
  | zero => rfl
  | succ fuel ih =>
    rw [searchFrom, searchFrom, hslot, hlist]
    split
    · rfl
    split
    · rfl
    · split
      · rfl
      · exact ih _

theorem place_inodeGetOpt (s : Space) (file : Option ℕ) (a : MmapArgs) (len : ℕ) :
    (s.inodeGetOpt file).place a len = s.place a len := by
  have hsearch : (s.inodeGetOpt file).searchPlace len = s.searchPlace len := by
    rw [searchPlace, searchPlace, inodeGetOpt_list,
      searchFrom_congr (inodeGetOpt_slot ..) (inodeGetOpt_list ..)]
  have hfixed : (s.inodeGetOpt file).fixedPlace a.addr len = s.fixedPlace a.addr len := by
    rw [inodeGetOpt_eq]
    rfl
  rw [place, place, hsearch, hfixed]

/-- How a call of `mmap` can end. -/
inductive MmapResult (s : Space) (ofile : ℕ → Option OpenFile) (alloc : Option ℕ) (a : MmapArgs) :
    ℤ × Space → Prop
  | invalid (e : ℤ) (he : a.checkLen = .error e ∨ a.checkFile ofile = .error e) :
    MmapResult s ofile alloc a (-e, s)
  | noPlace (len : ℕ) (e : ℤ) (hlen : a.checkLen = .ok len) (he : s.place a len = .error e) :
      MmapResult s ofile alloc a (-e, s)
  | noStruct (hnone : alloc = none) : MmapResult s ofile alloc a (-ENOMEM, s)
  | rejected (len search r : ℕ) (file : Option ℕ) (s' : Space) (hlen : a.checkLen = .ok len)
      (hplace : s.place a len = .ok search) (hr : alloc = some r)
      (hno : insertFrom (update s.slot r (a.vma file search len)) r none s.list = none)
      (hslot : ∀ i, i ≠ r → s'.slot i = s.slot i) (hlist : s'.list = s.list)
      (hrest : s'.pte = s.pte ∧ s'.heap = s.heap ∧ s'.stackMax = s.stackMax) :
      MmapResult s ofile alloc a (-EINVAL, s')
  | mapped (len search r : ℕ) (file : Option ℕ) (s' : Space) (hlen : a.checkLen = .ok len)
      (hplace : s.place a len = .ok search) (hr : alloc = some r)
      (hslot : s'.slot = update s.slot r (a.vma file search len))
      (hlist : insertFrom s'.slot r none s.list = some s'.list)
      (hrest : s'.pte = s.pte ∧ s'.heap = s.heap ∧ s'.stackMax = s.stackMax) :
      MmapResult s ofile alloc a (search, s')

theorem mmap_result (s : Space) (ofile : ℕ → Option OpenFile) (alloc : Option ℕ) (a : MmapArgs) :
    MmapResult s ofile alloc a (s.mmap ofile alloc a) := by
  unfold mmap
  cases hlen : a.checkLen with
  | error e => exact .invalid e (.inl hlen)
  | ok len =>
  dsimp only
  cases hfile : a.checkFile ofile with
  | error e => exact .invalid e (.inr hfile)
  | ok file =>
  dsimp only [mmapAt]
  have hplace := place_inodeGetOpt s file a len
  rw [place] at hplace
  rw [hplace]
  cases hp : s.place a len with
  | error e =>
    dsimp only
    rw [put_get]
    exact .noPlace len e hlen hp
  | ok search =>
  cases alloc with
  | none =>
    dsimp only
    rw [put_get]
    exact .noStruct rfl
  | some r =>
    have hslot (v : Vma) : update (update s.slot r Vma.zero) r v = update s.slot r v :=
      update_idem ..
    dsimp only [vmaInsert, setVma, vmaAlloc, vmaFree]
    rw [inodeGetOpt_eq]
    dsimp only
    rw [hslot]
    cases hins : insertFrom (update s.slot r (a.vma file search len)) r none s.list with
    | none =>
      dsimp only [Option.map_none]
      rw [inodePutOpt_eq]
      refine .rejected len search r file _ hlen hp rfl hins (fun i hi => ?_) rfl ⟨rfl, rfl, rfl⟩
      exact (update_of_ne hi ..).trans (update_of_ne hi ..)
    | some l =>
      exact .mapped len search r file _ hlen hp rfl rfl hins ⟨rfl, rfl, rfl⟩

theorem checkLen_ok {n : ℕ} (hlen : a.len < 2 ^ 64) (h : a.checkLen = .ok n) :
    n = wholePages a.len ∧ 0 < n ∧ n % PAGE_SIZE = 0 := by
  unfold MmapArgs.checkLen at h
  split_ifs at h with h0 hwrap
  cases h
  have hround : a.len + (PAGE_SIZE - 1) < 2 ^ 64 := by
    by_contra hno
    rw [pageRoundUp_wrap (Nat.not_lt.mp hno) hlen] at hwrap
    omega
  rw [pageRoundUp_eq hround]
  refine ⟨rfl, ?_, Nat.mul_mod_left ..⟩
  simp only [wholePages, PAGE_SIZE]
  omega

theorem mmap_inserts (hs : Ordered s.slot s.list) (hr : r ∉ s.list) (hv : v.start < v.fin)
    (hover : ∀ i ∈ s.list, ¬ (v.start < (s.slot i).fin ∧ (s.slot i).start < v.fin))
    (hstart : ∀ i ∈ s.list, (s.slot i).start = v.start → (s.slot i).start < (s.slot i).fin) :
    (insertFrom (update s.slot r v) r none s.list).isSome := by
  refine insertFrom_isSome (fun j hj => ?_) (by simp)
  have hjr : j ≠ r := fun he => hr (he ▸ hj)
  rw [update_self, update_of_ne hjr]
  have := hover j hj
  have := hstart j hj
  have := hs.le j hj
  omega

theorem mapped_of_insert (hs : Ordered s.slot s.list) (hr : r ∉ s.list) (hv : v.start ≤ v.fin)
    (hslot : s'.slot = update s.slot r v)
    (hlist : insertFrom s'.slot r none s.list = some s'.list) :
    Mapped s s' r v := by
  have hnew : s'.slot r = v := by rw [hslot, update_self]
  have hold (i : ℕ) (hi : i ∈ s.list) : s'.slot i = s.slot i := by
    have hne : i ≠ r := fun he => hr (he ▸ hi)
    rw [hslot, update_of_ne hne]
  refine ⟨(Ordered.insertFrom (hs.shrink fun i hi => ?_) hr (hnew ▸ hv) (by simp) hlist).1,
    insertFrom_perm hlist, hnew, hold⟩
  rw [hold i hi]
  exact ⟨Nat.le_refl _, Nat.le_refl _, hs.le i hi⟩

/-- What a placement without `MAP_FIXED` is to do. -/
inductive Placed (s : Space) (ofile : ℕ → Option OpenFile) (alloc : Option ℕ) (a : MmapArgs)
    (s' : Space) : ℤ → Prop
  | placed (p : ℕ) (hfree : s.Free p (wholePages a.len))
    (hbest : ∀ q, s.Free q (wholePages a.len) → q ≤ p)
      (hcovers : ∀ va, s'.Covers va ↔ s.Covers va ∨ p ≤ va ∧ va < p + wholePages a.len) :
        Placed s ofile alloc a s' p
  | noSpace (hsame : s' = s) (hno : ∀ q, ¬ s.Free q (wholePages a.len)) :
    Placed s ofile alloc a s' (-ENOMEM)
  | noStruct (hsame : s' = s) (hnone : alloc = none) : Placed s ofile alloc a s' (-ENOMEM)
  | invalid (e : ℤ) (hsame : s' = s) (he : a.checkLen = .error e ∨ a.checkFile ofile = .error e) :
      Placed s ofile alloc a s' (-e)

theorem mmap_invalid (s : Space) {ofile : ℕ → Option OpenFile} (alloc : Option ℕ)
    (h : ∃ e, a.checkLen = .error e ∨ a.checkFile ofile = .error e) :
    ∃ e, (a.checkLen = .error e ∨ a.checkFile ofile = .error e) ∧
      s.mmap ofile alloc a = (-e, s) := by
  unfold mmap
  obtain ⟨e, he⟩ := h
  cases hlen : a.checkLen with
  | error e' => exact ⟨e', .inl rfl, rfl⟩
  | ok n =>
    rw [hlen] at he
    have hfile := he.resolve_left nofun
    exact ⟨e, .inr hfile, by rw [hfile]⟩

theorem searchPlace_error {e : ℤ} (h : s.searchPlace len = .error e) : e = ENOMEM := by
  have hfrom : ∀ fuel search, s.searchFrom len fuel search = .error e → e = ENOMEM := by
    intro fuel
    induction fuel with
    | zero =>
      rintro search ⟨⟩
      rfl
    | succ fuel ih =>
      intro search h
      rw [searchFrom] at h
      split at h
      · cases h
        rfl
      split at h
      · cases h
      split at h
      · cases h
        rfl
      · exact ih _ h
  unfold searchPlace at h
  split at h
  · cases h
    rfl
  · exact hfrom _ _ h

theorem insertFrom_clear {slot : ℕ → Vma} {l l' : List ℕ} {v : ℕ} {prev : Option ℕ}
    (h : Ordered slot l)
    (he : insertFrom slot v prev l = some l') :
    ∀ j ∈ l, ¬ ((slot v).start ≤ (slot j).start ∧ (slot j).start < (slot v).fin) := by
  induction l generalizing prev l' with
  | nil => exact nofun
  | cons j l ih =>
    rw [insertFrom] at he
    split_ifs at he with hlt hge hprev
    · obtain ⟨l₁, hl₁, -⟩ := Option.map_eq_some_iff.mp he
      rintro k (_ | ⟨_, hk⟩)
      · omega
      · exact ih h.tail hl₁ k hk
    · have hle := h.le j mem_cons_self
      rintro k (_ | ⟨_, hk⟩)
      · omega
      · have := h.head k hk
        omega

/-- The placement is the highest free one exactly if no empty VMA starts in that; a call with
invalid arguments, or without a struct for the VMA, fails as it should. -/
theorem mmap_placed_highest (s : Space) (ofile : ℕ → Option OpenFile) (alloc : Option ℕ)
    (a : MmapArgs)
    (hs : s.WellFormed) (hfresh : ∀ r, alloc = some r → r ∉ s.list) (hlen : a.len < 2 ^ 64)
    (hfixed : a.flags.fixed = false) :
    Placed s ofile alloc a (s.mmap ofile alloc a).2 (s.mmap ofile alloc a).1 ∧
        (s.mmap ofile alloc a).2.WellFormed ↔
      (∃ e, a.checkLen = .error e ∨ a.checkFile ofile = .error e) ∨ alloc = none ∨
        s.NoEmpty (wholePages a.len) := by
  have hplace_eq (n : ℕ) : s.place a n = s.searchPlace n := by simp [place, hfixed]
  by_cases hargs : ∃ e, a.checkLen = .error e ∨ a.checkFile ofile = .error e
  · obtain ⟨e, he, hinv⟩ := mmap_invalid s alloc hargs
    rw [hinv]
    exact iff_of_true ⟨.invalid e rfl he, hs⟩ (.inl hargs)
  have hres := mmap_result s ofile alloc a
  generalize s.mmap ofile alloc a = res at hres
  by_cases hnone : alloc = none
  · refine iff_of_true ?_ (.inr (.inl hnone))
    cases hres with
    | invalid e he => exact absurd ⟨e, he⟩ hargs
    | noStruct => exact ⟨.noStruct rfl hnone, hs⟩
    | noPlace n e _ he =>
      obtain rfl := searchPlace_error ((hplace_eq n).symm.trans he)
      exact ⟨.noStruct rfl hnone, hs⟩
    | rejected _ _ _ _ _ _ _ hr | mapped _ _ _ _ _ _ _ hr => cases hnone.symm.trans hr
  rw [or_iff_right hargs, or_iff_right hnone]
  -- such a call cannot fail for its arguments, nor for want of a struct
  have hplaced {x : ℤ} {s' : Space} (h : Placed s ofile alloc a s' x) :
      (∃ p : ℕ, x = p ∧ s.Highest p (wholePages a.len)) ∨
        x = -ENOMEM ∧ s' = s ∧ ∀ q, ¬ s.Free q (wholePages a.len) := by
    cases h with
    | placed p hfree hbest => exact .inl ⟨p, rfl, hfree, hbest⟩
    | noSpace hsame hno => exact .inr ⟨rfl, hsame, hno⟩
    | noStruct _ h => exact absurd h hnone
    | invalid e _ he => exact absurd ⟨e, he⟩ hargs
  have hneg : ∀ p : ℕ, -ENOMEM ≠ (p : ℤ) ∧ -EINVAL ≠ (p : ℤ) := by
    intro p
    unfold ENOMEM EINVAL
    omega
  cases hres with
  | invalid e he => exact absurd ⟨e, he⟩ hargs
  | noStruct h => exact absurd h hnone
  | noPlace n e hn he =>
    obtain ⟨rfl, hpos, hpage⟩ := checkLen_ok hlen hn
    constructor
    · rintro ⟨h, -⟩ p hp
      rcases hplaced h with ⟨p, hx, -⟩ | ⟨-, -, hno⟩
      · obtain rfl := searchPlace_error ((hplace_eq _).symm.trans he)
        exact absurd hx (hneg p).1
      · exact absurd hp.toFree (hno p)
    · intro hempty
      have hfound := searchPlace_found hempty hpos hpage
      rw [← hplace_eq, he] at hfound
      cases hfound with
      | none hno => exact ⟨.noSpace rfl hno, hs⟩
  | rejected n search r file s' hn hplace hr hno =>
    obtain ⟨rfl, hpos, hpage⟩ := checkLen_ok hlen hn
    constructor
    · rintro ⟨h, -⟩
      rcases hplaced h with ⟨p, hx, -⟩ | ⟨hx, -⟩
      · exact absurd hx (hneg p).2
      · cases hx
    intro hempty
    have hfound := searchPlace_found hempty hpos hpage
    rw [← hplace_eq, hplace] at hfound
    cases hfound with
    | place _ hfree hover hbest =>
    have hhigh := hfree.high
    have hfin : add64 search (wholePages a.len) = search + wholePages a.len :=
      add64_eq (by simp only [MMAP_END] at *; omega)
    have hins := mmap_inserts (v := a.vma file search (wholePages a.len)) hs.ordered (hfresh r hr)
      (by simp only [MmapArgs.vma, hfin]; omega) hover fun i hi he => by
        have he' : (s.slot i).start = search := he
        have := hempty search ⟨hfree, hbest⟩ i hi
        omega
    rw [hno] at hins
    cases hins
  | mapped n search r file s' hn hplace hr hslot hlist =>
    obtain ⟨rfl, hpos, hpage⟩ := checkLen_ok hlen hn
    constructor
    · rintro ⟨h, -⟩ p hp i hi hin
      rcases hplaced h with ⟨p', hx, hp'⟩ | ⟨hx, -⟩
      · obtain rfl : search = p' := Int.ofNat.inj hx
        obtain rfl : p = search := le_antisymm (hp'.best p hp.toFree) (hp.best search hp'.toFree)
        have hhigh := hp.high
        have hfin : (a.vma file p (wholePages a.len)).fin = p + wholePages a.len :=
          add64_eq (by simp only [MMAP_END] at *; omega)
        have hne : i ≠ r := fun he => hfresh r hr (he ▸ hi)
        have hold (i : ℕ) (hi : i ∈ s.list) : s'.slot i = s.slot i := by
          have hne : i ≠ r := fun he => hfresh r hr (he ▸ hi)
          rw [hslot, update_of_ne hne]
        have hord : Ordered s'.slot s.list := hs.ordered.shrink fun i hi => by
          rw [hold i hi]
          exact ⟨le_rfl, le_rfl, hs.ordered.le i hi⟩
        refine insertFrom_clear hord hlist i hi ?_
        rw [hold i hi, hslot, update_self, hfin]
        exact hin
      · exact absurd hx.symm (hneg search).1
    intro hempty
    have hfound := searchPlace_found hempty hpos hpage
    rw [← hplace_eq, hplace] at hfound
    cases hfound with
    | place _ hfree hover hbest =>
    have hhigh := hfree.high
    have hfin : (a.vma file search (wholePages a.len)).fin = search + wholePages a.len :=
      add64_eq (by simp only [MMAP_END] at *; omega)
    have hmapped := mapped_of_insert hs.ordered (hfresh r hr)
      (by rw [hfin]; exact Nat.le_add_right ..) hslot hlist
    refine ⟨.placed search hfree hbest fun va => ?_, hmapped.ordered, fun i hi => ?_⟩
    · rw [hmapped.covers, Vma.Has, hfin]
      rfl
    · rcases mem_cons.mp (hmapped.perm.mem_iff.mp hi) with rfl | hi
      · rw [hmapped.new, hfin]
        simp only [MMAP_END] at *
        omega
      · rw [hmapped.old i hi]
        exact hs.bound i hi

def onePage : MmapArgs := ⟨0, PAGE_SIZE, ⟨true, true, false⟩, ⟨true, false, false, true⟩, -1, 0⟩

/-- A page of text at the start of the window, with the heap, still empty, behind it. -/
def linkedLow : Space where
  slot := fun i =>
    match i with
    | 0 => ⟨MMAP_START, MMAP_START + PAGE_SIZE, ⟨true, false, true⟩, .anon, false, false, none, 0⟩
    | _ =>
      ⟨MMAP_START + PAGE_SIZE, MMAP_START + PAGE_SIZE, ⟨true, true, false⟩, .heap, false,
        false, none, 0⟩
  list := [0, 1]
  heap := some 1
  stackMax := 0x800000
  pte := fun _ => none
  refcnt := fun _ => 0

/-- The heap is not in the way at the end of the window. -/
theorem mmap_one_page :
    (linkedLow.mmap (fun _ => none) (some 2) onePage).1 = (MMAP_END - PAGE_SIZE : ℕ) ∧
    Placed linkedLow (fun _ => none) (some 2) onePage
      (linkedLow.mmap (fun _ => none) (some 2) onePage).2
      (linkedLow.mmap (fun _ => none) (some 2) onePage).1 := by
  have hfree : linkedLow.Free (MMAP_END - PAGE_SIZE) (wholePages onePage.len) := by
    refine ⟨by decide, by decide, by decide, fun va hlo _ ⟨i, hi, hhas⟩ => ?_⟩
    have hi : i = 0 ∨ i = 1 := by simpa [linkedLow] using hi
    rcases hi with rfl | rfl <;>
      simp only [Vma.Has, linkedLow, MMAP_START, MMAP_END, PAGE_SIZE] at hlo hhas <;> omega
  have hempty : linkedLow.NoEmpty (wholePages onePage.len) := by
    intro p hp i hi hin
    have hle := hp.best _ hfree
    have hi : i = 0 ∨ i = 1 := by simpa [linkedLow] using hi
    rcases hi with rfl | rfl <;>
      simp only [linkedLow, MMAP_START, MMAP_END, PAGE_SIZE] at hle hin <;> omega
  exact ⟨by decide +kernel, ((mmap_placed_highest linkedLow (fun _ => none) (some 2) onePage
    ⟨⟨by decide, by decide, by decide⟩, by decide⟩ (by decide) (by decide) rfl).mpr
    (.inr (.inr hempty))).1⟩

/-- A program that ends one page below the end of the window, with a heap that is still empty. -/
def linkedHigh : Space where
  slot := fun i =>
    match i with
    | 0 =>
      ⟨MMAP_END - 2 * PAGE_SIZE, MMAP_END - PAGE_SIZE, ⟨true, false, true⟩, .anon, false,
        false, none, 0⟩
    | 1 =>
      ⟨MMAP_END - PAGE_SIZE, MMAP_END - PAGE_SIZE, ⟨true, true, false⟩, .heap, false,
        false, none, 0⟩
    | _ =>
      ⟨USER_STACK_TOP - PAGE_SIZE, USER_STACK_TOP, ⟨true, true, false⟩, .stack, false,
        false, none, 0⟩
  list := [0, 1, 2]
  heap := some 1
  stackMax := 0x800000
  pte := fun _ => none
  refcnt := fun _ => 0

/-- The last page of the window is free, but the empty heap is in the way of `vma_insert`. -/
theorem mmap_at_empty_heap :
    linkedHigh.WellFormed ∧ linkedHigh.Free (MMAP_END - PAGE_SIZE) PAGE_SIZE ∧
    (linkedHigh.mmap (fun _ => none) (some 3) onePage).1 = -EINVAL ∧
    ¬ Placed linkedHigh (fun _ => none) (some 3) onePage
      (linkedHigh.mmap (fun _ => none) (some 3) onePage).2
      (linkedHigh.mmap (fun _ => none) (some 3) onePage).1 := by
  have hrc : (linkedHigh.mmap (fun _ => none) (some 3) onePage).1 = -EINVAL := by decide +kernel
  refine ⟨⟨⟨by decide, by decide, by decide⟩, by decide⟩,
    ⟨by decide, by decide, by decide, fun va hlo hhi => ?_⟩, hrc, ?_⟩
  · rintro ⟨i, hi, hhas⟩
    have hi : i = 0 ∨ i = 1 ∨ i = 2 := by simpa [linkedHigh] using hi
    rcases hi with rfl | rfl | rfl <;>
      simp only [Vma.Has, linkedHigh, MMAP_END, PAGE_SIZE, USER_STACK_TOP] at hlo hhi hhas <;> omega
  · generalize (linkedHigh.mmap (fun _ => none) (some 3) onePage).2 = s'
    rw [hrc]
    generalize hx : -EINVAL = x
    intro h
    cases h with
    | placed p => simp [EINVAL] at hx
    | noSpace => cases hx
    | noStruct _ hnone => cases hnone
    | invalid e _ he =>
      have hlen : onePage.checkLen = .ok PAGE_SIZE := by
        simp [MmapArgs.checkLen, onePage, pageRoundUp, pageDown, add64, PAGE_SIZE]
      have hfile : onePage.checkFile (fun _ => none) = .ok none := by
        simp [MmapArgs.checkFile, onePage]
      rw [hlen, hfile] at he
      rcases he with he | he <;> cases he

end Space

end Sbunix.Vm
