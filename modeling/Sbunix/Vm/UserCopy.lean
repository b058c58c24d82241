import Sbunix.Vm.Fault

/-!
# User copies and the accesses of the process

`copyin` and `copyout` walk the page table page by page. On pages that are present and
readable, or writable, they do what the loads and stores of the process do: `copyout` takes
the write fault of a copy-on-write or shared page itself. A page that is not present they
refuse, though the process could touch it.
-/

namespace Sbunix.Vm

open Lib List Function

variable {i fuel off old : ℕ}

namespace Mem

variable {fill : Fill} {m m' : Mem} {va cur left uva n f : ℕ} {e : Pte} {v : Vma} {src : ℕ → UInt8}

/-! ## Bytes of a page -/

theorem chunk_le (cur left : ℕ) :
    chunk cur left ≤ left ∧ cur % PAGE_SIZE + chunk cur left ≤ PAGE_SIZE := by
  have : cur % PAGE_SIZE < PAGE_SIZE := Nat.mod_lt _ (by decide)
  unfold chunk
  omega

theorem chunk_pos (hleft : left ≠ 0) : 0 < chunk cur left := by
  have : cur % PAGE_SIZE < PAGE_SIZE := Nat.mod_lt _ (by decide)
  unfold chunk
  omega

theorem same_page (hi : cur % PAGE_SIZE + i < PAGE_SIZE) :
    vpn (cur + i) = vpn cur ∧ (cur + i) % PAGE_SIZE = cur % PAGE_SIZE + i := by
  simp only [vpn, PAGE_SIZE] at *
  omega

theorem entry_same_page (hi : cur % PAGE_SIZE + i < PAGE_SIZE) :
    m.entry (cur + i) = m.entry cur := by
  rw [entry, entry, (same_page hi).1]

def byteAt (m : Mem) (va : ℕ) : UInt8 :=
  match m.entry va with
  | none => 0
  | some e => (m.frame e.ppn).get (va % PAGE_SIZE)

/-! ## `copyin` -/

/-- Every page is present, for the user and readable. -/
def Loadable (m : Mem) (uva n : ℕ) : Prop :=
  ∀ va, uva ≤ va → va < uva + n → ∃ e, m.entry va = some e ∧ mayLoad e = true

theorem copyinFrom_loadable (hfuel : left ≤ fuel) (hl : m.Loadable cur left) :
    m.copyinFrom fuel cur left = some ((List.range left).map fun i => m.byteAt (cur + i)) := by
  induction fuel generalizing cur left with
  | zero =>
    obtain rfl : left = 0 := by omega
    rfl
  | succ fuel ih =>
    rw [copyinFrom]
    split
    next h0 =>
      rw [h0]
      rfl
    next hleft =>
    obtain ⟨hc, hpage⟩ := chunk_le cur left
    have hpos : 0 < chunk cur left := chunk_pos hleft
    obtain ⟨e, he, hmay⟩ := hl cur (Nat.le_refl _) (by omega)
    rw [mayLoad, Bool.and_eq_true] at hmay
    have hrest : m.copyinFrom fuel (cur + chunk cur left) (left - chunk cur left) = some _ :=
      ih (by omega) fun va h1 h2 => hl va (by omega) (by omega)
    rw [he]
    dsimp only
    rw [if_neg (by simp [hmay.1, hmay.2]), hrest]
    -- the first bytes come from this page, the others from the rest of the loop
    have hsplit : List.range left = List.range (chunk cur left + (left - chunk cur left)) := by
      rw [Nat.add_sub_cancel' hc]
    rw [hsplit, range_add, map_append, map_map]
    refine congrArg some
      (congrArg₂ (· ++ ·) (map_congr_left fun i hi => ?_) (map_congr_left fun i _ => ?_))
    · have hi := mem_range.mp hi
      rw [byteAt, entry_same_page (by omega), he, (same_page (by omega)).2]
    · rw [Function.comp, Nat.add_assoc]

theorem copyinFrom_refused (hfuel : left ≤ fuel) (ht : ¬ m.Loadable cur left) :
    m.copyinFrom fuel cur left = none := by
  induction fuel generalizing cur left with
  | zero =>
    refine absurd (fun va h1 h2 => ?_) ht
    omega
  | succ fuel ih =>
    have hleft : left ≠ 0 := fun h0 => ht fun va h1 h2 => by omega
    obtain ⟨hc, hpage⟩ := chunk_le cur left
    have hpos : 0 < chunk cur left := chunk_pos hleft
    rw [copyinFrom, if_neg hleft]
    cases he : m.entry cur with
    | none => rfl
    | some e =>
      dsimp only
      split
      · rfl
      next hmay =>
      have hmay : mayLoad e = true := by simpa [mayLoad] using hmay
      have hrest : ¬ m.Loadable (cur + chunk cur left) (left - chunk cur left) :=
        fun hrest => ht fun va h1 h2 => by
        by_cases hva : va < cur + chunk cur left
        · obtain ⟨i, rfl⟩ := Nat.exists_eq_add_of_le h1
          exact ⟨e, by rw [entry_same_page (by omega), he], hmay⟩
        · exact hrest va (by omega) (by omega)
      rw [ih (by omega) hrest]
      rfl

theorem userLoads_loadable (hl : m.Loadable va n) :
    userLoads fill va n m = some (some ((List.range n).map fun i => m.byteAt (va + i)), m) := by
  induction n generalizing va with
  | zero => rfl
  | succ n ih =>
    obtain ⟨e, he, hmay⟩ := hl va (Nat.le_refl _) (by omega)
    have hload : m.userLoad fill va = some (some (m.byteAt va), m) := by
      rw [userLoad, access, he, Option.filter_some, if_pos hmay]
      simp [byteAt, he]
    rw [userLoads, hload]
    dsimp only
    rw [ih fun w h1 h2 => hl w (by omega) (by omega),
      range_succ_eq_map, map_cons, map_map]
    simp only [Option.map_some, Nat.add_zero, Option.some.injEq, Prod.mk.injEq, and_true,
      List.cons.injEq, true_and]
    refine map_congr_left fun i _ => ?_
    rw [Function.comp, Nat.succ_eq_add_one, Nat.add_assoc, Nat.add_comm 1 i]

/-! ## Stores to one page -/

@[simp] theorem write_entry : (m.write f va n src).entry cur = m.entry cur := rfl

theorem write_zero : m.write f off 0 src = m := by
  have hcopy : (m.frame f).copy off 0 src = m.frame f := funext fun i => if_neg (by omega)
  rw [write, hcopy, update_eq_self]

theorem write_succ :
    (m.write f off 1 fun _ => src 0).write f (off + 1) n (fun i => src (i + 1)) =
    m.write f off (n + 1) src := by
  unfold write
  simp only [update_self, update_idem]
  congr 2
  funext i
  simp only [Bytes.copy]
  have := i.isLt
  by_cases h1 : off + 1 ≤ i.val ∧ i.val < off + 1 + n
  · rw [if_pos h1, if_pos (by omega)]
    congr 1
    omega
  · rw [if_neg h1]
    by_cases h0 : i.val = off
    · rw [if_pos (by omega), if_pos (by omega), h0, Nat.sub_self]
    · rw [if_neg (by omega), if_neg (by omega)]

theorem userStores_page (he : m.entry va = some e) (hmay : mayStore e = true)
    (hn : va % PAGE_SIZE + n ≤ PAGE_SIZE) :
    userStores fill va n src m = some (true, m.write e.ppn (va % PAGE_SIZE) n src) := by
  induction n generalizing va src m with
  | zero =>
    rw [write_zero]
    rfl
  | succ n ih =>
    have hstore : m.userStore fill va (src 0) =
        some (true, m.write e.ppn (va % PAGE_SIZE) 1 fun _ => src 0) := by
      rw [userStore, access, he, Option.filter_some, if_pos hmay]
      rfl
    rw [userStores, hstore]
    dsimp only
    cases n with
    | zero => exact congrArg (fun m => some (true, m)) (write_zero.symm.trans write_succ)
    | succ n =>
      have hmod : (va + 1) % PAGE_SIZE = va % PAGE_SIZE + 1 := (same_page (by omega)).2
      rw [ih (by rw [write_entry, entry_same_page (by omega), he]) (by omega), hmod, write_succ]

theorem userStores_add {a b : ℕ} :
    userStores fill va (a + b) src m = (userStores fill va a src m).bind fun (ok, m') =>
      if ok then userStores fill (va + a) b (fun i => src (a + i)) m' else some (false, m') := by
  induction a generalizing va src m with
  | zero =>
    rw [Nat.zero_add]
    simp [userStores]
  | succ a ih =>
    rw [Nat.succ_add, userStores, userStores]
    cases hs : m.userStore fill va (src 0) with
    | none => rfl
    | some r =>
      obtain ⟨ok, m'⟩ := r
      cases ok with
      | false => rfl
      | true =>
        dsimp only
        have hva : va + 1 + a = va + (a + 1) := by omega
        have hsrc (i : ℕ) : a + i + 1 = a + 1 + i := by omega
        rw [ih]
        simp only [hva, hsrc]

theorem userStores_access (hacc : access fill .store mayStore va 3 m = some (some e.ppn, m'))
    (he : m'.entry va = some e)
    (hmay : mayStore e = true) (hn : n ≠ 0) :
    userStores fill va n src m = userStores fill va n src m' := by
  obtain ⟨n, rfl⟩ := Nat.exists_eq_succ_of_ne_zero hn
  have hstore : m.userStore fill va (src 0) = m'.userStore fill va (src 0) := by
    rw [userStore, userStore, hacc, access, he, Option.filter_some, if_pos hmay]
  rw [userStores, userStores, hstore]

/-! ## The write fault of a page that is present -/

/-- A write fault in a present page of the VMA may succeed. -/
def upgrades (v : Vma) : Prop := v.cow = true ∨ v.type = .file ∧ v.shared = true

instance (v : Vma) : Decidable (upgrades v) := inferInstanceAs (Decidable (_ ∨ _))

/-- The process may write to `va` of `v`, and the frame behind it is accounted for. -/
structure StoreReady (m : Mem) (v : Vma) (va : ℕ) (e : Pte) : Prop where
  prot : v.prot.w = true
  refs : m.refs e.ppn ≠ 0
  file : v.type = .file → ∃ ip, v.file = some ip ∧ v.filePos va < m.size ip ∧
    (v.cow = false → v.shared = true →
      ∃ k, m.pcacheLookup ip (v.filePos va / PAGE_SIZE) = some k ∧ (m.slots k).valid = true)
  anon : v.type ≠ .file → m.pcachePaToSlot e.ppn = none

/-- What such a fault does to the rest: nothing to other pages, and one frame less at most. -/
structure Faulted (m m' : Mem) (va old : ℕ) : Prop where
  here : ∃ e, m'.entry va = some e ∧ mayStore e = true
  pages : ∀ q, q ≠ vpn va → m'.space.pte q = m.space.pte q
  slot : m'.space.slot = m.space.slot
  list : m'.space.list = m.space.list
  size : m'.size = m.size
  slots : ∀ k, (m'.slots k).ip = (m.slots k).ip ∧ (m'.slots k).pgidx = (m.slots k).pgidx ∧
    (m'.slots k).page = (m.slots k).page ∧ (m'.slots k).valid = (m.slots k).valid
  refs : ∀ f, (f = old → (m.pcachePaToSlot old).isSome) → m.refs f ≠ 0 → m'.refs f ≠ 0
  free : m.free.length ≤ m'.free.length + 1

theorem replacePage_faulted {perm : Perm} {drop : Mem → ℕ → Option Mem} (hfree : m.free ≠ [])
    (hu : perm.u = true) (hw : perm.w = true)
    (hdrop : drop = dropMapped ∨ drop = pagePut ∧ m.pcachePaToSlot old = none)
    (href : m.refs old ≠ 0) :
    ∃ m', m.replacePage va old perm drop = some (true, m') ∧ Faulted m m' va old := by
  obtain ⟨g, rest, hg⟩ := exists_cons_of_ne_nil hfree
  -- the state before the old page is dropped
  set m₁ : Mem := ({ m with
    free := rest
    frame := update (update m.frame g Bytes.zero) g (update m.frame g Bytes.zero old)
    refs := update m.refs g 1 } : Mem).setEntry va (perm.entry g) with hm₁
  have heq : m.replacePage va old perm drop = (drop m₁ old).map (true, ·) := by
    simp only [replacePage, pageAlloc, hg]
    rfl
  have hrefs (f : ℕ) (h : m.refs f ≠ 0) : m₁.refs f ≠ 0 := by
    change update m.refs g 1 f ≠ 0
    by_cases hfg : f = g
    · rw [hfg, update_self]
      exact one_ne_zero
    · rwa [update_of_ne hfg]
  have hfault : Faulted m m₁ va old := by
    refine ⟨⟨perm.entry g, update_self .., by simp [mayStore, Perm.entry, hu, hw]⟩,
      fun q hq => update_of_ne hq .., rfl, rfl, rfl, fun _ => ⟨rfl, rfl, rfl, rfl⟩,
        fun f _ => hrefs f, ?_⟩
    change m.free.length ≤ rest.length + 1
    rw [hg]
    exact Nat.le_refl _
  have hput (hslot : m.pcachePaToSlot old = none) :
      ∃ m', m₁.pagePut old = some m' ∧ Faulted m m' va old := by
    refine ⟨_, if_neg (hrefs old href), hfault.here, hfault.pages, rfl, rfl, rfl, hfault.slots,
      fun f hf h => ?_, ?_⟩
    · have hne : f ≠ old := fun he => by simpa [hslot] using hf he
      dsimp only
      rw [update_of_ne hne]
      exact hrefs f h
    · refine hfault.free.trans ?_
      dsimp only
      split <;> simp
  rw [heq]
  rcases hdrop with rfl | ⟨rfl, hslot⟩
  · cases hslot : m.pcachePaToSlot old with
    | none =>
      obtain ⟨m', hm', hf⟩ := hput hslot
      have hd : m₁.dropMapped old = m₁.pagePut old := by
        rw [dropMapped, show m₁.pcachePaToSlot old = none from hslot]
      exact ⟨m', by rw [hd, hm']; rfl, hf⟩
    | some k =>
      have hd : m₁.dropMapped old = some (m₁.pcachePut k) := by
        rw [dropMapped, show m₁.pcachePaToSlot old = some k from hslot]
      refine ⟨m₁.pcachePut k, by rw [hd]; rfl, hfault.here, hfault.pages, rfl, rfl, rfl,
        fun j => ?_, hfault.refs,
        hfault.free⟩
      by_cases hj : j = k
      · subst hj
        simp [pcachePut, setSlot, hm₁, setEntry]
      · simp [pcachePut, setSlot, update_of_ne hj, hm₁, setEntry]
  · obtain ⟨m', hm', hf⟩ := hput hslot
    exact ⟨m', by rw [hm']; rfl, hf⟩

theorem userPageFault_refused (hv : m.space.vmaFind cur = some i) (he : m.entry cur = some e)
    (hready : StoreReady m (m.space.slot i) cur e) (hno : ¬ upgrades (m.space.slot i)) :
    m.userPageFault fill .store cur = some (false, m) := by
  have hvpn : vpn (pageDown cur) = vpn cur := by
    simp only [vpn, pageDown, PAGE_SIZE]
    omega
  have hentry : m.entry (pageDown cur) = some e := by rw [entry, hvpn]; exact he
  have hdown : pageDown (pageDown cur) = pageDown cur := by
    simp only [pageDown, PAGE_SIZE]
    omega
  have hpos : (m.space.slot i).filePos (pageDown cur) = (m.space.slot i).filePos cur := by
    rw [Vma.filePos, Vma.filePos, hdown]
  have hgrow : m.space.growStack cur = some (i, m.space) := by rw [Space.growStack, hv]
  obtain ⟨hcow, hshared⟩ := not_or.mp hno
  rw [userPageFault, hgrow]
  dsimp only
  rw [if_neg (by simp [hready.prot]), if_neg (by simp)]
  split
  next hfile =>
    obtain ⟨ip, hip, hsize, -⟩ := hready.file hfile
    rw [fileFault, hip]
    dsimp only
    rw [hpos, if_neg (Nat.not_le.mpr hsize), hentry]
    dsimp only
    rw [if_neg (by simp), fileStore, if_neg hcow, if_neg fun h => hshared ⟨hfile, h⟩]
  next =>
    rw [anonFault, hentry]
    dsimp only
    rw [if_neg fun h => hcow h.2.2]

theorem userPageFault_faulted (hv : m.space.vmaFind cur = some i) (he : m.entry cur = some e)
    (hw : e.w = false)
    (hu : e.u = true) (hup : upgrades (m.space.slot i))
    (hready : StoreReady m (m.space.slot i) cur e) (hfree : m.free ≠ []) :
    ∃ m', m.userPageFault fill .store cur = some (true, m') ∧ Faulted m m' cur e.ppn := by
  have hvpn : vpn (pageDown cur) = vpn cur := by
    simp only [vpn, pageDown, PAGE_SIZE]
    omega
  have hentry : m.entry (pageDown cur) = some e := by rw [entry, hvpn]; exact he
  have hdown : pageDown (pageDown cur) = pageDown cur := by
    simp only [pageDown, PAGE_SIZE]
    omega
  have hpos : (m.space.slot i).filePos (pageDown cur) = (m.space.slot i).filePos cur := by
    rw [Vma.filePos, Vma.filePos, hdown]
  have hgrow : m.space.growStack cur = some (i, m.space) := by rw [Space.growStack, hv]
  -- the fault is for the start of the page
  suffices h : ∃ m', (if (m.space.slot i).type = .file then m.fileFault fill .store (m.space.slot i)
    (pageDown cur)
      else m.anonFault .store (m.space.slot i) (pageDown cur)) = some (true, m') ∧
        Faulted m m' (pageDown cur) e.ppn by
    obtain ⟨m', hm', hf⟩ := h
    refine ⟨m', ?_, ?_, ?_, hf.slot, hf.list, hf.size, hf.slots, hf.refs, hf.free⟩
    · rw [userPageFault, hgrow]
      dsimp only
      rw [if_neg (by simp [hready.prot]), if_neg (by simp), hm']
    · obtain ⟨e', he', hmay⟩ := hf.here
      exact ⟨e', by rw [← he', entry, entry, hvpn], hmay⟩
    · rw [← hvpn]
      exact hf.pages
  by_cases hfile : (m.space.slot i).type = .file
  · rw [if_pos hfile]
    obtain ⟨ip, hip, hsize, hcached⟩ := hready.file hfile
    have hstore : m.fileFault fill .store (m.space.slot i) (pageDown cur) =
        m.fileStore fill (m.space.slot i) ip (pageDown cur) e := by
      rw [fileFault, hip]
      dsimp only
      rw [hpos, if_neg (Nat.not_le.mpr hsize), hentry]
      exact if_neg (by simp)
    rw [hstore, fileStore]
    by_cases hcow : (m.space.slot i).cow = true
    · rw [if_pos hcow]
      exact replacePage_faulted hfree rfl rfl (.inl rfl) hready.refs
    rw [if_neg hcow]
    have hcow : (m.space.slot i).cow = false := by simpa using hcow
    have hshared : (m.space.slot i).shared = true := (hup.resolve_left (by simp [hcow])).2
    obtain ⟨k, hk, hvalid⟩ := hcached hcow hshared
    have hget : m.pcacheGet fill ip ((m.space.slot i).filePos (pageDown cur) / PAGE_SIZE) =
        (some k, m.setSlot k { m.slots k with refcnt := (m.slots k).refcnt + 1 }) := by
      rw [pcacheGet, hpos, hk]
      exact if_pos hvalid
    rw [if_pos hshared, hget]
    refine ⟨_, rfl, ⟨_, update_self .., by simp [mayStore, Perm.entry]⟩,
      fun q hq => update_of_ne hq ..,
      rfl, rfl, rfl, fun j => ?_, fun f _ h => h, Nat.le_succ _⟩
    by_cases hj : j = k
    · subst hj
      simp [setEntry, pcachePut, setSlot]
    · simp [setEntry, pcachePut, setSlot, update_of_ne hj]
  · rw [if_neg hfile, anonFault, hentry]
    have hcow : (m.space.slot i).cow = true := hup.resolve_right fun h => hfile h.1
    dsimp only
    rw [if_pos ⟨rfl, hw, hcow⟩]
    split
    · refine ⟨_, rfl, ⟨_, update_self .., by simp [mayStore, hu]⟩, fun q hq => update_of_ne hq ..,
        rfl, rfl, rfl, fun _ => ⟨rfl, rfl, rfl, rfl⟩, fun f _ h => h, Nat.le_succ _⟩
    · exact replacePage_faulted hfree rfl rfl (.inr ⟨rfl, hready.anon hfile⟩) hready.refs

/-! ## `copyout` -/

/-- The pages of the range that are present can be written to, and have frames of their own
besides those of the page cache. -/
structure RangeReady (m : Mem) (cur left : ℕ) : Prop where
  low : cur + left ≤ 2 ^ 39
  pages : ∀ va, cur ≤ va → va < cur + left →
    ∃ i, m.space.vmaFind va = some i ∧ ∀ e, m.entry va = some e → StoreReady m (m.space.slot i) va e
  apart : ∀ va w, cur ≤ va → va < cur + left → cur ≤ w → w < cur + left →
    ∀ e e', m.entry va = some e →
    m.entry w = some e' → vpn va ≠ vpn w → e.ppn = e'.ppn → (m.pcachePaToSlot e.ppn).isSome

def pagesIn (cur left : ℕ) : ℕ :=
  if left = 0 then 0 else (cur % PAGE_SIZE + left + (PAGE_SIZE - 1)) / PAGE_SIZE

theorem pagesIn_rest (hleft : left ≠ 0) :
    pagesIn (cur + chunk cur left) (left - chunk cur left) + 1 ≤ pagesIn cur left := by
  have hmod : cur % PAGE_SIZE < PAGE_SIZE := Nat.mod_lt _ (by decide)
  by_cases hlast : left ≤ PAGE_SIZE - cur % PAGE_SIZE
  · have hchunk : chunk cur left = left := Nat.min_eq_right hlast
    rw [hchunk, Nat.sub_self, pagesIn, if_pos rfl, pagesIn, if_neg hleft]
    simp only [PAGE_SIZE] at *
    omega
  · have hchunk : chunk cur left = PAGE_SIZE - cur % PAGE_SIZE := Nat.min_eq_left (by omega)
    rw [hchunk, pagesIn, if_neg (by omega), pagesIn, if_neg hleft]
    simp only [PAGE_SIZE] at *
    omega

theorem vpn_rest_ne {w : ℕ} (hlow : cur + left ≤ 2 ^ 39) (h1 : cur + chunk cur left ≤ w)
    (h2 : w < cur + left) :
    vpn w ≠ vpn cur := by
  simp only [vpn, chunk, PAGE_SIZE] at *
  omega

theorem entry_rest {w : ℕ} (hf : m' = m ∨ Faulted m m' cur old) (hw : vpn w ≠ vpn cur) :
    m'.entry w = m.entry w := by
  rcases hf with rfl | hf
  · rfl
  · exact hf.pages _ hw

theorem RangeReady.rest (h : RangeReady m cur left) (he : m.entry cur = some e)
    (hf : m' = m ∨ Faulted m m' cur e.ppn) :
    RangeReady (m'.write f va n src) (cur + chunk cur left) (left - chunk cur left) := by
  obtain ⟨hc, hpage⟩ := chunk_le cur left
  have hlow := h.low
  have hne {w : ℕ} (h1 : cur + chunk cur left ≤ w)
    (h2 : w < cur + chunk cur left + (left - chunk cur left)) :
      vpn w ≠ vpn cur := vpn_rest_ne hlow h1 (by omega)
  have hentry {w : ℕ} (hw : vpn w ≠ vpn cur) : m'.entry w = m.entry w := entry_rest hf hw
  have hfind (w : ℕ) : m'.space.vmaFind w = m.space.vmaFind w ∧ m'.space.slot = m.space.slot := by
    rcases hf with rfl | hf
    · exact ⟨rfl, rfl⟩
    · exact ⟨by rw [Space.vmaFind, Space.vmaFind, hf.slot, hf.list], hf.slot⟩
  have hslot (g : ℕ) : m'.pcachePaToSlot g = m.pcachePaToSlot g := by
    rcases hf with rfl | hf
    · rfl
    · simp only [pcachePaToSlot, fun k => (hf.slots k).2.2.1]
  have hlookup (ip pg : ℕ) :
      m'.pcacheLookup ip pg = m.pcacheLookup ip pg ∧
      ∀ k, (m'.slots k).valid = (m.slots k).valid := by
    rcases hf with rfl | hf
    · exact ⟨rfl, fun _ => rfl⟩
    · exact ⟨by simp only [pcacheLookup, fun k => (hf.slots k).1, fun k => (hf.slots k).2.1],
        fun k => (hf.slots k).2.2.2⟩
  have hsize : m'.size = m.size := by
    rcases hf with rfl | hf
    · rfl
    · exact hf.size
  refine ⟨by omega, fun w h1 h2 => ?_, fun w w' h1 h2 h3 h4 e₁ e₂ he₁ he₂ => ?_⟩
  · obtain ⟨i, hi, hready⟩ := h.pages w (by omega) (by omega)
    refine ⟨i, (hfind w).1.trans hi, fun e' he' => ?_⟩
    have he' : m.entry w = some e' := (hentry (hne h1 h2)).symm.trans he'
    have hr := hready e' he'
    change StoreReady _ (m'.space.slot i) w e'
    rw [(hfind w).2]
    refine ⟨hr.prot, ?_, fun hfile => ?_, fun hanon => ?_⟩
    · rcases hf with rfl | hf
      · exact hr.refs
      · refine hf.refs _ (fun heq => ?_) hr.refs
        exact h.apart cur w (Nat.le_refl _) (by omega) (by omega) (by omega) e e' he he'
          (hne h1 h2).symm heq.symm
    · obtain ⟨ip, hip, hpos, hcached⟩ := hr.file hfile
      refine ⟨ip, hip, by change _ < m'.size ip; rwa [hsize], fun hcow hshared => ?_⟩
      obtain ⟨k, hk, hvalid⟩ := hcached hcow hshared
      exact ⟨k, (hlookup ip _).1.trans hk, ((hlookup ip 0).2 k).trans hvalid⟩
    · exact (hslot _).trans (hr.anon hanon)
  · have he₁ : m.entry w = some e₁ := (hentry (hne h1 h2)).symm.trans he₁
    have he₂ : m.entry w' = some e₂ := (hentry (hne h3 h4)).symm.trans he₂
    intro hvpn hppn
    change (m'.pcachePaToSlot e₁.ppn).isSome
    rw [hslot]
    exact h.apart w w' (by omega) (by omega) (by omega) (by omega) e₁ e₂ he₁ he₂ hvpn hppn

theorem copyoutPage_ready (hv : m.space.vmaFind cur = some i) (he : m.entry cur = some e)
    (hu : e.u = true) (hup : e.w = true ∨ upgrades (m.space.slot i))
    (hready : StoreReady m (m.space.slot i) cur e) (hfree : m.free ≠ []) :
    ∃ m' e', m.copyoutPage fill cur = some (some e'.ppn, m') ∧ access fill .store mayStore cur 3 m =
      some (some e'.ppn, m') ∧
      m'.entry cur = some e' ∧ mayStore e' = true ∧ (m' = m ∨ Faulted m m' cur e.ppn) := by
  cases hw : e.w with
  | true =>
    have hmay : mayStore e = true := by simp [mayStore, hu, hw]
    refine ⟨m, e, ?_, ?_, he, hmay, .inl rfl⟩
    · rw [copyoutPage, he]
      simp [hu, hw]
    · rw [access, he, Option.filter_some, if_pos hmay]
  | false =>
    obtain ⟨m', hm', hf⟩ :
        ∃ m', m.userPageFault fill .store cur = some (true, m') ∧ Faulted m m' cur e.ppn :=
      userPageFault_faulted hv he hw hu (hup.resolve_left (by simp [hw])) hready hfree
    obtain ⟨e', he', hmay⟩ := hf.here
    refine ⟨m', e', ?_, ?_, he', hmay, .inr hf⟩
    · rw [copyoutPage, he]
      simp only [hu, hw, hm', he']
      simpa [mayStore] using hmay
    · have hno : mayStore e = false := by simp [mayStore, hw]
      rw [access, he, Option.filter_some, if_neg (by simp [hno])]
      simp only [hm']
      rw [access, he', Option.filter_some, if_pos hmay]

/-- The copy may write to the page of `va`: it is present, for the user, and writable or in a VMA
whose write faults succeed. -/
def StorableAt (m : Mem) (va : ℕ) : Prop :=
    ∃ i e, m.space.vmaFind va = some i ∧ m.entry va = some e ∧
  e.u = true ∧ (e.w = true ∨ upgrades (m.space.slot i))

/-- The copy may write to every page of the range; the first address of the range in each page
counts. -/
def Storable (m : Mem) (uva n : ℕ) : Prop :=
  ∀ va, uva ≤ va → va < uva + n → va = uva ∨ va % PAGE_SIZE = 0 → m.StorableAt va

theorem storable_iff (hleft : left ≠ 0) : m.Storable cur left ↔
    m.StorableAt cur ∧ m.Storable (cur + chunk cur left) (left - chunk cur left) := by
  obtain ⟨hc, hpage⟩ := chunk_le cur left
  have hmod : cur % PAGE_SIZE < PAGE_SIZE := Nat.mod_lt _ (by decide)
  have hfull : left - chunk cur left ≠ 0 → (cur + chunk cur left) % PAGE_SIZE = 0 := by
    intro h
    have hchunk : chunk cur left = PAGE_SIZE - cur % PAGE_SIZE := by
      unfold chunk at h ⊢
      omega
    rw [hchunk]
    simp only [PAGE_SIZE] at *
    omega
  constructor
  · refine fun h => ⟨h cur (Nat.le_refl _) (by omega) (.inl rfl), fun va h1 h2 hva => ?_⟩
    refine h va (by omega) (by omega) (.inr ?_)
    rcases hva with rfl | hva
    · exact hfull (by omega)
    · exact hva
  · rintro ⟨hcur, h⟩ va h1 h2 hva
    by_cases hva' : va = cur
    · rwa [hva']
    · have haligned := hva.resolve_left hva'
      refine h va ?_ (by omega) (.inr haligned)
      simp only [PAGE_SIZE] at *
      unfold chunk at *
      simp only [PAGE_SIZE] at *
      omega

/-- The loop does what the stores of the process do if it may write to all pages, and fails
otherwise. -/
def StoresOrFails (fill : Fill) (fuel cur left : ℕ) (src : ℕ → UInt8) (m : Mem) : Prop :=
  (m.Storable cur left → ∃ m', copyoutFrom fill fuel cur left src m = some (true, m') ∧
    userStores fill cur left src m = some (true, m')) ∧
  (¬ m.Storable cur left → ∃ m', copyoutFrom fill fuel cur left src m = some (false, m'))

theorem copyoutPage_refused (hno : ¬ m.StorableAt cur) (hv : m.space.vmaFind cur = some i)
    (hready : ∀ e, m.entry cur = some e → StoreReady m (m.space.slot i) cur e) :
    m.copyoutPage fill cur = some (none, m) := by
  rw [copyoutPage]
  cases he : m.entry cur with
  | none => rfl
  | some e =>
    dsimp only
    split_ifs with hu hw
    · rfl
    · exact absurd ⟨i, e, hv, he, by simpa using hu, .inl hw⟩ hno
    · have hup : ¬ upgrades (m.space.slot i) :=
        fun h => hno ⟨i, e, hv, he, by simpa using hu, .inr h⟩
      rw [userPageFault_refused hv he (hready e he) hup]

theorem copyoutFrom_ready (hfuel : left ≤ fuel) (h : RangeReady m cur left)
    (hfree : pagesIn cur left ≤ m.free.length) : StoresOrFails fill fuel cur left src m := by
  induction fuel generalizing cur left src m with
  | zero =>
    obtain rfl : left = 0 := by omega
    exact ⟨fun _ => ⟨m, rfl, rfl⟩, fun hno => absurd (fun va h1 h2 => by omega) hno⟩
  | succ fuel ih =>
    rw [StoresOrFails, copyoutFrom]
    by_cases hleft : left = 0
    · subst hleft
      exact ⟨fun _ => ⟨m, rfl, rfl⟩, fun hno => absurd (fun va h1 h2 => by omega) hno⟩
    rw [if_neg hleft, storable_iff hleft]
    obtain ⟨hc, hpage⟩ := chunk_le cur left
    have hpos : 0 < chunk cur left := chunk_pos hleft
    have hpages : pagesIn (cur + chunk cur left) (left - chunk cur left) + 1 ≤ pagesIn cur left :=
      pagesIn_rest hleft
    obtain ⟨i, hi, hready⟩ := h.pages cur (Nat.le_refl _) (by omega)
    by_cases hat : m.StorableAt cur
    · obtain ⟨i', e, hi', he, hu, hup⟩ := id hat
      obtain rfl : i' = i := Option.some.inj (hi'.symm.trans hi)
      have hne : m.free ≠ [] := fun hnil => by
        rw [hnil, length_nil] at hfree
        omega
      obtain ⟨m', e', hcopy, hacc, he', hmay, hf⟩ :
        ∃ m' e', m.copyoutPage fill cur = some (some e'.ppn, m') ∧
          access fill .store mayStore cur 3 m = some (some e'.ppn, m') ∧ m'.entry cur = some e' ∧
            mayStore e' = true ∧
          (m' = m ∨ Faulted m m' cur e.ppn) := copyoutPage_ready hi he hu hup (hready e he) hne
      have hrest : RangeReady (m'.write e'.ppn (cur % PAGE_SIZE) (chunk cur left) src)
        (cur + chunk cur left)
        (left - chunk cur left) := h.rest he hf
      have hfree' : pagesIn (cur + chunk cur left) (left - chunk cur left) ≤
          (m'.write e'.ppn (cur % PAGE_SIZE) (chunk cur left) src).free.length := by
        change _ ≤ m'.free.length
        rcases hf with rfl | hf
        · omega
        · have := hf.free
          omega
      have hlow := h.low
      -- the fault changes neither the other entries nor the VMAs
      have hsame : Storable (m'.write e'.ppn (cur % PAGE_SIZE) (chunk cur left) src)
        (cur + chunk cur left)
          (left - chunk cur left) ↔ m.Storable (cur + chunk cur left) (left - chunk cur left) := by
        refine forall_congr' fun va => forall_congr' fun h1 => forall_congr' fun h2 =>
          forall_congr' fun _ => ?_
        have hentry : m'.entry va = m.entry va := entry_rest hf (vpn_rest_ne hlow h1 (by omega))
        have hspace : m'.space.vmaFind va = m.space.vmaFind va ∧ m'.space.slot = m.space.slot := by
          rcases hf with rfl | hf
          · exact ⟨rfl, rfl⟩
          · exact ⟨by rw [Space.vmaFind, Space.vmaFind, hf.slot, hf.list], hf.slot⟩
        change (∃ i e, m'.space.vmaFind va = some i ∧ m'.entry va = some e ∧ e.u = true ∧
          (e.w = true ∨ upgrades (m'.space.slot i))) ↔ m.StorableAt va
        rw [hentry, hspace.1, hspace.2]
        rfl
      have hih : StoresOrFails fill fuel (cur + chunk cur left) (left - chunk cur left)
        (fun i => src (chunk cur left + i))
          (m'.write e'.ppn (cur % PAGE_SIZE) (chunk cur left) src) :=
        ih (by omega) hrest hfree'
      obtain ⟨hyes, hno⟩ := hih
      rw [hcopy, and_iff_right hat]
      rw [hsame] at hyes hno
      refine ⟨fun ht => ?_, hno⟩
      obtain ⟨m'', hcopy', hstore'⟩ := hyes ht
      refine ⟨m'', hcopy', ?_⟩
      have hleft' : left = chunk cur left + (left - chunk cur left) := (Nat.add_sub_cancel' hc).symm
      rw [hleft', userStores_add, userStores_access hacc he' hmay hpos.ne',
        userStores_page he' hmay hpage]
      exact hstore'
    · -- the copy stops here, whatever the rest of the range is
      rw [copyoutPage_refused hat hi hready]
      exact ⟨fun ht => absurd ht.1 hat, fun _ => ⟨m, rfl⟩⟩

/-! ## Both copies -/

/-- What the kernel keeps of frames: those that are mapped are referenced, and not twice by one
process unless they are of the page cache; a page of a shared mapping is in the cache, and one
elsewhere is not. -/
structure Counted (m : Mem) : Prop where
  wellFormed : m.space.WellFormed
  low : ∀ i ∈ m.space.list, (m.space.slot i).fin ≤ 2 ^ 39
  refs : ∀ va i e, m.space.vmaFind va = some i → m.entry va = some e → m.refs e.ppn ≠ 0
  cached : ∀ va i e ip, m.space.vmaFind va = some i → m.entry va = some e →
    (m.space.slot i).Backs ip →
    (m.space.slot i).cow = false → (m.space.slot i).shared = true →
    ∃ k, m.pcacheLookup ip ((m.space.slot i).filePos va / PAGE_SIZE) = some k ∧
      (m.slots k).valid = true
  anon : ∀ va i e, m.space.vmaFind va = some i → m.entry va = some e →
    (m.space.slot i).type ≠ .file →
    m.pcachePaToSlot e.ppn = none
  apart : ∀ q q' e e', m.space.pte q = some e → m.space.pte q' = some e' → q ≠ q' → e.ppn = e'.ppn →
    (m.pcachePaToSlot e.ppn).isSome

/-- The range lies in VMAs that grant the access, and in files before their end. -/
def Granted (m : Mem) (right : Prot → Bool) (uva n : ℕ) : Prop :=
  ∀ va, uva ≤ va → va < uva + n → ∃ i, m.space.vmaFind va = some i ∧
    right (m.space.slot i).prot = true ∧
    ((m.space.slot i).type = .file → ∃ ip, (m.space.slot i).file = some ip ∧
    (m.space.slot i).filePos va < m.size ip)

theorem Granted.low {right : Prot → Bool} (h : m.Granted right uva n) (hs : m.Counted)
    (hn : n ≠ 0) :
    uva + n ≤ 2 ^ 39 := by
  obtain ⟨i, hi, -⟩ := h (uva + (n - 1)) (by omega) (by omega)
  have := hs.low i (Space.vmaFind_some hi).1
  have := (Space.vmaFind_some hi).2.2
  omega

theorem badRange_iff (hlow : uva + n ≤ 2 ^ 39) : badRange uva n ↔ uva = 0 := by
  have hsum : add64 uva n = uva + n := add64_eq (by omega)
  simp only [badRange, hsum, KVMEM_OFFSET]
  omega

theorem Granted.ready (h : m.Granted Prot.w uva n) (hs : m.Counted) (hn : n ≠ 0) :
    RangeReady m uva n := by
  refine ⟨h.low hs hn, fun va h1 h2 => ?_,
    fun va w _ _ _ _ e e' he he' hne hppn => hs.apart _ _ e e' he he' hne hppn⟩
  obtain ⟨i, hi, hw, hfile⟩ := h va h1 h2
  refine ⟨i, hi, fun e he => ⟨hw, hs.refs va i e hi he, fun ht => ?_, hs.anon va i e hi he⟩⟩
  obtain ⟨ip, hip, hsize⟩ := hfile ht
  exact ⟨ip, hip, hsize, hs.cached va i e ip hi he ⟨ht, hip⟩⟩

/-- In a range the process may access, `copyin` succeeds just when every page is present and
readable and `copyout` when every page is present and writable, or can be made so; and then they do
what its own loads and stores do. -/
theorem user_copy_iff_touched (fill : Fill) (m : Mem) (uva n : ℕ) (hs : m.Counted) :
    (m.Granted Prot.r uva n → ((m.copyin uva n).isSome ↔ n = 0 ∨ uva ≠ 0 ∧ m.Loadable uva n) ∧
      ∀ bytes, m.copyin uva n = some bytes → userLoads fill uva n m = some (some bytes, m)) ∧
    (m.Granted Prot.w uva n → pagesIn uva n ≤ m.free.length → ∀ src,
      ((∃ m', copyout fill m uva n src = some (true, m')) ↔ n = 0 ∨ uva ≠ 0 ∧ m.Storable uva n) ∧
      ∀ m', copyout fill m uva n src = some (true, m') →
        userStores fill uva n src m = some (true, m')) := by
  by_cases hn : n = 0
  · subst hn
    refine ⟨fun _ => ⟨by simp [copyin], fun bytes h => ?_⟩,
      fun _ _ src => ⟨by simp [copyout], fun m' h => ?_⟩⟩
    · cases h
      rfl
    · cases h
      rfl
  constructor
  · intro hg
    have hbad := badRange_iff (hg.low hs hn)
    by_cases h0 : uva = 0
    · have hnone : m.copyin uva n = none := by rw [copyin, if_neg hn, if_pos (hbad.mpr h0)]
      rw [hnone]
      exact ⟨by simp [hn, h0], fun bytes h => nomatch h⟩
    have hloop : m.copyin uva n = m.copyinFrom n uva n := by
      rw [copyin, if_neg hn, if_neg (hbad.not.mpr h0)]
    rw [hloop]
    by_cases ht : m.Loadable uva n
    · rw [copyinFrom_loadable (Nat.le_refl n) ht]
      refine ⟨by simp [h0, ht], fun bytes h => ?_⟩
      rw [← Option.some.inj h]
      exact userLoads_loadable ht
    · rw [copyinFrom_refused (Nat.le_refl n) ht]
      exact ⟨by simp [hn, ht], fun bytes h => nomatch h⟩
  · intro hg hfree src
    have hbad := badRange_iff (hg.low hs hn)
    by_cases h0 : uva = 0
    · have hfalse : copyout fill m uva n src = some (false, m) := by
        rw [copyout, if_neg hn, if_pos (hbad.mpr h0)]
      rw [hfalse]
      exact ⟨by simp [hn, h0], fun m' h => nomatch h⟩
    have hloop : copyout fill m uva n src = copyoutFrom fill n uva n src m := by
      rw [copyout, if_neg hn, if_neg (hbad.not.mpr h0)]
    rw [hloop]
    have hboth : StoresOrFails fill n uva n src m :=
      copyoutFrom_ready (Nat.le_refl n) (hg.ready hs hn) hfree
    by_cases ht : m.Storable uva n
    · obtain ⟨m', hcopy, hstore⟩ := hboth.1 ht
      rw [hcopy]
      refine ⟨by simp [h0, ht], fun m'' h => ?_⟩
      cases h
      exact hstore
    · obtain ⟨m', hcopy⟩ := hboth.2 ht
      rw [hcopy]
      exact ⟨by simp [hn, ht], fun m'' h => nomatch h⟩

/-- Three anonymous pages that were never touched. -/
def untouched : Mem where
  space := Space.threePages
  frame := fun _ => Bytes.zero
  refs := fun f => if f = 9 then 1 else 0
  free := [5, 6, 7]
  slots := fun _ => ⟨none, 0, 0, 0, false, false⟩
  size := fun _ => 0

def touchedOnce : Mem := untouched.setEntry MMAP_START (Perm.entry ⟨true, true, false, true⟩ 9)

theorem untouched_counted : untouched.Counted := by
  have hnone {q : ℕ} {e : Pte} (h : untouched.space.pte q = some e) : False := by cases h
  exact ⟨Space.threePages_wellFormed, by decide, fun _ _ _ _ he => (hnone he).elim,
    fun _ _ _ _ _ he => (hnone he).elim, fun _ _ _ _ he => (hnone he).elim,
      fun _ _ _ _ he => (hnone he).elim⟩

theorem touchedOnce_pte : touchedOnce.space.pte =
    update Space.threePages.pte (vpn MMAP_START) (some (Perm.entry ⟨true, true, false, true⟩ 9)) :=
      rfl

theorem touchedOnce_counted : touchedOnce.Counted := by
  have hone {q : ℕ} {e : Pte} (h : touchedOnce.space.pte q = some e) :
      q = vpn MMAP_START ∧ e = Perm.entry ⟨true, true, false, true⟩ 9 := by
    rw [touchedOnce_pte] at h
    by_cases hq : q = vpn MMAP_START
    · rw [hq, update_self] at h
      exact ⟨hq, (Option.some.inj h).symm⟩
    · rw [update_of_ne hq] at h
      cases h
  have hvma {va i : ℕ} (h : touchedOnce.space.vmaFind va = some i) : i = 0 :=
    mem_singleton.mp (Space.vmaFind_some h).1
  refine ⟨⟨Space.threePages_wellFormed.ordered, Space.threePages_wellFormed.bound⟩, by decide,
    fun va i e hi he => ?_,
    fun va i e ip hi he hb => ?_, fun va i e hi he _ => ?_, fun q q' e e' he he' hne => ?_⟩
  · rw [(hone he).2]
    decide
  · rw [hvma hi] at hb
    cases hb.1
  · rw [(hone he).2]
    decide
  · exact absurd ((hone he).1.trans (hone he').1.symm) hne

/-- Eight bytes of a page that has been touched. -/
theorem user_copy_touched_page : (touchedOnce.copyin MMAP_START 8).isSome ∧
    ∃ m', copyout (fun m _ _ => (none, m)) touchedOnce MMAP_START 8 (fun _ => 1) =
      some (true, m') := by
  have hin (va : ℕ) (h1 : MMAP_START ≤ va) (h2 : va < MMAP_START + 8) :
      touchedOnce.space.vmaFind va = some 0 := by
    have hhas : MMAP_START ≤ va ∧ va < MMAP_START + 3 * PAGE_SIZE := ⟨h1, h2.trans (by decide)⟩
    exact find?_cons_of_pos (decide_eq_true hhas)
  have hentry (va : ℕ) (h1 : MMAP_START ≤ va) (h2 : va < MMAP_START + 8) :
      touchedOnce.entry va = some (Perm.entry ⟨true, true, false, true⟩ 9) := by
    obtain ⟨i, rfl⟩ := Nat.exists_eq_add_of_le h1
    have hi : i < 8 := by omega
    refine (entry_same_page ?_).trans (by rw [entry, touchedOnce_pte, update_self])
    have : MMAP_START % PAGE_SIZE = 0 := by decide
    simp only [PAGE_SIZE] at *
    omega
  obtain ⟨hload, hstore⟩ :=
    user_copy_iff_touched (fun m _ _ => (none, m)) touchedOnce MMAP_START 8 touchedOnce_counted
  have hgrant (right : Prot → Bool) (hr : right ⟨true, true, false⟩ = true) :
      touchedOnce.Granted right MMAP_START 8 :=
    fun va h1 h2 => ⟨0, hin va h1 h2, hr, fun h => absurd h (by decide)⟩
  refine ⟨(hload (hgrant Prot.r rfl)).1.mpr (.inr ⟨by decide, fun va h1 h2 => ?_⟩),
    (hstore (hgrant Prot.w rfl) (by decide) fun _ => 1).1.mpr
    (.inr ⟨by decide, fun va h1 h2 _ => ?_⟩)⟩
  · exact ⟨_, hentry va h1 h2, rfl⟩
  · exact ⟨0, _, hin va h1 h2, hentry va h1 h2, rfl, .inl rfl⟩

/-- Where the process itself would load a zero and could store, both copies fail. -/
theorem user_copy_untouched_page : untouched.Counted ∧ untouched.Granted Prot.r MMAP_START 1 ∧
    untouched.Granted Prot.w MMAP_START 1 ∧ untouched.copyin MMAP_START 1 = none ∧
    (userLoads (fun m _ _ => (none, m)) MMAP_START 1 untouched).map Prod.fst = some (some [0]) ∧
    (copyout (fun m _ _ => (none, m)) untouched MMAP_START 1 fun _ => 1).map Prod.fst = some false ∧
    (userStores (fun m _ _ => (none, m)) MMAP_START 1 (fun _ => 1) untouched).map Prod.fst =
    some true := by
  have hin (va : ℕ) (h1 : MMAP_START ≤ va) (h2 : va < MMAP_START + 1) :
      untouched.space.vmaFind va = some 0 := by
    have hhas : MMAP_START ≤ va ∧ va < MMAP_START + 3 * PAGE_SIZE := ⟨h1, h2.trans (by decide)⟩
    exact find?_cons_of_pos (decide_eq_true hhas)
  refine ⟨untouched_counted, fun va h1 h2 => ⟨0, hin va h1 h2, rfl, nofun⟩,
    fun va h1 h2 => ⟨0, hin va h1 h2, rfl, nofun⟩,
    ?_, ?_, ?_, ?_⟩
  · decide +kernel
  · decide +kernel
  · decide +kernel
  · decide +kernel

end Mem

end Sbunix.Vm
