import Mathlib.Tactic

/-!
# `qsort` and `bsearch`

The insertion sort and the binary search of `libc/stdlib.c` over the bytes of an
array. The array lies in memory, so no offset into it leaves `size_t`.
-/

namespace Sbunix.Libc.Sort

open List

/-! ## Stable sorting -/

variable {α : Type} {cmp : α → α → ℤ}

/-- `cmp` is the comparison of a total preorder. -/
structure TotalPreorder (cmp : α → α → ℤ) : Prop where
  swap : ∀ x y, 0 < cmp x y ↔ cmp y x < 0
  trans : ∀ x y z, cmp x y ≤ 0 → cmp y z ≤ 0 → cmp x z ≤ 0

/-- `l'` is `l` in order, with elements that compare equal to a key as they stood. -/
structure StableSorted (cmp : α → α → ℤ) (l l' : List α) : Prop where
  sorted : l'.Pairwise fun x y => cmp x y ≤ 0
  perm : l'.Perm l
  stable : ∀ k, (l'.filter fun x => cmp x k = 0) = l.filter fun x => cmp x k = 0

theorem TotalPreorder.refl (h : TotalPreorder cmp) (x : α) : cmp x x = 0 := by
  have := h.swap x x
  omega

theorem TotalPreorder.le_of_not_lt (h : TotalPreorder cmp) {x y : α} (hn : ¬ cmp x y < 0) :
    cmp y x ≤ 0 := by
  have := h.swap y x
  omega

/-- One insertion: `x` goes after the last element that is not greater. -/
theorem StableSorted.insert (h : TotalPreorder cmp) {l p q : List α} {x : α}
    (hs : StableSorted cmp l (p ++ q)) (hp : ∀ y ∈ p.getLast?, cmp y x ≤ 0)
    (hq : ∀ y ∈ q, 0 < cmp y x) : StableSorted cmp (l ++ [x]) (p ++ x :: q) := by
  obtain ⟨hpp, hqq, hpq⟩ := pairwise_append.mp hs.sorted
  have hpx : ∀ y ∈ p, cmp y x ≤ 0 := by
    intro y hy
    obtain rfl | ⟨p, z, rfl⟩ := p.eq_nil_or_concat
    · simp at hy
    · rw [concat_eq_append] at hy hp hpp
      have hz : cmp z x ≤ 0 := hp z (by simp)
      rcases mem_append.mp hy with hy | hy
      · exact h.trans y z x ((pairwise_append.mp hpp).2.2 y hy z (by simp)) hz
      · rwa [mem_singleton.mp hy]
  refine ⟨pairwise_append.mpr ⟨hpp, pairwise_cons.mpr ⟨?_, hqq⟩, ?_⟩, ?_, fun k => ?_⟩
  · intro y hy
    exact ((h.swap y x).mp (hq y hy)).le
  · intro y hy z hz
    rcases mem_cons.mp hz with rfl | hz
    · exact hpx y hy
    · exact hpq y hy z hz
  · exact perm_middle.trans ((hs.perm.cons x).trans (perm_append_singleton x l).symm)
  · -- an element of `q` that compares equal to `k` would be greater than `x`, equal to it as well
    rw [filter_append, filter_append, ← hs.stable k, filter_append]
    by_cases hk : cmp x k = 0
    · have hnil : (q.filter fun y => cmp y k = 0) = [] := by
        rw [filter_eq_nil_iff]
        intro y hy hyk
        have hyk := of_decide_eq_true hyk
        have h1 := h.le_of_not_lt (x := x) (y := k) (by omega)
        have h2 := h.trans y k x (by omega) h1
        have := hq y hy
        omega
      simp [hk, hnil]
    · simp [hk]

/-! ## The code -/

variable {size : ℕ}

/-- What a comparison reads behind a pointer. -/
abbrev Elem (size : ℕ) := Fin size → UInt8

abbrev Buf := ℕ → UInt8

/-- `memcpy(dst + d, src + o, n)` -/
def memcpy (dst : Buf) (d : ℕ) (src : Buf) (o n : ℕ) : Buf :=
  fun k => if d ≤ k ∧ k < d + n then src (o + (k - d)) else dst k

/-- The element at `a + i * size`. -/
def elemAt (a : Buf) (i : ℕ) : Elem size := fun k => a (i * size + k)

section

variable (cmp : Elem size → Elem size → ℤ)

/-- The inner loop: elements greater than the one in `tmp` move up. -/
def shift (tmp : Buf) : ℕ → Buf → ℕ × Buf
  | 0, a => (0, a)
  | j + 1, a =>
    if 0 < cmp (elemAt a j) (elemAt tmp 0) then
      shift tmp j (memcpy a ((j + 1) * size) a (j * size) size)
    else (j + 1, a)

/-- One turn of the outer loop, on `tmp` and the array. -/
def insertElem (s : Buf × Buf) (i : ℕ) : Buf × Buf :=
  let tmp := memcpy s.1 0 s.2 (i * size) size
  let (j, a) := shift cmp tmp i s.2
  (tmp, memcpy a (j * size) tmp 0 size)

/-- `qsort`, with the block `malloc` returns. -/
def qsort (malloc : Option Buf) (a : Buf) (nmemb : ℕ) : Buf :=
  if nmemb < 2 ∨ size = 0 then a
  else match malloc with
    | none => a
    | some tmp => ((List.range' 1 (nmemb - 1)).foldl (insertElem cmp) (tmp, a)).2

def searchLoop (key : Elem size) (a : Buf) (lo hi : ℕ) : Option ℕ :=
  if lo < hi then
    let mid := lo + (hi - lo) / 2
    let c := cmp key (elemAt a mid)
    if c = 0 then some mid
    else if c < 0 then searchLoop key a lo mid
    else searchLoop key a (mid + 1) hi
  else none
termination_by hi - lo

/-- `bsearch`: the index of the element found. -/
def bsearch (key : Elem size) (a : Buf) (nmemb : ℕ) : Option ℕ :=
  if size = 0 then none else searchLoop cmp key a 0 nmemb

end

def elems (size : ℕ) (a : Buf) (n : ℕ) : List (Elem size) := (List.range n).map (elemAt a)

/-! ## Sorting -/

variable {a b : Buf} {n m : ℕ} {x : Elem size} {l p q : List (Elem size)} {s : Buf × Buf}
  {cmp : Elem size → Elem size → ℤ}

theorem elemAt_memcpy (size : ℕ) (a b : Buf) (i j m : ℕ) :
    (elemAt (memcpy a (j * size) b (m * size) size) i : Elem size) =
      if i = j then elemAt b m else elemAt a i := by
  funext k
  unfold elemAt memcpy
  have hk := k.isLt
  rcases lt_trichotomy i j with hij | rfl | hij
  · have : i * size + size ≤ j * size := Nat.succ_mul i size ▸ Nat.mul_le_mul_right size hij
    rw [if_neg (by omega), if_neg hij.ne]
  · rw [if_pos (by omega), if_pos rfl, Nat.add_sub_cancel_left]
  · have : j * size + size ≤ i * size := Nat.succ_mul j size ▸ Nat.mul_le_mul_right size hij
    rw [if_neg (by omega), if_neg hij.ne']

theorem elemAt_of_elems (h : elems size a n = p ++ x :: q) : elemAt a p.length = x := by
  have hlen : p.length < n := by
    have := congrArg List.length h
    simp [elems] at this
    omega
  have := congrArg (·[p.length]?) h
  simpa [elems, getElem?_range hlen] using this

theorem elems_memcpy (h : elems size a n = p ++ x :: q) :
    elems size (memcpy a (p.length * size) b (m * size) size) n = p ++ elemAt b m :: q := by
  have hset : elems size (memcpy a (p.length * size) b (m * size) size) n =
      (elems size a n).set p.length (elemAt b m) := by
    apply ext_getElem
    · simp [elems]
    · intro i h1 h2
      simp [elems, getElem_set, elemAt_memcpy, eq_comm]
  rw [hset, h]
  simp

/-- The inner loop opens a gap before the elements that are greater than the one in `tmp`. -/
theorem shift_spec (cmp : Elem size → Elem size → ℤ) (tmp : Buf)
    (h : elems size a n = p ++ x :: q) : ∃ p₁ p₂ y a',
      shift cmp tmp p.length a = (p₁.length, a') ∧ p = p₁ ++ p₂ ∧
      elems size a' n = p₁ ++ y :: (p₂ ++ q) ∧
      (∀ z ∈ p₁.getLast?, cmp z (elemAt tmp 0) ≤ 0) ∧ ∀ z ∈ p₂, 0 < cmp z (elemAt tmp 0) := by
  induction p using List.reverseRecOn generalizing a x q with
  | nil => exact ⟨[], [], x, a, rfl, rfl, h, by simp, by simp⟩
  | append_singleton p z ih =>
    have hsplit : elems size a n = p ++ z :: x :: q := by rw [h, append_assoc]; rfl
    have hz := elemAt_of_elems hsplit
    rw [length_append, length_singleton, shift, hz]
    split
    case isTrue hgt =>
      have hmove := elems_memcpy (b := a) (m := p.length) h
      rw [length_append, length_singleton, hz, append_assoc] at hmove
      obtain ⟨p₁, p₂, y, a', hrun, rfl, helems, hlast, hgreater⟩ := ih hmove
      refine ⟨p₁, p₂ ++ [z], y, a', hrun, append_assoc .., ?_, hlast, ?_⟩
      · rw [helems, append_assoc]
        rfl
      · intro w hw
        rcases mem_append.mp hw with hw | hw
        · exact hgreater w hw
        · rwa [mem_singleton.mp hw]
    case isFalse hle =>
      refine ⟨p ++ [z], [], x, a, by simp, by simp, h, ?_, by simp⟩
      intro w hw
      obtain rfl : z = w := by simpa using hw
      omega

theorem insertElem_spec (hcmp : TotalPreorder cmp) (h : elems size s.2 n = p ++ x :: q)
    (hs : StableSorted cmp l p) :
    ∃ p', p'.length = p.length + 1 ∧ elems size (insertElem cmp s p.length).2 n = p' ++ q ∧
      StableSorted cmp (l ++ [x]) p' := by
  have htmp : (elemAt (memcpy s.1 0 s.2 (p.length * size) size) 0 : Elem size) = x := by
    rw [← elemAt_of_elems h]
    simpa using elemAt_memcpy size s.1 s.2 0 0 p.length
  obtain ⟨p₁, p₂, y, a, hrun, rfl, helems, hlast, hgreater⟩ :=
    shift_spec cmp (memcpy s.1 0 s.2 (p.length * size) size) h
  have hput := elems_memcpy (b := memcpy s.1 0 s.2 ((p₁ ++ p₂).length * size) size) (m := 0) helems
  rw [htmp] at hlast hgreater hput
  refine ⟨p₁ ++ x :: p₂, by simp [Nat.add_assoc], ?_, hs.insert hcmp hlast hgreater⟩
  rw [insertElem, hrun, append_assoc, cons_append, ← hput, Nat.zero_mul]

/-- The outer loop, with `p` sorted and `q` still to be inserted. -/
theorem foldl_insertElem (hcmp : TotalPreorder cmp) (h : elems size s.2 n = p ++ q)
    (hs : StableSorted cmp l p) :
    StableSorted cmp (l ++ q)
      (elems size ((List.range' p.length q.length).foldl (insertElem cmp) s).2 n) := by
  induction q generalizing s p l with
  | nil => simpa [h] using hs
  | cons x q ih =>
    obtain ⟨p', hlen, helems, hs'⟩ := insertElem_spec hcmp h hs
    rw [length_cons, range'_succ, foldl_cons, ← hlen, append_cons]
    exact ih helems hs'

theorem qsort_stableSorted (hcmp : TotalPreorder cmp) (tmp a : Buf) (n : ℕ) :
    StableSorted cmp (elems size a n) (elems size (qsort cmp (some tmp) a n) n) := by
  have hkeep : ∀ l : List (Elem size), l.Pairwise (fun x y => cmp x y ≤ 0) → StableSorted cmp l l :=
    fun l hl => ⟨hl, .refl l, fun _ => rfl⟩
  unfold qsort
  split
  case isTrue htrivial =>
    apply hkeep
    rcases htrivial with hn | rfl
    · interval_cases n <;> simp [elems]
    · refine pairwise_of_forall fun x y => ?_
      rw [Subsingleton.elim x y, hcmp.refl]
  case isFalse hmany =>
    obtain ⟨n, rfl⟩ : ∃ k, n = k + 1 := ⟨n - 1, by omega⟩
    have hfirst : elems size a (n + 1) =
        [elemAt a 0] ++ (List.range n).map fun i => elemAt a (i + 1) := by
      simp [elems, range_succ_eq_map, Function.comp_def]
    have := foldl_insertElem hcmp (s := (tmp, a)) hfirst (hkeep _ (pairwise_singleton ..))
    rw [← hfirst] at this
    simpa using this

/-! ## Searching -/

/-- What a search promises of its result. -/
def Found (cmp : Elem size → Elem size → ℤ) (key : Elem size) (a : Buf) (n : ℕ) : Option ℕ → Prop
  | some m => m < n ∧ cmp key (elemAt a m) = 0
  | none => ∀ k < n, cmp key (elemAt a k) ≠ 0

theorem searchLoop_found {key : Elem size} {lo hi : ℕ} (hcmp : TotalPreorder cmp) (hhi : hi ≤ n)
    (hsorted : ∀ i j, i ≤ j → j < n → cmp (elemAt a i) (elemAt a j) ≤ 0)
    (hlow : ∀ k < lo, 0 < cmp key (elemAt a k))
    (hhigh : ∀ k, hi ≤ k → k < n → cmp key (elemAt a k) < 0) :
    Found cmp key a n (searchLoop cmp key a lo hi) := by
  fun_induction searchLoop cmp key a lo hi with
  | case1 lo hi hlt mid c hc => exact ⟨by omega, hc⟩
  | case2 lo hi hlt mid c hc hneg ih =>
    refine ih (by omega) hlow fun k hk hkn => ?_
    by_contra hn
    have := hcmp.trans _ _ _ (hsorted mid k hk hkn) (hcmp.le_of_not_lt hn)
    have := hcmp.swap (elemAt a mid) key
    omega
  | case3 lo hi hlt mid c hc hneg ih =>
    refine ih hhi (fun k hk => ?_) hhigh
    by_contra hn
    have := hcmp.trans key _ _ (not_lt.mp hn) (hsorted k mid (by omega) (by omega))
    omega
  | case4 lo hi hge =>
    intro k hk
    rcases lt_or_ge k lo with hk' | hk'
    · exact (hlow k hk').ne'
    · exact (hhigh k (by omega) hk).ne

/-- `qsort` sorts stably, and `bsearch` finds a key in what it leaves if there is one, unless the
elements have no bytes. -/
theorem qsort_bsearch {cmp : Elem size → Elem size → ℤ} (hcmp : TotalPreorder cmp)
    (tmp a : Buf) (n : ℕ) :
    StableSorted cmp (elems size a n) (elems size (qsort cmp (some tmp) a n) n) ∧
      (0 < size → ∀ key, Found cmp key (qsort cmp (some tmp) a n) n
        (bsearch cmp key (qsort cmp (some tmp) a n) n)) := by
  have hs := qsort_stableSorted hcmp tmp a n
  refine ⟨hs, fun hsize key => ?_⟩
  rw [bsearch, if_neg hsize.ne']
  refine searchLoop_found hcmp le_rfl (fun i j hij hj => ?_) (by simp) (by omega)
  rcases hij.lt_or_eq with hij | rfl
  · simpa [elems] using pairwise_iff_getElem.mp hs.sorted i j (by simp [elems]; omega)
      (by simpa [elems] using hj) hij
  · exact (hcmp.refl _).le

/-- The comparison of bytes `i` of two elements. -/
def byteCmp {size : ℕ} (i : Fin size) (x y : Elem size) : ℤ := (x i).toNat - (y i).toNat

theorem byteCmp_totalPreorder {size : ℕ} (i : Fin size) : TotalPreorder (byteCmp i) := by
  constructor <;> intros <;> unfold byteCmp at * <;> omega

theorem qsort_bsearch_bytes :
    let a := qsort (byteCmp (0 : Fin 1)) (some fun _ => 0) (fun k => if k = 1 then 3 else 7) 3
    Found (byteCmp (0 : Fin 1)) (fun _ => 7) a 3 (bsearch (byteCmp (0 : Fin 1)) (fun _ => 7) a 3) :=
  (qsort_bsearch (byteCmp_totalPreorder 0) _ _ 3).2 (by decide) _

/-- With elements of no bytes nothing is found, though every element compares equal. -/
theorem bsearch_size_zero : ∃ (cmp : Elem 0 → Elem 0 → ℤ) (tmp a : Buf) (key : Elem 0),
    TotalPreorder cmp ∧ cmp key (elemAt (qsort cmp (some tmp) a 1) 0) = 0 ∧
      bsearch cmp key (qsort cmp (some tmp) a 1) 1 = none :=
  ⟨fun _ _ => 0, fun _ => 0, fun _ => 0, fun _ => 0, ⟨by simp, by simp⟩, rfl, rfl⟩

/-- Sorting by `c` and then by `d` orders by `d`, and by `c` what is equal under `d`. -/
theorem qsort_qsort {c d : Elem size → Elem size → ℤ} (hc : TotalPreorder c) (hd : TotalPreorder d)
    (tmp tmp' a : Buf) (n : ℕ) :
    (elems size (qsort d (some tmp') (qsort c (some tmp) a n) n) n).Pairwise fun x y =>
      d x y < 0 ∨ d x y = 0 ∧ c x y ≤ 0 := by
  have hfirst := (qsort_stableSorted hc tmp a n).sorted
  have hsecond := qsort_stableSorted hd tmp' (qsort c (some tmp) a n) n
  rw [pairwise_iff_forall_sublist] at hfirst ⊢
  intro x y hxy
  have hle := pairwise_iff_forall_sublist.mp hsecond.sorted hxy
  refine hle.lt_or_eq.imp_right fun heq => ⟨heq, ?_⟩
  -- what is equal to `y` under `d` stands as it did before
  have hsub := hxy.filter fun z => d z y = 0
  have hboth : [x, y].filter (fun z => d z y = 0) = [x, y] := by simp [heq, hd.refl y]
  rw [hboth, hsecond.stable y] at hsub
  exact hfirst (hsub.trans filter_sublist)

/-- Pairs of bytes, sorted by the second byte and then by the first. -/
theorem qsort_qsort_pairs :
    let a : Buf := fun k => [2, 9, 1, 5, 2, 3].getD k 0
    let sorted := qsort (byteCmp (1 : Fin 2)) (some fun _ => 0) a 3
    let a' := qsort (byteCmp (0 : Fin 2)) (some fun _ => 8) sorted 3
    (List.range 6).map a' = [1, 5, 2, 3, 2, 9] ∧ (elems 2 a' 3).Pairwise fun x y =>
      byteCmp 0 x y < 0 ∨ byteCmp 0 x y = 0 ∧ byteCmp 1 x y ≤ 0 :=
  ⟨by decide +kernel, qsort_qsort (byteCmp_totalPreorder 1) (byteCmp_totalPreorder 0) _ _ _ 3⟩

end Sbunix.Libc.Sort
