import Sbunix.Exec.Confined

/-!
# The frames of an execve

Every frame that `do_exec` takes is either free again or held by the new page table, which
`free_user_pgtable` gives back when the call fails or the process exits. That is so exactly
if none was lost on the way: by mapping a page over another, through a table of the kernel,
without memory for a page table or without any permission, or to a new slab of VMA records.
-/

namespace Sbunix.Exec

open List

def EINVAL : ℤ := 22

/-- `free_user_pages_level` finds the page: it skips an entry without any permission. -/
def found (e : ℕ × Leaf) : Bool := ownRoot (e.1 / 2 ^ 18) && e.2.perm.some

namespace Space

def held (s : Space) : List ℕ :=
  s.root :: ((s.l1.filter fun e => ownRoot e.1).map (·.2) ++
    ((s.l0.filter fun e => ownRoot (e.1 / 512)).map (·.2) ++ (s.leaf.filter found).map (·.2.frame)))

def freeUserPgtable (s : Space) : Space := { s with free := s.free ++ s.held }

/-- A VMA that `do_exec` adds itself. -/
def addVma (s : Space) (v : Vma) (vlist : List Vma) : Except (ℤ × Space) (Space × List Vma) :=
  match s.vmaAlloc with
  | none => .error (-ENOMEM, s.vmaListFree vlist)
  | some s =>
    match vmaInsert v none vlist with
    | none => .error (-EINVAL, s.vmaListFree (v :: vlist))
    | some vlist => .ok (s, vlist)

end Space

def failExec (e : ℤ) (s : Space) : Except ℤ Unit × Space := (.error e, s.freeUserPgtable)

/-- `do_exec` from `create_user_pgtable` on. `args` is what `setup_user_stack` answers. The
space starts with the kernel's tables, which the new root copies. -/
def doExec (f : File) (args : Except ℤ Unit) (s : Space) : Except ℤ Unit × Space :=
  match s.pageAlloc with
  | none => (.error (-ENOMEM), s)
  | some (root, s) =>
    match loadUserElf f { s with root := root } with
    | .error (e, s) => failExec e s
    | .ok img =>
      -- `map_stack`
      match img.space.pageAlloc with
      | none => failExec (-ENOMEM) (img.space.vmaListFree img.vmas)
      | some (p, s) =>
        let s := s.vmemMap (USER_STACK_TOP - PAGE_SIZE) ⟨p, fun _ => 0, ⟨true, true, false⟩⟩
        match args with
        | .error e => failExec e (s.vmaListFree img.vmas)
        | .ok _ =>
          match s.addVma ⟨img.brk, img.brk, ⟨true, true, false⟩⟩ img.vmas with
          | .error (e, s) => failExec e s
          | .ok (s, vlist) =>
            match s.addVma ⟨USER_STACK_TOP - PAGE_SIZE, USER_STACK_TOP, ⟨true, true, false⟩⟩
              vlist with
            | .error (e, s) => failExec e s
            | .ok (s, _) => (.ok (), s)

/-- After a failure the free frames are those of before, and after a success they are once
the process has exited. -/
def Conserved (s : Space) : Except ℤ Unit × Space → Prop
  | (.error _, s') => s'.free.Perm s.free
  | (.ok _, s') => s'.freeUserPgtable.free.Perm s.free

/-! ## Accounts -/

/-- The frames of `init`, with those of `hand` just taken: all free, in hand or held as long as
none was lost, and fewer from then on. -/
structure Space.Account (init hand : List ℕ) (s : Space) : Prop where
  kept : s.lost = false → (hand ++ (s.free ++ s.held)).Perm init ∧ ∀ e ∈ s.leaf, found e = true
  lost : s.lost = true → (hand ++ (s.free ++ s.held)).length < init.length

/-- A result that leaves the accounts right in case of an error. -/
def Settled {α : Type} (init : List ℕ) (P : α → Prop) : Except (ℤ × Space) α → Prop
  | .error (_, s) => s.Account init []
  | .ok a => P a

variable {init : List ℕ} {s : Space}

namespace Space

variable {s' : Space} {va t : ℕ}

theorem Account.of_perm {hand hand' : List ℕ} (h : s.Account init hand) (hlost : s'.lost = s.lost)
    (hleaf : s'.leaf = s.leaf)
    (hperm : (hand' ++ (s'.free ++ s'.held)).Perm (hand ++ (s.free ++ s.held))) :
    s'.Account init hand' := by
  refine ⟨fun h0 => ?_, fun h1 => ?_⟩
  · obtain ⟨hp, hfound⟩ := h.kept (hlost ▸ h0)
    exact ⟨hperm.trans hp, hleaf ▸ hfound⟩
  · rw [hperm.length_eq]
    exact h.lost (hlost ▸ h1)

/-- A frame was lost, now or before. -/
theorem Account.of_lost {hand hand' : List ℕ} (h : s.Account init hand) (hlost : s'.lost = true)
    (hlen : (hand' ++ (s'.free ++ s'.held)).length ≤ (hand ++ (s.free ++ s.held)).length)
    (hnow : s.lost = false →
      (hand' ++ (s'.free ++ s'.held)).length < (hand ++ (s.free ++ s.held)).length) :
    s'.Account init hand' := by
  refine ⟨fun h0 => absurd (hlost.symm.trans h0) (by simp), fun _ => ?_⟩
  cases h0 : s.lost with
  | false => exact (hnow h0).trans_le (h.kept h0).1.length_eq.le
  | true => exact hlen.trans_lt (h.lost h0)

theorem Account.pageAlloc (h : s.Account init []) (ha : s.pageAlloc = some (t, s')) :
    s'.Account init [t] := by
  unfold Space.pageAlloc at ha
  split at ha
  · cases ha
  · next f free hfree =>
    cases ha
    exact h.of_perm rfl rfl (by rw [hfree]; exact .refl _)

theorem Account.pageFree (h : s.Account init [t]) : (s.pageFree t).Account init [] :=
  h.of_perm rfl rfl (.refl _)

/-- What the walk to an entry leaves: a new table is held, unless it is below a root entry
that is not the process's own. -/
structure Walked (va : ℕ) (s s' : Space) : Prop where
  lost : s'.lost = s.lost
  leaf : s'.leaf = s.leaf
  le : (s'.free ++ s'.held).length ≤ (s.free ++ s.held).length
  own : ownRoot (rootIx va) = true → (s'.free ++ s'.held).Perm (s.free ++ s.held)

theorem Walked.refl (va : ℕ) (s : Space) : Walked va s s := ⟨rfl, rfl, le_rfl, fun _ => .refl _⟩

theorem Walked.trans {s'' : Space} (h : Walked va s s') (h' : Walked va s' s'') : Walked va s s'' :=
  ⟨h'.lost.trans h.lost, h'.leaf.trans h.leaf, h'.le.trans h.le,
    fun ho => (h'.own ho).trans (h.own ho)⟩

theorem table1_walked (h : s.table1 va = some (t, s')) : Walked va s s' := by
  unfold table1 at h
  split at h
  · cases h
    exact .refl va s
  split at h
  · cases h
  next ha =>
  cases h
  unfold Space.pageAlloc at ha
  split at ha
  · cases ha
  next f free hfree =>
  cases ha
  refine ⟨rfl, rfl, ?_, fun hown => perm_iff_count.mpr fun a => ?_⟩
  · simp only [held, hfree, filter_cons]
    split
    · simp
      omega
    · simp
  · simp only [held, hfree, filter_cons, hown, if_true, map_cons, count_append, count_cons]
    ring

theorem table0_walked {t1 : ℕ} (h : s.table0 t1 va = some (t, s')) : Walked va s s' := by
  unfold table0 at h
  split at h
  · cases h
    exact .refl va s
  split at h
  · cases h
  next ha =>
  cases h
  unfold Space.pageAlloc at ha
  split at ha
  · cases ha
  next f free hfree =>
  cases ha
  refine ⟨rfl, rfl, ?_, fun hown => perm_iff_count.mpr fun a => ?_⟩
  · simp only [held, hfree, filter_cons]
    split
    · simp
      omega
    · simp
  · have hmid : ownRoot (midIx va / 512) = true := by
      rw [show midIx va / 512 = rootIx va by simp only [midIx, rootIx]; omega, hown]
    simp only [held, hfree, filter_cons, hmid, if_true, map_cons, count_append, count_cons]
    ring

/-- The page in hand goes into the table. -/
theorem Account.enter {p : Leaf} (h : s.Account init [p.frame]) (hw : Walked va s s') (t0 : ℕ) :
    { s' with
      leaf := (vpn va, p) :: s'.leaf.filter (·.1 ≠ vpn va)
      written := t0 :: s'.written
      lost := s'.lost || s'.leaf.any (·.1 = vpn va) || !ownRoot (rootIx va) ||
        !p.perm.some }.Account init [] := by
  have hroot : vpn va / 2 ^ 18 = rootIx va := by
    simp only [vpn, rootIx, PAGE_SIZE]
    omega
  have hfound : found (vpn va, p) = (ownRoot (rootIx va) && p.perm.some) := by rw [found, hroot]
  -- how many pages of the table are found before and after
  have hpages : (((vpn va, p) :: s'.leaf.filter (·.1 ≠ vpn va)).filter found).length ≤
      (s'.leaf.filter found).length + (if found (vpn va, p) then 1 else 0) := by
    have hsub := ((filter_sublist (p := fun e : ℕ × Leaf => decide (e.1 ≠ vpn va))
      (l := s'.leaf)).filter found).length_le
    rw [filter_cons]
    split <;> simp <;> simpa using hsub
  have hle := hw.le
  simp only [held, length_append, length_cons, length_map] at hle
  by_cases hbad : s'.lost = false ∧ s'.leaf.any (·.1 = vpn va) = false ∧
      ownRoot (rootIx va) = true ∧ p.perm.some = true
  · obtain ⟨hlost, hnew, hown, hperm⟩ := hbad
    have hkeep : s'.leaf.filter (·.1 ≠ vpn va) = s'.leaf := by
      rw [filter_eq_self]
      simpa using hnew
    have hin : found (vpn va, p) = true := by rw [hfound, hown, hperm, Bool.true_and]
    obtain ⟨hp, hall⟩ := h.kept (hw.lost ▸ hlost)
    refine ⟨fun _ => ⟨?_, ?_⟩, fun h1 => absurd h1 (by simp [hlost, hnew, hown, hperm])⟩
    · refine List.Perm.trans ?_ (((hw.own hown).cons p.frame).trans hp)
      rw [perm_iff_count]
      intro a
      simp only [held, hkeep, filter_cons, hin, if_true, nil_append, map_cons,
        count_append, count_cons]
      ring
    · rw [hkeep, hw.leaf]
      exact forall_mem_cons.mpr ⟨hin, hall⟩
  · refine h.of_lost ?_ ?_ fun hlost => ?_
    · simp only [not_and, Bool.not_eq_true] at hbad
      simp only [Bool.or_eq_true, Bool.not_eq_true']
      grind
    · simp only [held, length_append, length_cons, length_map, nil_append, singleton_append]
      have : (if found (vpn va, p) then 1 else 0) ≤ 1 := by split <;> omega
      omega
    · simp only [held, length_append, length_cons, length_map, nil_append, singleton_append]
      rw [hw.lost, hlost] at hbad
      by_cases hin : found (vpn va, p) = true
      · -- then it was mapped before, and that page is not found any more
        have hdup : s'.leaf.any (·.1 = vpn va) = true := by
          rw [hfound, Bool.and_eq_true] at hin
          by_contra hno
          exact hbad ⟨rfl, Bool.eq_false_of_not_eq_true hno, hin.1, hin.2⟩
        obtain ⟨e, he, hkey⟩ := any_eq_true.mp hdup
        have hmem : e ∈ s'.leaf.filter found :=
          mem_filter.mpr ⟨he, (h.kept hlost).2 e (hw.leaf ▸ he)⟩
        have hfewer : ((s'.leaf.filter found).filter (·.1 ≠ vpn va)).length <
            (s'.leaf.filter found).length := by
          refine length_filter_lt_length_iff_exists.mpr ⟨e, hmem, ?_⟩
          simpa using hkey
        have hcomm : (s'.leaf.filter (·.1 ≠ vpn va)).filter found =
            (s'.leaf.filter found).filter (·.1 ≠ vpn va) := by
          simp only [filter_filter, Bool.and_comm]
        rw [filter_cons, if_pos hin, length_cons, hcomm]
        omega
      · rw [if_neg hin] at hpages
        omega

theorem Account.vmemMap {p : Leaf} (h : s.Account init [p.frame]) (va : ℕ) :
    (s.vmemMap va p).Account init [] := by
  have hfail : ∀ {s'}, Walked va s s' →
      { s' with short := true, lost := true }.Account init [] := by
    intro s' hw
    have hle := hw.le
    exact h.of_lost rfl (hle.trans (Nat.le_succ _)) fun _ => Nat.lt_succ_of_le hle
  unfold Space.vmemMap
  split
  · exact hfail (.refl va s)
  next t1 s₁ ht1 =>
  have hw₁ := table1_walked ht1
  split
  · exact hfail hw₁
  next t0 s₂ ht0 => exact h.enter (hw₁.trans (table0_walked ht0)) t0

theorem Account.vmaAlloc (h : s.Account init []) (ha : s.vmaAlloc = some s') :
    s'.Account init [] := by
  unfold Space.vmaAlloc at ha
  split at ha
  · cases ha
    exact h.of_perm rfl rfl (.refl _)
  split at ha
  · cases ha
  next s₁ halloc =>
  cases ha
  have h₁ := h.pageAlloc halloc
  exact h₁.of_lost rfl (Nat.le_succ _) fun _ => Nat.lt_succ_self _

theorem Account.vmaListFree (h : s.Account init []) (l : List Vma) :
    (s.vmaListFree l).Account init [] :=
  h.of_perm rfl rfl (.refl _)

theorem Account.short (h : s.Account init []) : { s with short := true }.Account init [] :=
  h.of_perm rfl rfl (.refl _)

theorem Account.loadPages (fill : ℕ → Except ℤ (ℕ → UInt8)) (perm : Perm) (n va : ℕ)
    (h : s.Account init []) : Settled init (Account init []) (loadPages fill perm n va s) := by
  induction n generalizing va s with
  | zero => exact h
  | succ n ih =>
    rw [Exec.loadPages]
    split
    · exact h.short
    next p s₁ ha =>
    have h₁ := h.pageAlloc ha
    split
    · exact h₁.pageFree
    · exact ih _ (Account.vmemMap (p := ⟨p, _, perm⟩) h₁ va)

theorem Account.addVma (h : s.Account init []) (v : Vma) (vlist : List Vma) :
    Settled init (fun r => r.1.Account init []) (s.addVma v vlist) := by
  unfold Space.addVma
  split
  · exact h.vmaListFree _
  next s₁ ha =>
  have h₁ := h.vmaAlloc ha
  split
  · exact h₁.vmaListFree _
  · exact h₁

end Space

/-- `r` conserves the frames exactly if none was lost. -/
def Exact (s : Space) (r : Except ℤ Unit × Space) : Prop := Conserved s r ↔ r.2.lost = false

end Sbunix.Exec
