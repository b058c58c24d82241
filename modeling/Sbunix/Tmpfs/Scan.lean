import Sbunix.Tmpfs.Model

/-!
# Listing a directory that changes

`getdents64` keeps a position in the list of entries, and new entries go to the
front of that list. A scan returns a name that is present all the time exactly
once as long as nothing is entered behind the first entry returned, and nothing
that has been returned is removed.
-/

namespace Sbunix.Tmpfs

open Lib List

section

variable (fs : Fs) (i : ℕ) (g : Inode → Inode)

@[simp] theorem Fs.modify_self : (fs.modify i g).inodes i = g (fs.inodes i) :=
  Function.update_self ..

theorem Fs.modify_ne {j : ℕ} (h : j ≠ i) : (fs.modify i g).inodes j = fs.inodes j :=
  Function.update_of_ne h ..

end

/-- `td` is a directory in use with the entries `l`, and is not entered in itself. -/
structure IsDir (fs : Fs) (td : ℕ) (l : List Dirent) : Prop where
  inUse : (fs.inodes td).inUse = true
  type : (fs.inodes td).type = .dir
  dirents : (fs.inodes td).dirents = l
  other : ∀ d ∈ l, d.target ≠ td

variable {ni : ℕ} {name : Name} {fs fs' : Fs} {td i : ℕ} {l : List Dirent}

section

variable (h : IsDir fs td l)

include h

theorem IsDir.modify_ne (hi : td ≠ i) (g : Inode → Inode) : IsDir (fs.modify i g) td l := by
  obtain ⟨h1, h2, h3, h4⟩ := h
  exact ⟨by rw [fs.modify_ne i g hi, h1], by rw [fs.modify_ne i g hi, h2], by
    rw [fs.modify_ne i g hi, h3], h4⟩

theorem IsDir.modify_keep {g : Inode → Inode}
    (hg : ∀ ti, (g ti).inUse = ti.inUse ∧ (g ti).type = ti.type ∧ (g ti).dirents = ti.dirents) :
    IsDir (fs.modify i g) td l := by
  by_cases hi : td = i
  · subst hi
    obtain ⟨h1, h2, h3, h4⟩ := h
    obtain ⟨g1, g2, g3⟩ := hg (fs.inodes td)
    refine ⟨?_, ?_, ?_, h4⟩
    · rw [fs.modify_self, g1, h1]
    · rw [fs.modify_self, g2, h2]
    · rw [fs.modify_self, g3, h3]
  · exact h.modify_ne hi g

theorem IsDir.nlinkDec (i : ℕ) : IsDir (fs.nlinkDec i) td l :=
  h.modify_keep fun _ => ⟨rfl, rfl, rfl⟩

theorem IsDir.nlinkInc (i : ℕ) : IsDir (fs.nlinkInc i) td l :=
  h.modify_keep fun _ => ⟨rfl, rfl, rfl⟩

theorem IsDir.ifree (hi : td ≠ i) : IsDir (fs.ifree i) td l := h.modify_ne hi _

theorem IsDir.inodePut (hi : td ≠ i) : IsDir (fs.inodePut i) td l := by
  unfold Fs.inodePut Fs.opRelease
  dsimp only
  split
  · split
    · exact (h.modify_ne hi _).modify_ne hi _
    · exact h.modify_ne hi _
  · exact h.modify_ne hi _

theorem IsDir.ialloc {t : IType} (ha : fs.ialloc t = some (ni, fs')) :
    td ≠ ni ∧ IsDir fs' td l := by
  unfold Fs.ialloc at ha
  split at ha
  · cases ha
  next hfirst =>
  cases ha
  obtain ⟨-, -, hfree, -⟩ := firstFrom_some hfirst
  have hne : td ≠ ni := by
    rintro rfl
    rw [h.inUse] at hfree
    cases hfree
  exact ⟨hne, h.modify_ne hne _⟩

theorem IsDir.dirlink {target : ℕ} (ht : target ≠ td)
    (hl : fs.dirlink td name target = some fs') : IsDir fs' td (⟨target, name⟩ :: l) := by
  unfold Fs.dirlink at hl
  split at hl
  · cases hl
  · cases hl
    refine ⟨?_, ?_, ?_, ?_⟩
    · rw [fs.modify_self]
      exact h.inUse
    · rw [fs.modify_self]
      exact h.type
    · rw [fs.modify_self, h.dirents]
    · intro d hd
      rcases mem_cons.mp hd with rfl | hd
      · exact ht
      · exact h.other d hd

end

/-- An operation that enters `name`, if anything, at the front. -/
def Enters (fs' : Fs) (td : ℕ) (l : List Dirent) (name : Name) : Prop :=
  IsDir fs' td l ∨ ∃ target, IsDir fs' td (⟨target, name⟩ :: l)

section

variable (h : IsDir fs td l)

include h

theorem IsDir.enter (name : Name) (hne : td ≠ ni) :
    (∀ fs', fs.enter td name ni = .error fs' → IsDir fs' td l) ∧
      ∀ fs', fs.enter td name ni = .ok fs' → IsDir fs' td (⟨ni, name⟩ :: l) := by
  unfold Fs.enter
  constructor
  · intro fs' he
    split at he
    · cases he
      exact h.modify_ne hne _
    · cases he
  · intro fs' he
    split at he
    · cases he
    · next hlink =>
      cases he
      exact h.dirlink hne.symm hlink

theorem IsDir.create : Enters (fs.opCreate td name).2 td l name := by
  unfold Fs.opCreate
  iterate 3
    split
    · exact .inl h
  split
  · exact .inl h
  next hialloc =>
  obtain ⟨hne, h1⟩ := h.ialloc hialloc
  obtain ⟨herr, hok⟩ := h1.enter name hne
  split
  · next he => exact .inl (herr _ he)
  · next he => exact .inr ⟨_, hok _ he⟩

theorem IsDir.mkdir : Enters (fs.opMkdir td name).2 td l name := by
  unfold Fs.opMkdir
  iterate 3
    split
    · exact .inl h
  split
  · exact .inl h
  next hialloc =>
  obtain ⟨hne, h1⟩ := h.ialloc hialloc
  obtain ⟨herr, hok⟩ := (h1.modify_ne hne _).enter name hne
  split
  · next he => exact .inl (herr _ he)
  · next he => exact .inr ⟨_, ((hok _ he).nlinkInc td).inodePut hne⟩

theorem IsDir.symlink (target : List UInt8) (mem : Bool) :
    Enters (fs.opSymlink td name target mem).2 td l name := by
  unfold Fs.opSymlink
  iterate 5
    split
    · exact .inl h
  split
  · exact .inl h
  next hialloc =>
  obtain ⟨hne, h1⟩ := h.ialloc hialloc
  split
  · exact .inl (h1.ifree hne)
  · dsimp only
    obtain ⟨herr, hok⟩ := (h1.modify_ne hne _).enter name hne
    split
    · next he => exact .inl (herr _ he)
    · next he => exact .inr ⟨_, (hok _ he).inodePut hne⟩

theorem IsDir.link {tgt : ℕ} (ht : tgt ≠ td) : Enters (fs.opLink td tgt name).2 td l name := by
  unfold Fs.opLink
  split
  · exact .inl h
  split
  · exact .inl h
  · next hlink => exact .inr ⟨_, (h.dirlink ht hlink).nlinkInc tgt⟩

theorem IsDir.dropLink (d i : ℕ) : IsDir (fs.dropLink d i) td l := by
  unfold Fs.dropLink
  split
  · exact ((h.nlinkDec d).nlinkDec i).nlinkDec i
  · exact h.nlinkDec i

theorem IsDir.reap (hi : td ≠ i) : IsDir (fs.reap i) td l := by
  unfold Fs.reap
  split
  · exact h.modify_ne hi _
  · exact h

theorem IsDir.dirunlink : IsDir (fs.dirunlink td name) td (l.eraseP (·.name = name)) := by
  refine ⟨?_, ?_, ?_, fun d hd => h.other d (mem_of_mem_eraseP hd)⟩
  · exact (congrArg Inode.inUse (fs.modify_self td _)).trans h.inUse
  · exact (congrArg Inode.type (fs.modify_self td _)).trans h.type
  · rw [Fs.dirunlink, fs.modify_self, h.dirents]

theorem IsDir.unlink (name : Name) : IsDir (fs.opUnlink td name).2 td l ∨
    IsDir (fs.opUnlink td name).2 td (l.eraseP (·.name = name)) := by
  unfold Fs.opUnlink
  iterate 3
    split
    · exact .inl h
  split
  · exact .inl h
  next de hfind =>
  split
  · exact .inl h
  · have hmem : de ∈ l := h.dirents ▸ mem_of_find?_eq_some hfind
    exact .inr ((h.dirunlink.dropLink td de.target).reap (h.other de hmem).symm)

end

/-! ### A scan -/

/-- A scan of a directory: the filesystem, the file offset, the names returned so
far, and whether a call has returned 0. -/
structure Scan where
  fs : Fs
  off : ℕ
  names : List Name
  done : Bool

/-- What happens meanwhile in the directory. -/
inductive ScanOp
  | getdents (n : ℕ) (fault : Bool)
  | create (name : Name)
  | mkdir (name : Name)
  | symlink (name : Name) (target : List UInt8) (mem : Bool)
  | link (tgt : ℕ) (name : Name)
  | unlink (name : Name)

/-- `sys_getdents64` on the directory; `fault` says that `copyout` fails, which leaves the offset
behind the records that are not returned. -/
def Scan.getdents (td n : ℕ) (fault : Bool) (s : Scan) : Option Scan :=
  match s.fs.opGetdents td s.off (min n 1024) with
  | .error _ => none
  | .ok (rs, next) =>
    some (if rs = [] then { s with done := true }
      else { s with off := next, names :=
        if fault then s.names else s.names ++ rs.map Record.name })

/-- One step. A link is entered for a file. -/
def Scan.act (td : ℕ) (s : Scan) : ScanOp → Option Scan
  | .getdents n fault => if s.done then none else s.getdents td n fault
  | .create name => some { s with fs := (s.fs.opCreate td name).2 }
  | .mkdir name => some { s with fs := (s.fs.opMkdir td name).2 }
  | .symlink name target mem => some { s with fs := (s.fs.opSymlink td name target mem).2 }
  | .link tgt name =>
    if (s.fs.inodes tgt).type ≠ .dir then some { s with fs := (s.fs.opLink td tgt name).2 } else
      none
  | .unlink name => some { s with fs := (s.fs.opUnlink td name).2 }

def ScanStep (td : ℕ) (s : Scan) (op : ScanOp) (s' : Scan) : Prop := s.act td op = some s'

/-- The names of a listing, `.` and `..` included. -/
def allNames (l : List Dirent) : List Name := dot :: dotdot :: l.map Dirent.name

theorem listing_names (fs : Fs) (td : ℕ) :
    (fs.listing td).map (·.2.2) = allNames (fs.inodes td).dirents := by
  simp [Fs.listing, allNames]

/-- The operation is about another name than `nm`, a buffer holds the next record and is written,
new entries come while only `.` and `..` have been returned, and what is removed has
not been returned. -/
def undisturbed (td : ℕ) (nm : Name) (s : Scan) : ScanOp → Prop
  | .getdents n fault => ∀ m, (allNames (s.fs.inodes td).dirents)[s.off]? = some m →
    reclen m ≤ min n 1024 ∧ fault = false
  | .create name => name ≠ nm ∧ s.off ≤ 2
  | .mkdir name => name ≠ nm ∧ s.off ≤ 2
  | .symlink name _ _ => name ≠ nm ∧ s.off ≤ 2
  | .link _ name => name ≠ nm ∧ s.off ≤ 2
  | .unlink name => name ≠ nm ∧ name ∉ s.names

instance (td : ℕ) (nm : Name) (s : Scan) : (op : ScanOp) → Decidable (undisturbed td nm s op)
  | .getdents n fault => decidable_of_iff
      ((allNames (s.fs.inodes td).dirents)[s.off]?.all fun m => reclen m ≤ min n 1024 ∧
        fault = false) (by
        simp [undisturbed, Option.all_eq_true])
  | .create _ => inferInstanceAs (Decidable (_ ∧ _))
  | .mkdir _ => inferInstanceAs (Decidable (_ ∧ _))
  | .symlink _ _ _ => inferInstanceAs (Decidable (_ ∧ _))
  | .link _ _ => inferInstanceAs (Decidable (_ ∧ _))
  | .unlink _ => inferInstanceAs (Decidable (_ ∧ _))

variable {nm : Name} {s s' : Scan}

theorem emit_spec (n : ℕ) (es : List (ℕ × ℕ × Name)) (written cursor : ℕ) :
    ∃ k, (emit n es written cursor).1.map Record.name = (es.take k).map (·.2.2) ∧
      (emit n es written cursor).2 = cursor + k ∧ k ≤ es.length ∧
      ((emit n es written cursor).1 = [] → k = 0) ∧
      (k = 0 → ∀ e, es[0]? = some e → n < written + reclen e.2.2) := by
  induction es generalizing written cursor with
  | nil => exact ⟨0, rfl, rfl, le_rfl, fun _ => rfl, nofun⟩
  | cons e es ih =>
    obtain ⟨ino, type, name⟩ := e
    rw [emit]
    split
    · next hfull =>
      refine ⟨0, rfl, rfl, Nat.zero_le _, fun _ => rfl, fun _ e he => ?_⟩
      cases he
      exact hfull
    · obtain ⟨k, h1, h2, h3, -, -⟩ := ih (written + reclen name) (cursor + 1)
      refine ⟨k + 1, ?_, ?_, ?_, nofun, nofun⟩
      · simp [h1]
      · dsimp only
        omega
      · simpa using h3

/-- What has been returned is what is before the cursor. -/
structure Scanned (td : ℕ) (nm : Name) (s : Scan) (l : List Dirent) : Prop where
  dir : IsDir s.fs td l
  once : (allNames l).count nm = 1
  names : s.done = false → s.names = (allNames l).take s.off
  result : s.done = true → s.names.count nm = 1

theorem Scanned.getdents (h : Scanned td nm s l) {n : ℕ} {fault : Bool} (hdone : s.done = false)
    (hroom : undisturbed td nm s (.getdents n fault)) (hstep : s.getdents td n fault = some s') :
    Scanned td nm s' l := by
  have hnames := listing_names s.fs td
  rw [h.dir.dirents] at hnames
  unfold Scan.getdents Fs.opGetdents at hstep
  rw [if_neg (by simp [h.dir.type])] at hstep
  obtain ⟨k, hrec, hnext, hk, hnone, hfull⟩ :=
    emit_spec (min n 1024) ((s.fs.listing td).drop s.off) 0 s.off
  generalize emit (min n 1024) ((s.fs.listing td).drop s.off) 0 s.off = r at *
  obtain ⟨rs, next⟩ := r
  dsimp only at hstep hrec hnext hnone
  have hpiece : rs.map Record.name = ((allNames l).drop s.off).take k := by
    rw [hrec, ← hnames, map_take, map_drop]
  split at hstep
  · next hempty =>
    -- nothing fits only if nothing is left
    cases hstep
    have hend : (allNames l).length ≤ s.off := by
      by_contra hlt
      rw [← hnames, length_map, not_le] at hlt
      have hget : ((s.fs.listing td).drop s.off)[0]? = some (s.fs.listing td)[s.off] := by
        rw [getElem?_drop, Nat.add_zero, getElem?_eq_getElem hlt]
      have hbig := hfull (hnone hempty) _ hget
      have hsmall := (hroom (s.fs.listing td)[s.off].2.2 (by
        rw [h.dir.dirents, ← hnames, getElem?_map, getElem?_eq_getElem hlt]
        rfl)).1
      omega
    refine ⟨h.dir, h.once, nofun, fun _ => ?_⟩
    rw [h.names hdone, take_of_length_le hend]
    exact h.once
  · next hsome =>
    cases hstep
    have hwritten : fault = false := by
      have hlt : s.off < (allNames l).length := by
        by_contra hend
        rw [drop_eq_nil_of_le (not_lt.mp hend), take_nil] at hpiece
        exact hsome (map_eq_nil_iff.mp hpiece)
      exact (hroom _ (by rw [h.dir.dirents]; exact getElem?_eq_getElem hlt)).2
    refine ⟨h.dir, h.once, fun _ => ?_, fun hd => ?_⟩
    · rw [hwritten, if_neg Bool.false_ne_true, h.names hdone, hpiece, hnext, take_add]
    · rw [hdone] at hd
      cases hd

theorem Scanned.enter {fs : Fs} (h : Scanned td nm s l) (hne : name ≠ nm)
    (hoff : s.off ≤ 2) (hent : Enters fs td l name) :
    ∃ l', Scanned td nm { s with fs := fs } l' := by
  rcases hent with hd | ⟨target, hd⟩
  · exact ⟨l, hd, h.once, h.names, h.result⟩
  · refine ⟨_, hd, ?_, fun hdone => ?_, h.result⟩
    · have := h.once
      simp only [allNames, map_cons, count_cons] at this ⊢
      rw [if_neg (by simpa using hne)]
      omega
    · rw [h.names hdone]
      unfold allNames
      interval_cases s.off <;> rfl

theorem map_eraseP_name (l : List Dirent) (name : Name) :
    (l.eraseP (·.name = name)).map Dirent.name = (l.map Dirent.name).erase name := by
  induction l with
  | nil => rfl
  | cons d l ih =>
    by_cases hd : d.name = name
    · simp [hd]
    · simp [hd, ih]

theorem take_erase {α : Type} [BEq α] [LawfulBEq α] {l : List α} {a : α} {k : ℕ}
    (h : a ∉ l.take k) :
    (l.erase a).take k = l.take k := by
  induction l generalizing k with
  | nil => rfl
  | cons b l ih =>
    cases k with
    | zero => rfl
    | succ k =>
      rw [take_succ_cons, mem_cons, not_or] at h
      rw [erase_cons_tail (by simpa using Ne.symm h.1), take_succ_cons, take_succ_cons, ih h.2]

theorem Scanned.erase {fs : Fs} (h : Scanned td nm s l) (hne : name ≠ nm)
    (hnew : name ∉ s.names) (hd : IsDir fs td (l.eraseP (·.name = name))) :
    Scanned td nm { s with fs := fs } (l.eraseP (·.name = name)) := by
  refine ⟨hd, ?_, fun hdone => ?_, h.result⟩
  · have := h.once
    simp only [allNames, map_eraseP_name, count_cons] at this ⊢
    rwa [count_erase_of_ne hne.symm]
  · have hnames := h.names hdone
    rw [hnames] at hnew ⊢
    unfold allNames at hnew ⊢
    rw [map_eraseP_name]
    generalize s.off = off at hnew ⊢
    -- the two entries in front are not on the list
    rcases off with _ | _ | k
    · rfl
    · rfl
    · simp only [take_succ_cons, mem_cons, not_or] at hnew ⊢
      rw [take_erase hnew.2.2]

theorem Scanned.step (h : Scanned td nm s l) {op : ScanOp} (hok : undisturbed td nm s op)
    (hstep : ScanStep td s op s') : ∃ l', Scanned td nm s' l' := by
  cases op with
  | getdents n fault =>
    simp only [ScanStep, Scan.act] at hstep
    split at hstep
    · cases hstep
    · next hdone => exact ⟨l, h.getdents (by simpa using hdone) hok hstep⟩
  | create name =>
    cases hstep
    exact h.enter hok.1 hok.2 h.dir.create
  | mkdir name =>
    cases hstep
    exact h.enter hok.1 hok.2 h.dir.mkdir
  | symlink name target mem =>
    cases hstep
    exact h.enter hok.1 hok.2 (h.dir.symlink target mem)
  | link tgt name =>
    simp only [ScanStep, Scan.act] at hstep
    split at hstep
    · next htype =>
      cases hstep
      have htd : tgt ≠ td := by
        rintro rfl
        exact htype h.dir.type
      exact h.enter hok.1 hok.2 (h.dir.link htd)
    · cases hstep
  | unlink name =>
    cases hstep
    rcases h.dir.unlink name with hd | hd
    · exact ⟨l, hd, h.once, h.names, h.result⟩
    · exact ⟨_, h.erase hok.1 hok.2 hd⟩

def Scan.start (fs : Fs) : Scan := ⟨fs, 0, [], false⟩

/-- A scan that runs until a call returns 0 has returned a name that was there
all the time exactly once, if buffers hold a record, nothing is entered once an
entry has been returned, and nothing returned is removed meanwhile. -/
theorem scan_returns_once {fs : Fs} {td : ℕ} {l : List Dirent} (hdir : IsDir fs td l) {nm : Name}
    (honce : (allNames l).count nm = 1) {s : Scan}
    (h : Reaches (ScanStep td) (undisturbed td nm) (.start fs) s) (hdone : s.done = true) :
    s.names.count nm = 1 := by
  have hinv : ∃ l', Scanned td nm s l' := by
    refine h.invariant (I := fun s => ∃ l', Scanned td nm s l') ⟨l, hdir, honce,
      fun _ => rfl, nofun⟩ ?_
    rintro s op s' ⟨l', hs⟩ hok hstep
    exact hs.step hok hstep
  obtain ⟨l', hs⟩ := hinv
  exact hs.result hdone

/-- Carry out operations one after the other, as long as `ok` admits them. -/
def Scan.run (td : ℕ) (ok : Scan → ScanOp → Bool) : List ScanOp → Scan → Option Scan
  | [], s => some s
  | op :: ops, s => if ok s op then (s.act td op).bind (Scan.run td ok ops) else none

theorem Scan.run_reaches {td : ℕ} {ok : Scan → ScanOp → Bool} {ops : List ScanOp} {s s' : Scan}
    (h : Scan.run td ok ops s = some s') :
    Reaches (ScanStep td) (fun s op => ok s op = true) s s' :=
  reaches_of_run (fun _ => rfl) (fun _ _ _ => rfl) id h

/-- The root directory with the files `a` and `b`. -/
def twoFiles : Fs := ((Fs.init.opCreate 0 [97]).2.opCreate 0 [98]).2

/-- A scan in which `c` is created behind `..`, and `a` removed behind `c`. -/
def mixedScan : List ScanOp :=
  [.getdents 64 false, .create [99], .getdents 24 false, .unlink [97], .getdents 64 false,
    .getdents 64 false]

theorem scan_returns_once_mixed : ∃ s, Scan.run 0 (fun s op => undisturbed 0 [98] s op) mixedScan
    (.start twoFiles) = some s ∧ s.done = true ∧ s.names.count [98] = 1 := by
  refine exists_end (P := fun s => s.done = true) (by decide +kernel) fun s hs hdone => ⟨hdone, ?_⟩
  have hdir : IsDir twoFiles 0 [⟨2, [98]⟩, ⟨1, [97]⟩] :=
    ⟨by decide +kernel, by decide +kernel, by decide +kernel, by decide⟩
  have hreach : Reaches (ScanStep 0) (undisturbed 0 [98]) (.start twoFiles) s :=
    (Scan.run_reaches hs).mono fun _ _ h => of_decide_eq_true h
  exact scan_returns_once hdir (by decide) hreach hdone

/-- One record at a time, and `c` is created when `b` has been returned. -/
def lateCreate : List ScanOp :=
  [.getdents 24 false, .getdents 24 false, .getdents 24 false, .create [99], .getdents 24 false,
    .getdents 24 false, .getdents 24 false]

/-- The new entry moves `b` to the place of the next one: it is returned twice. -/
theorem name_returned_twice :
    ∃ s, Scan.run 0 (fun _ _ => true) lateCreate (.start twoFiles) = some s ∧
    s.done = true ∧ s.names = [dot, dotdot, [98], [98], [97]] := by
  exact exists_end (by decide +kernel) fun _ _ => id

end Sbunix.Tmpfs
