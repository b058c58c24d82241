import Sbunix.Tmpfs.Model

/-!
# A tmpfs file is an array of bytes

`Contents` says what a file is for; `Inode.content` reads it off the pages. A
write changes the bytes that it counts and no others, also when pages run out in
the middle. The size is extended to the offset even if nothing could be written
there; a write behind the end that gets no page is the one case in which an
error changes the file.
-/

namespace Sbunix.Tmpfs

open Lib List

structure Contents where
  bytes : ℕ → UInt8
  size : ℕ

namespace Contents

def empty : Contents := ⟨fun _ => 0, 0⟩

/-- The bytes of `[off, off + n)` that lie within the size. -/
def read (a : Contents) (off n : ℕ) : List UInt8 :=
  (List.range (min n (a.size - off))).map fun i => a.bytes (off + i)

/-- Overwrite `[off, off + count)`, and extend the size to cover it. -/
def write (a : Contents) (off count : ℕ) (src : ℕ → UInt8) : Contents where
  bytes i := if off ≤ i ∧ i < off + count then src (i - off) else a.bytes i
  size := if count = 0 then a.size else max a.size (off + count)

end Contents

/-- The byte at `i` of the pages; a hole reads as zero. -/
def Inode.content (ti : Inode) (i : ℕ) : UInt8 :=
  match ti.findPage i with
  | some pg => pg.get (i % TMPFS_PAGE_SIZE)
  | none => 0

variable {rounds off : ℕ} {mem : ℕ → Bool} {pg : Page} {src : ℕ → UInt8} {ti ti' : Inode}
    {n total : ℕ}

theorem chunk_bounds (off : ℕ) (h : total < n) :
    0 < chunk off n total ∧ total + chunk off n total ≤ n ∧
    (off + total) % TMPFS_PAGE_SIZE + chunk off n total ≤ TMPFS_PAGE_SIZE := by
  have := Nat.mod_lt (off + total) (show 0 < TMPFS_PAGE_SIZE by decide)
  unfold chunk
  omega

theorem chunk_page {j i : ℕ} (h : j % TMPFS_PAGE_SIZE + i < TMPFS_PAGE_SIZE) :
    (j + i) / TMPFS_PAGE_SIZE = j / TMPFS_PAGE_SIZE ∧
      (j + i) % TMPFS_PAGE_SIZE = j % TMPFS_PAGE_SIZE + i := by
  unfold TMPFS_PAGE_SIZE at *
  omega

theorem findPage_chunk {j i : ℕ} (h : j % TMPFS_PAGE_SIZE + i < TMPFS_PAGE_SIZE) :
    ti.findPage (j + i) = ti.findPage j := by
  unfold Inode.findPage
  rw [(chunk_page h).1]

theorem map_range_append {α : Type} (f : ℕ → α) (a b : ℕ) :
    (List.range a).map f ++ (List.range b).map (fun i => f (a + i)) =
    (List.range (a + b)).map f := by
  rw [range_add, map_append, map_map]
  rfl

theorem piece_eq {pos len : ℕ} (h : pos % TMPFS_PAGE_SIZE + len ≤ TMPFS_PAGE_SIZE) :
    ti.piece pos len = (List.range len).map fun i => ti.content (pos + i) := by
  have hin : ∀ i ∈ List.range len, pos % TMPFS_PAGE_SIZE + i < TMPFS_PAGE_SIZE := by
    intro i hi
    have := mem_range.mp hi
    omega
  unfold Inode.piece
  split
  · next hfind =>
    refine map_congr_left fun i hi => ?_
    rw [Inode.content, findPage_chunk (hin i hi), hfind, (chunk_page (hin i hi)).2]
  · next hfind =>
    have hzero : List.replicate len (0 : UInt8) = (List.range len).map fun _ => 0 := by simp
    rw [hzero]
    refine map_congr_left fun i hi => ?_
    rw [Inode.content, findPage_chunk (hin i hi), hfind]

theorem readLoop_eq {buf : List UInt8} (hr : n - total ≤ rounds) (ht : total ≤ n) :
    ti.readLoop off n rounds total buf =
      buf ++ (List.range (n - total)).map fun i => ti.content (off + total + i) := by
  induction rounds generalizing total buf with
  | zero =>
    have hzero : n - total = 0 := by omega
    rw [hzero]
    simp [Inode.readLoop]
  | succ rounds ih =>
    rw [Inode.readLoop]
    split
    · next hlt =>
      obtain ⟨hpos, hle, hpage⟩ := chunk_bounds off hlt
      dsimp only
      rw [piece_eq hpage, ih (by omega) (by omega), append_assoc]
      congr 1
      have hsplit : n - total = chunk off n total + (n - (total + chunk off n total)) := by omega
      rw [hsplit, ← map_range_append]
      congr 1
      refine map_congr_left fun i _ => ?_
      congr 1
      omega
    · next hge =>
      have hzero : n - total = 0 := by omega
      rw [hzero]
      simp

structure SameBytes (ti ti' : Inode) : Prop where
  frame : ti' = { ti with filePages := ti'.filePages }
  content : ∀ i, ti'.content i = ti.content i

theorem getPage_spec (h : ti.getPage mem off = some (pg, ti')) :
    SameBytes ti ti' ∧ off / TMPFS_PAGE_SIZE < TMPFS_PAGES_PER_FILE ∧
      ∀ i, i / TMPFS_PAGE_SIZE = off / TMPFS_PAGE_SIZE →
        pg.get (i % TMPFS_PAGE_SIZE) = ti.content i := by
  unfold Inode.getPage at h
  dsimp only at h
  split at h
  · cases h
  next hidx =>
  have hlt : off / TMPFS_PAGE_SIZE < TMPFS_PAGES_PER_FILE := by omega
  split at h
  · next hpg =>
    cases h
    refine ⟨⟨rfl, fun _ => rfl⟩, hlt, fun i hi => ?_⟩
    simp only [Inode.content, Inode.findPage, hi, if_neg hidx, hpg]
  · next hpg =>
    split at h
    · cases h
      refine ⟨⟨rfl, fun i => ?_⟩, hlt, fun i hi => ?_⟩
      · by_cases hi : i / TMPFS_PAGE_SIZE = off / TMPFS_PAGE_SIZE
        · simp [Inode.content, Inode.findPage, hi, hidx, hpg]
        · simp [Inode.content, Inode.findPage, Function.update_of_ne hi]
      · simp [Inode.content, Inode.findPage, hi, hidx, hpg]
    · cases h

theorem getPage_none (h : ti.getPage mem off = none) (hoff : off < TMPFS_MAX_FILESIZE) :
    ti.findPage off = none ∧ mem (off / TMPFS_PAGE_SIZE) = false := by
  have hidx : ¬ TMPFS_PAGES_PER_FILE ≤ off / TMPFS_PAGE_SIZE := by
    unfold TMPFS_PAGES_PER_FILE TMPFS_MAX_FILESIZE TMPFS_PAGE_SIZE at *
    omega
  unfold Inode.getPage at h
  dsimp only at h
  rw [if_neg hidx] at h
  unfold Inode.findPage
  rw [if_neg hidx]
  split at h
  · cases h
  · next hpg =>
    split at h
    · cases h
    · next hmem => exact ⟨hpg, by simpa using hmem⟩

theorem content_setPage (ti : Inode) {idx : ℕ} (hidx : idx < TMPFS_PAGES_PER_FILE)
    (pg : Page) (i : ℕ) :
    ({ ti with filePages := Function.update ti.filePages idx (some pg) } : Inode).content i =
      if i / TMPFS_PAGE_SIZE = idx then pg.get (i % TMPFS_PAGE_SIZE) else ti.content i := by
  split
  · next hi =>
    simp [Inode.content, Inode.findPage, hi, not_le.mpr hidx]
  · next hi =>
    simp [Inode.content, Inode.findPage, Function.update_of_ne hi]

/-- What the loop of a write leaves when it has got from `total` to `total'`. -/
structure Wrote (off total total' : ℕ) (src : ℕ → UInt8) (ti ti' : Inode) : Prop where
  frame : ti' = { ti with filePages := ti'.filePages }
  content : ∀ i, ti'.content i =
    if off + total ≤ i ∧ i < off + total' then src (i - off) else ti.content i

theorem Wrote.refl (off total : ℕ) (src : ℕ → UInt8) (ti : Inode) :
    Wrote off total total src ti ti :=
  ⟨rfl, fun i => by rw [if_neg (by omega)]⟩

theorem Wrote.trans {total₁ total₂ : ℕ} {ti₁ ti₂ : Inode}
    (h : Wrote off total total₁ src ti ti₁) (h' : Wrote off total₁ total₂ src ti₁ ti₂)
    (hle : total ≤ total₁) (hle' : total₁ ≤ total₂) : Wrote off total total₂ src ti ti₂ where
  frame := by
    rw [h'.frame, h.frame]
  content i := by
    rw [h'.content, h.content]
    split_ifs <;> first | rfl | omega

theorem round_wrote (hlt : total < n) (h : ti.getPage mem (off + total) = some (pg, ti')) :
    Wrote off total (total + chunk off n total) src ti { ti' with
      filePages := Function.update ti'.filePages ((off + total) / TMPFS_PAGE_SIZE)
        (some (pg.copy ((off + total) % TMPFS_PAGE_SIZE) (chunk off n total) fun i =>
          src (total + i))) } := by
  obtain ⟨hsame, hidx, hpg⟩ := getPage_spec h
  obtain ⟨hpos, hle, hpage⟩ := chunk_bounds off hlt
  refine ⟨by rw [hsame.frame], fun i => ?_⟩
  rw [content_setPage ti' hidx, hsame.content]
  have hmod := Nat.mod_lt i (show 0 < TMPFS_PAGE_SIZE by decide)
  split
  · next hi =>
    -- the page of the chunk: inside the chunk it is the source, outside the old page
    rw [Bytes.get_copy _ _ _ _ hmod, hpg i hi]
    have hdiv := Nat.div_add_mod i TMPFS_PAGE_SIZE
    have hdiv' := Nat.div_add_mod (off + total) TMPFS_PAGE_SIZE
    rw [hi] at hdiv
    split_ifs
    · congr 1
      omega
    · omega
    · omega
    · rfl
  · next hi =>
    rw [if_neg]
    rintro ⟨h1, h2⟩
    obtain ⟨d, rfl⟩ := Nat.exists_eq_add_of_le h1
    exact hi (chunk_page (by omega)).1

theorem writeLoop_spec {total' : ℕ} {out : Bool}
    (hr : n - total ≤ rounds) (ht : total ≤ n) (hmax : off + n ≤ TMPFS_MAX_FILESIZE)
    (h : ti.writeLoop mem off n src rounds total = (total', out, ti')) :
    Wrote off total total' src ti ti' ∧ total ≤ total' ∧ total' ≤ n ∧ (out = false → total' = n) ∧
      (out = true → total' < n ∧ mem ((off + total') / TMPFS_PAGE_SIZE) = false ∧
        (total' = total → ti.findPage (off + total) = none)) := by
  induction rounds generalizing total ti with
  | zero =>
    cases h
    exact ⟨.refl _ _ _ _, le_rfl, ht, fun _ => by omega, nofun⟩
  | succ rounds ih =>
    rw [Inode.writeLoop] at h
    split at h
    · next hlt =>
      split at h
      · next hnone =>
        cases h
        obtain ⟨hfind, hmem⟩ := getPage_none hnone (by omega)
        exact ⟨.refl _ _ _ _, le_rfl, ht, nofun, fun _ => ⟨hlt, hmem, fun _ => hfind⟩⟩
      · next pg ti₁ hsome =>
        obtain ⟨hpos, hle, hpage⟩ := chunk_bounds off hlt
        obtain ⟨hw, h1, h2, h3⟩ := ih (by omega) hle h
        refine ⟨(round_wrote hlt hsome).trans hw (by omega) h1, by omega, h2, h3.1, fun hout => ?_⟩
        obtain ⟨h4, h5, -⟩ := h3.2 hout
        exact ⟨h4, h5, fun h => by omega⟩
    · cases h
      exact ⟨.refl _ _ _ _, le_rfl, ht, fun _ => by omega, nofun⟩

/-! ### Operations -/

theorem Inode.read_eq (htype : ti.type = .reg) (off n : ℕ) :
    ti.read off n = ((((Contents.mk ti.content ti.size).read off n).length : ℤ),
      (Contents.mk ti.content ti.size).read off n) := by
  unfold Inode.read Contents.read
  rw [if_neg (by simp [htype])]
  split
  · next hoff =>
    have hzero : ti.size - off = 0 := by omega
    simp [hzero]
  · dsimp only
    rw [readLoop_eq (by omega) (by omega)]
    simp

/-- The write gets a page for its first byte, or starts within the file. -/
def anchored (ti : Inode) (mem : ℕ → Bool) (off : ℕ) : Prop :=
  off ≤ ti.size ∨ (ti.findPage off).isSome ∨ mem (off / TMPFS_PAGE_SIZE) = true

instance (ti : Inode) (mem : ℕ → Bool) (off : ℕ) : Decidable (anchored ti mem off) :=
  inferInstanceAs (Decidable (_ ∨ _ ∨ _))

/-- What a write that returns `r` leaves. -/
structure Written (mem : ℕ → Bool) (off n : ℕ) (src : ℕ → UInt8) (ti : Inode) (r : ℤ)
    (ti' : Inode) :
    Prop where
  type : ti'.type = ti.type
  content : ∀ i, ti'.content i = if off ≤ i ∧ i < off + r.toNat then src (i - off) else ti.content i
  size : ti'.size = if r.toNat = 0 then ti.size else max ti.size (off + r.toNat)
  cap : r.toNat = 0 ∨ off + r.toNat ≤ TMPFS_MAX_FILESIZE
  full : (∀ idx, mem idx = true) → off < TMPFS_MAX_FILESIZE →
    r = (min n (TMPFS_MAX_FILESIZE - off) : ℕ)

theorem Written.nothing {n : ℕ} (src : ℕ → UInt8) {r : ℤ} (hr : r ≤ 0)
    (hfull : (∀ idx, mem idx = true) → off < TMPFS_MAX_FILESIZE →
      r = (min n (TMPFS_MAX_FILESIZE - off) : ℕ)) : Written mem off n src ti r ti := by
  have hzero : r.toNat = 0 := by omega
  refine ⟨rfl, fun i => ?_, ?_, .inl hzero, hfull⟩
  · rw [if_neg (by omega)]
  · rw [if_pos hzero]

theorem Inode.write_spec (htype : ti.type = .reg) (n : ℕ) (src : ℕ → UInt8)
    (hanch : anchored ti mem off) :
    Written mem off n src ti (ti.write mem off src n).1 (ti.write mem off src n).2 := by
  unfold Inode.write
  rw [if_neg (by simp [htype])]
  by_cases hn : n = 0
  · rw [if_pos hn]
    exact .nothing src le_rfl fun _ _ => by simp [hn]
  rw [if_neg hn]
  by_cases hoff : TMPFS_MAX_FILESIZE ≤ off
  · rw [if_pos hoff]
    exact .nothing src (by change -EFBIG ≤ 0; decide) fun _ hlt => absurd hoff (by omega)
  rw [if_neg hoff]
  rcases hloop : ti.writeLoop mem off (min n (TMPFS_MAX_FILESIZE - off)) src
    (min n (TMPFS_MAX_FILESIZE - off)) 0 with ⟨total, out, ti₁⟩
  obtain ⟨hw, -, hle, hend, hout⟩ := writeLoop_spec (by omega) (Nat.zero_le _) (by omega) hloop
  have hsize : ti₁.size = ti.size := by rw [hw.frame]
  have htype₁ : ti₁.type = ti.type := by rw [hw.frame]
  have hfull : (∀ idx, mem idx = true) → total = min n (TMPFS_MAX_FILESIZE - off) := by
    intro hmem
    refine hend ?_
    by_contra hshort
    have := (hout (by simpa using hshort)).2.1
    rw [hmem] at this
    cases this
  simp only [hloop]
  by_cases htotal : total = 0
  · -- nothing was written: there is no page at `off`, so the write starts within the file
    subst htotal
    have hshort : out = true := by
      by_contra hfalse
      have := hend (by simpa using hfalse)
      omega
    obtain ⟨-, hmem, hfind⟩ := hout hshort
    rw [Nat.add_zero] at hmem hfind
    have hstart : off ≤ ti.size := by
      rcases hanch with h | h | h
      · exact h
      · rw [hfind rfl] at h
        cases h
      · rw [hmem] at h
        cases h
    rw [if_neg (by simp), if_pos hshort, if_neg (by omega)]
    refine ⟨htype₁, fun i => ?_, hsize, .inl rfl, fun hall => absurd (hfull hall) (by omega)⟩
    rw [hw.content]
    rfl
  · rw [if_pos htotal]
    refine ⟨?_, fun i => ?_, ?_, .inr ?_, fun hall _ => ?_⟩
    · split <;> exact htype₁
    · have hcontent := hw.content i
      rw [Nat.add_zero] at hcontent
      rw [Int.toNat_natCast, ← hcontent]
      split <;> rfl
    · rw [Int.toNat_natCast, if_neg htotal]
      split
      · dsimp only
        omega
      · omega
    · rw [Int.toNat_natCast]
      omega
    · rw [hfull hall]

/-! ### Runs -/

/-- What is done to a file; `mem` says for which pages memory is left. -/
inductive FileOp
  | read (off n : ℕ)
  | write (mem : ℕ → Bool) (off n : ℕ) (src : ℕ → UInt8)
  | truncate

/-- A file, and the array that the operations and their return values describe. -/
structure FileRun where
  ti : Inode
  array : Contents

namespace FileRun

def act (s : FileRun) : FileOp → FileRun
  | .read _ _ => s
  | .write mem off n src =>
    let (r, ti) := s.ti.write mem off src n
    ⟨ti, s.array.write off r.toNat src⟩
  | .truncate => ⟨s.ti.truncate.2, .empty⟩

/-- A write gets a page for its first byte, or starts within the file. -/
def fits (s : FileRun) : FileOp → Prop
  | .write mem off _ _ => anchored s.ti mem off
  | .read _ _ => True
  | .truncate => True

/-- The file is the array. -/
structure Agrees (s : FileRun) : Prop where
  type : s.ti.type = .reg
  content : s.ti.content = s.array.bytes
  size : s.ti.size = s.array.size
  cap : s.ti.size ≤ TMPFS_MAX_FILESIZE

variable {s : FileRun}

theorem Agrees.step (h : Agrees s) {op : FileOp} (hfits : fits s op) : Agrees (s.act op) := by
  cases op with
  | read off n => exact h
  | write mem off n src =>
    have hw := Inode.write_spec h.type n src hfits
    refine ⟨hw.type.trans h.type, funext fun i => ?_, ?_, ?_⟩
    · simp only [act, Contents.write, hw.content, h.content]
    · simp only [act, Contents.write, hw.size, h.size]
    · have hcap := hw.cap
      have hsize := hw.size
      have hold := h.cap
      simp only [act]
      split_ifs at hsize <;> omega
  | truncate =>
    have ht : s.ti.truncate = (0, { s.ti with filePages := fun _ => none, size := 0 }) := by
      rw [Inode.truncate, if_neg (by simp [h.type])]
    refine ⟨?_, funext fun i => ?_, ?_, ?_⟩
    · simp only [act, ht, h.type]
    · simp [act, ht, Inode.content, Inode.findPage, Contents.empty]
    · simp only [act, ht, Contents.empty]
    · simp only [act, ht]
      exact Nat.zero_le _

end FileRun

def FileStep (s : FileRun) (op : FileOp) (s' : FileRun) : Prop := s.act op = s'

def newFile : Inode := ⟨true, .reg, 1, 1, 0, fun _ => none, [], none⟩

/-- In every run whose writes get a page for their first byte or start within
the file, reads return the bytes of the array that the writes describe, the size
is its size, a write with enough memory writes up to the cap, and one that
returns an error changes neither the bytes nor the size. -/
theorem file_is_array {s : FileRun} (h : Reaches FileStep FileRun.fits ⟨newFile, .empty⟩ s) :
    (∀ off n, s.ti.read off n = (((s.array.read off n).length : ℤ), s.array.read off n)) ∧
    s.ti.size = s.array.size ∧ s.array.size ≤ TMPFS_MAX_FILESIZE ∧
    ∀ mem off n src, FileRun.fits s (.write mem off n src) →
      let r := s.ti.write mem off src n
      (r.1 < 0 → r.2.content = s.ti.content ∧ r.2.size = s.ti.size) ∧
      ((∀ idx, mem idx = true) → off < TMPFS_MAX_FILESIZE →
        r.1 = (min n (TMPFS_MAX_FILESIZE - off) : ℕ)) := by
  have hagrees : s.Agrees := by
    refine h.invariant (I := FileRun.Agrees) ⟨rfl, ?_, rfl, Nat.zero_le _⟩ ?_
    · funext i
      simp [Inode.content, Inode.findPage, newFile, Contents.empty]
    · rintro s op _ hs hfits rfl
      exact hs.step hfits
  refine ⟨fun off n => ?_, hagrees.size, hagrees.size ▸ hagrees.cap, fun mem off n src hfits => ?_⟩
  · rw [Inode.read_eq hagrees.type, hagrees.content, hagrees.size]
  · have hw := Inode.write_spec hagrees.type n src hfits
    refine ⟨fun hneg => ?_, hw.full⟩
    have hzero : (s.ti.write mem off src n).1.toNat = 0 := by omega
    constructor
    · funext i
      rw [hw.content, hzero, if_neg (by omega)]
    · rw [hw.size, if_pos hzero]

/-- Two bytes at the end of the first page, where memory lasts for that page only. -/
def pageEnd : FileOp := .write (fun idx => decide (idx = 0)) 4095 2 fun i => if i = 0 then 7 else 8

theorem file_is_array_pageEnd : (FileRun.act ⟨newFile, .empty⟩ pageEnd).ti.size = 4096 ∧
    let s := FileRun.act ⟨newFile, .empty⟩ pageEnd
    (∀ off n, s.ti.read off n = (((s.array.read off n).length : ℤ), s.array.read off n)) ∧
    s.ti.size = s.array.size ∧ s.array.size ≤ TMPFS_MAX_FILESIZE ∧
    ∀ mem off n src, FileRun.fits s (.write mem off n src) →
      let r := s.ti.write mem off src n
      (r.1 < 0 → r.2.content = s.ti.content ∧ r.2.size = s.ti.size) ∧
      ((∀ idx, mem idx = true) → off < TMPFS_MAX_FILESIZE →
        r.1 = (min n (TMPFS_MAX_FILESIZE - off) : ℕ)) := by
  refine ⟨by decide +kernel, file_is_array (.single (a := pageEnd) ?_ rfl)⟩
  exact .inr (.inr (by decide))

/-- A write behind the end of an empty file that gets no page fails and extends the file. -/
theorem failed_write_extends : (newFile.write (fun _ => false) 4096 (fun _ => 1) 1).1 = -ENOSPC ∧
    (newFile.write (fun _ => false) 4096 (fun _ => 1) 1).2.size = 4096 := by
  decide +kernel

end Sbunix.Tmpfs
