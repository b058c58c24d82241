import Sbunix.Fs.Inode

/-!
# sbfs: what reading does

`sbfs_readi` copies bytes of the file up to the first hole. The entries of a
directory without holes are read whole, 16 bytes at a time.
-/

namespace Sbunix.Fs

open Lib

variable {s s' : State} {data : ℕ → Block} {x : ℕ}

/-! ## Slots -/

theorem ilock_of_valid (h : (s.icache x).valid = true) : ilock x s = (some (), s) := by
  simp [ilock, h]

@[simp] theorem State.setSlot_icache_self (v : Slot) : (s.setSlot x v).icache x = v :=
  Function.update_self _ _ _

theorem State.setSlot_icache_ne {y : ℕ} (hy : y ≠ x) (v : Slot) :
    (s.setSlot x v).icache y = s.icache y :=
  Function.update_of_ne hy _ _

def Slot.withRef (v : Slot) (r : ℤ) : Slot := { v with refcnt := r }

/-- The slot `sbfs_iget` fills. -/
def Slot.fresh (v : Slot) (i : ℕ) (d : Dinode) : Slot :=
  ({ v with
      inum := i, valid := false, dirty := false, refcnt := 1
      mountChild := none, mountParent := none } : Slot).load d

/-! ## Contents -/

/-- The contents of file block `bn`; `none` for a hole. -/
def blockOf (data : ℕ → Block) (addrs : ℕ → ℕ) (bn : ℕ) : Option Block :=
  if bmap data addrs bn = 0 then none else some (data (bmap data addrs bn))

/-- Byte `o` of a file; a hole reads as zero. -/
def byteOf (data : ℕ → Block) (addrs : ℕ → ℕ) (o : ℕ) : UInt8 :=
  match blockOf data addrs (o / 512) with
  | none => 0
  | some b => b.get (o % 512)

theorem readLoop_succ (data : ℕ → Block) (addrs : ℕ → ℕ) (off n fuel total : ℕ) (out : ℕ → UInt8) :
    readLoop data addrs off n (fuel + 1) total out =
      if total < n then
        if bmap data addrs ((off + total) / 512) = 0 then (total, out)
        else readLoop data addrs off n fuel (total + min (512 - (off + total) % 512) (n - total))
          (blit out total (min (512 - (off + total) % 512) (n - total)) fun j =>
            (data (bmap data addrs ((off + total) / 512))).get ((off + total) % 512 + j))
      else (total, out) := rfl

theorem readLoop_spec (data : ℕ → Block) (addrs : ℕ → ℕ) (off n : ℕ) {fuel total : ℕ}
    (hfuel : n ≤ total + fuel) (ht : total ≤ n) (out : ℕ → UInt8) :
    ∃ r, total ≤ r ∧ r ≤ n ∧ readLoop data addrs off n fuel total out =
        (r, fun j => if total ≤ j ∧ j < r then byteOf data addrs (off + j) else out j) ∧
      (r < n → blockOf data addrs ((off + r) / 512) = none) := by
  induction fuel generalizing total out with
  | zero =>
    refine ⟨total, le_rfl, ht, ?_, fun h => by omega⟩
    rw [readLoop]
    congr 1
    funext j
    rw [if_neg (by omega)]
  | succ fuel ih =>
    rw [readLoop_succ]
    by_cases hlt : total < n
    swap
    · refine ⟨total, le_rfl, ht, ?_, fun h => by omega⟩
      rw [if_neg hlt]
      congr 1
      funext j
      rw [if_neg (by omega)]
    rw [if_pos hlt]
    by_cases hb : bmap data addrs ((off + total) / 512) = 0
    · refine ⟨total, le_rfl, ht, ?_, fun _ => by rw [blockOf, if_pos hb]⟩
      rw [if_pos hb]
      congr 1
      funext j
      rw [if_neg (by omega)]
    rw [if_neg hb]
    set chunk := min (512 - (off + total) % 512) (n - total) with hc
    obtain ⟨r, h1, h2, he, hhole⟩ := ih (show n ≤ total + chunk + fuel by omega) (by omega)
      (blit out total chunk fun j =>
        (data (bmap data addrs ((off + total) / 512))).get ((off + total) % 512 + j))
    refine ⟨r, by omega, h2, ?_, hhole⟩
    rw [he]
    congr 1
    funext j
    by_cases hj : total + chunk ≤ j ∧ j < r
    · rw [if_pos hj, if_pos (by omega)]
    · rw [if_neg hj, blit]
      by_cases hj' : total ≤ j ∧ j < total + chunk
      · have hbn : (off + j) / 512 = (off + total) / 512 := by omega
        rw [if_pos hj', if_pos (by omega), byteOf, hbn, blockOf, if_neg hb]
        dsimp only
        congr 1
        omega
      · rw [if_neg hj', if_neg (by omega)]

theorem readi_spec (hx : (s.icache x).valid = true) (off : ℕ) (dst : ℕ → UInt8) (n : ℕ) :
    ∃ r, readi x off dst n s = (some (r, fun j =>
        if j < r then byteOf s.data (s.icache x).d.addrs (off + j) else dst j), s) ∧
      r ≤ n ∧ off + r ≤ max off (s.icache x).d.size ∧
      (r < n → off + r < (s.icache x).d.size →
        blockOf s.data (s.icache x).d.addrs ((off + r) / 512) = none) := by
  rw [readi, Kern.bind_some (ilock_of_valid hx), Kern.get_bind]
  dsimp only
  by_cases hoff : (s.icache x).d.size < off
  · refine ⟨0, ?_, by omega, by omega, by omega⟩
    rw [Kern.ite_apply, if_pos hoff]
    simp
  · rw [Kern.ite_apply, if_neg hoff]
    set m := if (s.icache x).d.size < off + n then (s.icache x).d.size - off else n with hm
    have hmn : m ≤ n ∧ off + m ≤ (s.icache x).d.size ∧ (m < n → off + m = (s.icache x).d.size) := by
      rw [hm]
      split_ifs <;> omega
    obtain ⟨r, -, hr, he, hhole⟩ := readLoop_spec s.data (s.icache x).d.addrs off m
      (show m ≤ 0 + m by omega) (Nat.zero_le m) dst
    refine ⟨r, ?_, by omega, by omega, fun h1 h2 => hhole (by omega)⟩
    rw [he]
    simp

/-! ## Entries -/

/-- The string in a field of `n` bytes. -/
def strn (a : ℕ → UInt8) : ℕ → ℕ → Name
  | _, 0 => []
  | i, n + 1 => if a i = 0 then [] else a i :: strn a (i + 1) n

def deName (de : ℕ → UInt8) : Name := strn (fun i => de (i + 2)) 0 SBFS_DIRSIZ

/-- The 16 bytes of entry `k`, as they are read into a cleared buffer. -/
def deAt (data : ℕ → Block) (d : Dinode) (k : ℕ) : ℕ → UInt8 := fun j =>
  if j < 16 then byteOf data d.addrs (16 * k + j) else 0

structure DirOk (data : ℕ → Block) (d : Dinode) : Prop where
  dvd : 16 ∣ d.size
  le : d.size ≤ SBFS_MAX_FILE_SIZE
  mapped : ∀ o < d.size, (blockOf data d.addrs (o / 512)).isSome

/-- Live entry `k`: the inode it names, and the name. -/
def entOf (data : ℕ → Block) (d : Dinode) (k : ℕ) : Option (ℕ × Name) :=
  if d.type = .dir ∧ 16 * k + 16 ≤ d.size ∧ deInum (deAt data d k) ≠ 0 then
    some (deInum (deAt data d k), deName (deAt data d k))
  else none

theorem readi_entry {k : ℕ} {d : Dinode} (hx : (s.icache x).valid = true)
    (hd : (s.icache x).d = d) (hok : DirOk s.data d) (hk : 16 * k + 16 ≤ d.size)
    (dst : ℕ → UInt8) :
    readi x (16 * k) dst 16 s = (some (16, fun j =>
      if j < 16 then byteOf s.data d.addrs (16 * k + j) else dst j), s) := by
  obtain ⟨r, he, hr, -, hhole⟩ := readi_spec hx (16 * k) dst 16
  rw [hd] at he hhole
  obtain rfl : r = 16 := by
    by_contra hne
    have hsome := hok.mapped (16 * k + r) (by omega)
    rw [hhole (by omega) (by omega)] at hsome
    simp at hsome
  exact he

def nsteps (size : ℕ) : ℕ := (size + 15) / 16

theorem nsteps_of_dvd {n : ℕ} (h : 16 ∣ n) : 16 * (0 + nsteps n) = n := by
  obtain ⟨m, rfl⟩ := h
  simp only [nsteps]
  omega

end Sbunix.Fs
