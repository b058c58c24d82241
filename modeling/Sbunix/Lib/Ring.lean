import Mathlib.Tactic
import Mathlib.Data.BitVec

/-!
# Ring buffers

A ring of `size` cells with two counters of `w` bits that are never reset: the
cell of a position is the counter modulo `size`, and the counters may wrap.
When `size` divides `2 ^ w` the ring is a queue of at most `size` elements.

The other kind has a read index, a write index and a count of its own. Nothing
ties the three together; `IndexRing.Holds` is the invariant under which such a
ring is a queue.
-/

namespace Sbunix.Lib

open List

structure Ring (α : Type) (w : ℕ) where
  data : ℕ → α
  nread : BitVec w
  nwrite : BitVec w

namespace Ring

variable {α : Type} {w : ℕ} (size : ℕ) (r : Ring α w)

def count : ℕ := (r.nwrite - r.nread).toNat

/-- The element that is read next. -/
def front : α := r.data (r.nread.toNat % size)

def pop : Ring α w := { r with nread := r.nread + 1#w }

def push (a : α) : Ring α w :=
  { r with data := Function.update r.data (r.nwrite.toNat % size) a, nwrite := r.nwrite + 1#w }

/-- The queue: the cells from the read position on. -/
def contents : List α :=
  (List.range r.count).map fun i => r.data ((r.nread.toNat + i) % size)

@[simp] theorem contents_length : (r.contents size).length = r.count := by
  simp [contents]

theorem count_lt : r.count < 2 ^ w := (r.nwrite - r.nread).isLt

theorem count_eq_zero : r.count = 0 ↔ r.nread = r.nwrite := by
  unfold count
  constructor
  · intro h
    have hsub : r.nwrite - r.nread = 0#w := BitVec.eq_of_toNat_eq (by simpa using h)
    have hadd : r.nwrite - r.nread + r.nread = r.nwrite := BitVec.sub_add_cancel _ _
    rw [hsub, BitVec.zero_add] at hadd
    exact hadd
  · intro h
    simp [h]

/-- The write position is the read position and as many elements as are queued. -/
theorem nwrite_toNat : r.nwrite.toNat = (r.nread.toNat + r.count) % 2 ^ w := by
  have hadd : r.nread + (r.nwrite - r.nread) = r.nwrite := by
    rw [BitVec.add_comm, BitVec.sub_add_cancel]
  calc r.nwrite.toNat = (r.nread + (r.nwrite - r.nread)).toNat := by rw [hadd]
    _ = (r.nread.toNat + r.count) % 2 ^ w := BitVec.toNat_add _ _

theorem width_pos (h : 1 < 2 ^ w) : 0 < w := by
  by_contra h0
  obtain rfl : w = 0 := by omega
  simp at h

variable {size r}

theorem count_eq_size (hsize : size < 2 ^ w) :
    r.count = size ↔ r.nwrite = r.nread + BitVec.ofNat w size := by
  unfold count
  constructor
  · intro h
    have hsub : r.nwrite - r.nread = BitVec.ofNat w size :=
      BitVec.eq_of_toNat_eq (by rw [h, BitVec.toNat_ofNat, Nat.mod_eq_of_lt hsize])
    rw [← hsub, BitVec.add_comm, BitVec.sub_add_cancel]
  · intro h
    rw [h, BitVec.add_comm, BitVec.add_sub_cancel, BitVec.toNat_ofNat, Nat.mod_eq_of_lt hsize]

theorem count_push (a : α) (h : r.count + 1 < 2 ^ w) : (r.push size a).count = r.count + 1 := by
  have hw : 0 < w := width_pos (by omega)
  have hsub : r.nwrite + 1#w - r.nread = r.nwrite - r.nread + 1#w := by
    ring
  unfold count push at *
  dsimp only
  rw [hsub, BitVec.toNat_add, BitVec.toNat_one hw, Nat.mod_eq_of_lt h]

theorem count_pop (h : 0 < r.count) : r.pop.count + 1 = r.count := by
  have hw : 0 < w := width_pos (lt_of_le_of_lt h r.count_lt)
  have hsub : r.nwrite - (r.nread + 1#w) + 1#w = r.nwrite - r.nread := by
    ring
  have hlt := r.count_lt
  unfold count pop at *
  dsimp only
  have h1 : (r.nwrite - (r.nread + 1#w) + 1#w).toNat = (r.nwrite - r.nread).toNat := by rw [hsub]
  rw [BitVec.toNat_add, BitVec.toNat_one hw] at h1
  have hb := (r.nwrite - (r.nread + 1#w)).isLt
  by_cases hwrap : (r.nwrite - (r.nread + 1#w)).toNat + 1 < 2 ^ w
  · rw [Nat.mod_eq_of_lt hwrap] at h1
    exact h1
  · have heq : (r.nwrite - (r.nread + 1#w)).toNat + 1 = 2 ^ w := by omega
    rw [heq, Nat.mod_self] at h1
    omega

/-- Two positions less than `size` apart have different cells. -/
theorem cell_ne {a i n : ℕ} (hi : i < n) (hn : n < size) : (a + i) % size ≠ (a + n) % size := by
  intro he
  have hmod : (a + i) ≡ (a + n) [MOD size] := he
  have : i ≡ n [MOD size] := Nat.ModEq.add_left_cancel' a hmod
  rw [Nat.ModEq, Nat.mod_eq_of_lt (hi.trans hn), Nat.mod_eq_of_lt hn] at this
  omega

theorem contents_push (hdvd : size ∣ 2 ^ w) (hsize : size < 2 ^ w)
    (hroom : r.count < size) (a : α) :
    (r.push size a).contents size = r.contents size ++ [a] := by
  have hcell : r.nwrite.toNat % size = (r.nread.toNat + r.count) % size := by
    rw [r.nwrite_toNat, Nat.mod_mod_of_dvd _ hdvd]
  unfold contents
  rw [count_push a (by omega), range_succ, map_append, map_singleton]
  congr 1
  · refine map_congr_left fun i hi => ?_
    have hne := cell_ne (a := r.nread.toNat) (mem_range.mp hi) hroom
    simp only [push, hcell]
    exact Function.update_of_ne hne _ _
  · simp [push, hcell]

theorem contents_pop (hdvd : size ∣ 2 ^ w) (h : 0 < r.count) :
    r.contents size = r.front size :: r.pop.contents size := by
  have hw : 0 < w := width_pos (lt_of_le_of_lt h r.count_lt)
  unfold contents
  rw [← count_pop h, range_succ_eq_map, map_cons, map_map]
  congr 1
  refine map_congr_left fun i _ => ?_
  have hnext : ((r.nread + 1#w).toNat + i) % size = (r.nread.toNat + (i + 1)) % size := by
    rw [BitVec.toNat_add, BitVec.toNat_one hw, Nat.add_mod, Nat.mod_mod_of_dvd _ hdvd,
      ← Nat.add_mod]
    congr 1
    omega
  simp only [Function.comp_apply, pop, hnext]

theorem contents_eq_nil (h : r.count = 0) : r.contents size = [] := by
  simp [contents, h]

end Ring

/-- A ring with a read index, a write index and a count. -/
structure IndexRing (α : Type) where
  data : ℕ → α
  head : ℕ
  tail : ℕ
  count : ℕ

namespace IndexRing

variable {α : Type} (size : ℕ)

/-- Store at the write index, whether or not there is room. -/
def put (r : IndexRing α) (a : α) : IndexRing α where
  data := Function.update r.data r.tail a
  head := r.head
  tail := (r.tail + 1) % size
  count := r.count + 1

/-- Advance the read index, with `n` for the new count. -/
def skip (r : IndexRing α) (n : ℕ) : IndexRing α :=
  { r with head := (r.head + 1) % size, count := n }

/-- The cells from the read index on, as many as are counted. -/
def contents (r : IndexRing α) : List α :=
  (List.range r.count).map fun i => r.data ((r.head + i) % size)

/-- The ring holds the queue `q`. -/
structure Holds (r : IndexRing α) (q : List α) : Prop where
  count : r.count = q.length
  fits : q.length ≤ size
  head : r.head < size
  tail : r.tail = (r.head + q.length) % size
  cells : ∀ i a, q[i]? = some a → r.data ((r.head + i) % size) = a

variable {size} {r : IndexRing α} {q : List α}

theorem Holds.put (h : Holds size r q) (hroom : q.length < size) (a : α) :
    Holds size (r.put size a) (q ++ [a]) where
  count := by
    simp [IndexRing.put, h.count]
  fits := by
    simp only [length_append, length_singleton]
    omega
  head := h.head
  tail := by
    simp only [IndexRing.put, h.tail, Nat.mod_add_mod, length_append, length_singleton]
    congr 1
  cells i b hi := by
    simp only [IndexRing.put, h.tail]
    rcases lt_trichotomy i q.length with hlt | rfl | hgt
    · rw [getElem?_append_left hlt] at hi
      rw [Function.update_of_ne (Ring.cell_ne hlt hroom)]
      exact h.cells i b hi
    · rw [getElem?_concat_length] at hi
      cases hi
      rw [Function.update_self]
    · rw [getElem?_eq_none (by simp; omega)] at hi
      cases hi

theorem Holds.putAll {src : List α} (h : Holds size r q) (hroom : q.length + src.length ≤ size) :
    Holds size (src.foldl (IndexRing.put size) r) (q ++ src) := by
  induction src generalizing r q with
  | nil => simpa using h
  | cons a src ih =>
    rw [length_cons] at hroom
    have hput := h.put (by omega) a
    rw [foldl_cons, ← singleton_append, ← append_assoc]
    refine ih hput ?_
    rw [length_append, length_singleton]
    omega

/-- With an exact count, reading takes the first element. -/
theorem Holds.take {a : α} (h : Holds size r (a :: q)) :
    r.data r.head = a ∧ Holds size (r.skip size (r.count - 1)) q := by
  have hfits := h.fits
  have hlen : (a :: q).length = q.length + 1 := rfl
  have hstep : ∀ i, ((r.head + 1) % size + i) % size = (r.head + (i + 1)) % size := by
    intro i
    rw [Nat.mod_add_mod]
    congr 1
    omega
  constructor
  · have := h.cells 0 a rfl
    rwa [Nat.add_zero, Nat.mod_eq_of_lt h.head] at this
  · refine ⟨?_, by omega, Nat.mod_lt _ (by omega), ?_, ?_⟩
    · rw [skip, h.count, hlen]
      rfl
    · rw [skip, h.tail, hlen, hstep]
    · intro i b hi
      rw [skip, hstep]
      exact h.cells (i + 1) b hi

theorem Holds.contents_eq (h : Holds size r q) : r.contents size = q := by
  refine ext_getElem? fun i => ?_
  unfold contents
  rw [h.count]
  rcases lt_or_ge i q.length with hi | hi
  · rw [getElem?_map, getElem?_range hi, Option.map_some,
      h.cells i q[i] (getElem?_eq_getElem hi), getElem?_eq_getElem hi]
  · rw [getElem?_eq_none (by simpa using hi), getElem?_eq_none hi]

end IndexRing

end Sbunix.Lib
