import Mathlib.Data.BitVec
import Mathlib.Tactic

/-!
# Byte-addressed memory

Memory as a function from addresses to bytes, with little-endian 64-bit words
and runs of words. Addresses wrap around, so the distance of two addresses is
taken in one direction.
-/

namespace Sbunix.Lib

open BitVec

/-- Memory with `w`-bit addresses. -/
abbrev Memory (w : ℕ) := BitVec w → BitVec 8

namespace Memory

variable {w : ℕ}

/-- How far `a` is above `base`. -/
def offset (base a : BitVec w) : ℕ := (a - base).toNat

/-- Byte `j` of a word. -/
def byteOf (x : BitVec 64) (j : ℕ) : BitVec 8 := BitVec.ofNat 8 (x.toNat / 256 ^ j)

/-- The number that the bytes from `a` on spell, `n` of them. -/
def value (m : Memory w) : BitVec w → ℕ → ℕ
  | _, 0 => 0
  | a, n + 1 => (m a).toNat + 256 * value m (a + 1) n

/-- The word at `a`. -/
def load (m : Memory w) (a : BitVec w) : BitVec 64 := BitVec.ofNat 64 (value m a 8)

/-- Store the words `x 0`, …, `x (n - 1)` from `base` on. -/
def storeWords (m : Memory w) (base : BitVec w) (n : ℕ) (x : ℕ → BitVec 64) : Memory w := fun a =>
  if offset base a < 8 * n then byteOf (x (offset base a / 8)) (offset base a % 8) else m a

variable {i n : ℕ} {m : Memory w} {a : BitVec w}

theorem offset_add (base : BitVec w) (h : i < 2 ^ w) :
    offset base (base + BitVec.ofNat w i) = i := by
  unfold offset
  rw [add_sub_cancel_left, toNat_ofNat, Nat.mod_eq_of_lt h]

theorem value_congr {m' : Memory w}
    (h : ∀ j < n, m' (a + BitVec.ofNat w j) = m (a + BitVec.ofNat w j)) :
    value m' a n = value m a n := by
  induction n generalizing a with
  | zero => rfl
  | succ n ih =>
    have h0 := h 0 (Nat.succ_pos n)
    rw [BitVec.add_zero] at h0
    rw [value, value, h0, ih fun j hj => ?_]
    have hj := h (j + 1) (Nat.succ_lt_succ hj)
    rwa [ofNat_add, add_comm (BitVec.ofNat w j), ← add_assoc] at hj

/-- The bytes of a word spell it. -/
theorem value_bytes {x : ℕ}
    (h : ∀ j < n, m (a + BitVec.ofNat w j) = BitVec.ofNat 8 (x / 256 ^ j)) :
    value m a n = x % 256 ^ n := by
  induction n generalizing a x with
  | zero => rw [value, pow_zero, Nat.mod_one]
  | succ n ih =>
    have h0 := h 0 (Nat.succ_pos n)
    rw [BitVec.add_zero, pow_zero, Nat.div_one] at h0
    have hrest : value m (a + 1) n = x / 256 % 256 ^ n := by
      refine ih fun j hj => ?_
      have hj := h (j + 1) (Nat.succ_lt_succ hj)
      rw [ofNat_add, add_comm (BitVec.ofNat w j), ← add_assoc] at hj
      rw [Nat.div_div_eq_div_mul, ← pow_succ']
      exact hj
    have hsplit : x % 256 ^ (n + 1) = x % 256 + 256 * (x / 256 % 256 ^ n) := by
      rw [pow_succ', Nat.mod_mul]
    rw [value, h0, hrest, toNat_ofNat, hsplit]

theorem load_congr {m' : Memory w}
    (h : ∀ j < 8, m' (a + BitVec.ofNat w j) = m (a + BitVec.ofNat w j)) : load m' a = load m a := by
  unfold load
  rw [value_congr h]

/-- A stored word is read back. -/
theorem load_storeWords (m : Memory w) (base : BitVec w) (x : ℕ → BitVec 64) (hi : i < n)
    (hn : 8 * n ≤ 2 ^ w) : load (storeWords m base n x) (base + BitVec.ofNat w (8 * i)) = x i := by
  have hbyte : ∀ j < 8, storeWords m base n x (base + BitVec.ofNat w (8 * i) + BitVec.ofNat w j)
      = BitVec.ofNat 8 ((x i).toNat / 256 ^ j) := by
    intro j hj
    rw [add_assoc, ← ofNat_add]
    unfold storeWords
    rw [offset_add base (by omega), if_pos (by omega), show (8 * i + j) / 8 = i by omega,
      show (8 * i + j) % 8 = j by omega]
    rfl
  unfold load
  have hlt : (x i).toNat < 256 ^ 8 := (x i).isLt
  rw [value_bytes hbyte, Nat.mod_eq_of_lt hlt, ofNat_toNat, setWidth_eq]

/-- `n` bytes from `a` and `n` bytes from `b` on do not overlap. -/
def Apart (n : ℕ) (a b : BitVec w) : Prop := n ≤ offset a b ∧ n ≤ offset b a

instance (n : ℕ) (a b : BitVec w) : Decidable (Apart n a b) := inferInstanceAs (Decidable (_ ∧ _))

/-- An address in one of two runs that are apart is not in the other. -/
theorem Apart.offset_le {b c : BitVec w} (h : Apart n a b) (hc : offset a c < n) :
    n ≤ offset b c := by
  obtain ⟨h1, h2⟩ := h
  unfold offset at *
  have hab : a - b = -(b - a) := (neg_sub b a).symm
  have hcb : c - b = (c - a) - (b - a) := (sub_sub_sub_cancel_right c b a).symm
  rw [hab, toNat_neg] at h2
  rw [hcb, toNat_sub]
  have hlt := (b - a).isLt
  generalize (b - a).toNat = u at *
  generalize (c - a).toNat = v at *
  -- `v < n ≤ u`: neither difference wraps
  rw [Nat.mod_eq_of_lt (by omega)] at h2
  rw [Nat.mod_eq_of_lt (by omega)]
  omega

theorem load_storeWords_apart (m : Memory w) {b : BitVec w} (x : ℕ → BitVec 64)
    (h : Apart (8 * n) a b) (hi : i < n) (hn : 8 * n ≤ 2 ^ w) :
    load (storeWords m b n x) (a + BitVec.ofNat w (8 * i)) =
      load m (a + BitVec.ofNat w (8 * i)) := by
  refine load_congr fun j hj => ?_
  rw [add_assoc, ← ofNat_add]
  refine if_neg (Nat.not_lt.mpr (h.offset_le ?_))
  rw [offset_add a (by omega)]
  omega

end Memory

end Sbunix.Lib
