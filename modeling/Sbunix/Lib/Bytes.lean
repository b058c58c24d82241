import Mathlib.Tactic

/-!
# Fixed-size byte blocks

A block of `n` bytes with its two views: single bytes and little-endian 32-bit
words. Offsets are natural numbers; reads past the end return zero, so only
the write lemmas carry bounds.
-/

namespace Sbunix.Lib

/-- The bytes of a string constant. -/
def text (s : String) : List UInt8 := s.toList.map fun c => UInt8.ofNat c.toNat

/-- A memory block of `n` bytes. -/
abbrev Bytes (n : ℕ) := Fin n → UInt8

variable {i k : ℕ}

namespace Bytes

variable {n : ℕ}

def get (b : Bytes n) (i : ℕ) : UInt8 := if h : i < n then b ⟨i, h⟩ else 0

/-- `memset(b, 0, n)`. -/
def zero : Bytes n := fun _ => 0

/-- `memcpy(b + off, src, len)`. -/
def copy (b : Bytes n) (off len : ℕ) (src : ℕ → UInt8) : Bytes n :=
  fun i => if off ≤ i.val ∧ i.val < off + len then src (i.val - off) else b i

/-- The `k`-th little-endian 32-bit word. -/
def word (b : Bytes n) (k : ℕ) : ℕ :=
  (b.get (4 * k)).toNat + 256 * (b.get (4 * k + 1)).toNat +
    65536 * (b.get (4 * k + 2)).toNat + 16777216 * (b.get (4 * k + 3)).toNat

def setWord (b : Bytes n) (k v : ℕ) : Bytes n :=
  fun i => if i.val / 4 = k then UInt8.ofNat (v / 256 ^ (i.val % 4)) else b i

theorem get_eq (b : Bytes n) (h : i < n) : b.get i = b ⟨i, h⟩ := by
  simp [get, h]

@[simp] theorem get_zero (i : ℕ) : (zero : Bytes n).get i = 0 := by
  simp [get, zero]

@[simp] theorem word_zero (k : ℕ) : (zero : Bytes n).word k = 0 := by
  simp [word]

theorem get_copy (b : Bytes n) (off len : ℕ) (src : ℕ → UInt8) (h : i < n) :
    (b.copy off len src).get i =
      if off ≤ i ∧ i < off + len then src (i - off) else b.get i := by
  rw [get_eq _ h, get_eq b h]
  rfl

theorem get_setWord (b : Bytes n) (k v : ℕ) (h : i < n) : (b.setWord k v).get i =
      if i / 4 = k then UInt8.ofNat (v / 256 ^ (i % 4)) else b.get i := by
  rw [get_eq _ h, get_eq b h]
  rfl

theorem word_congr {a b : Bytes n}
    (h : ∀ r < 4, a.get (4 * k + r) = b.get (4 * k + r)) : a.word k = b.word k := by
  unfold word
  have h0 := h 0 (by omega)
  rw [Nat.add_zero] at h0
  rw [h0, h 1 (by omega), h 2 (by omega), h 3 (by omega)]

theorem word_setWord_ne (b : Bytes n) {j : ℕ} (v : ℕ) (h : j ≠ k) :
    (b.setWord k v).word j = b.word j := by
  apply word_congr
  intro r hr
  by_cases hi : 4 * j + r < n
  · rw [get_setWord b k v hi, if_neg (by omega)]
  · simp [get, hi]

theorem word_setWord_self (b : Bytes n) (v : ℕ) (h : 4 * k + 3 < n) :
    (b.setWord k v).word k = v % 2 ^ 32 := by
  have hb : ∀ r < 4, ((b.setWord k v).get (4 * k + r)).toNat = v / 256 ^ r % 256 := by
    intro r hr
    have hd : (4 * k + r) / 4 = k := by omega
    have hm : (4 * k + r) % 4 = r := by omega
    rw [get_setWord b k v (by omega), if_pos hd, hm]
    simp
  have h0 := hb 0 (by omega)
  have h1 := hb 1 (by omega)
  have h2 := hb 2 (by omega)
  have h3 := hb 3 (by omega)
  simp only [Nat.add_zero, Nat.pow_zero, Nat.div_one] at h0
  unfold word
  rw [h0, h1, h2, h3]
  norm_num
  omega

theorem word_setWord (b : Bytes n) {j v : ℕ} (h : 4 * k + 3 < n) (hv : v < 2 ^ 32) :
    (b.setWord k v).word j = if j = k then v else b.word j := by
  split_ifs with hj
  · rw [hj, word_setWord_self b v h, Nat.mod_eq_of_lt hv]
  · exact word_setWord_ne b v hj

end Bytes

end Sbunix.Lib
