import Mathlib.Tactic

/-!
# Words and linked lists in a byte memory

A memory of bytes at natural addresses with little-endian 64-bit words, and
singly linked lists in it: a node is an address, and the word `link` bytes
behind it is the address of the next node. `Seg` is a list segment that ends
with a given pointer; a whole list ends with 0.
-/

namespace Sbunix.Lib

abbrev Mem := ℕ → UInt8

variable {src : ℕ → UInt8}

namespace Mem

/-- The number that the bytes from `a` on spell, `n` of them. -/
def value (m : Mem) : ℕ → ℕ → ℕ
  | _, 0 => 0
  | a, n + 1 => (m a).toNat + 256 * value m (a + 1) n

/-- The word at `a`. -/
def load (m : Mem) (a : ℕ) : ℕ := m.value a 8

/-- Store the word `v` at `a`. -/
def store (m : Mem) (a v : ℕ) : Mem := fun i =>
  if a ≤ i ∧ i < a + 8 then UInt8.ofNat (v / 256 ^ (i - a)) else m i

/-- Store `n` bytes from `a` on. -/
def fill (m : Mem) (a n : ℕ) (src : ℕ → UInt8) : Mem := fun i =>
  if a ≤ i ∧ i < a + n then src (i - a) else m i

variable {m m' : Mem} {a b i n v : ℕ}

theorem store_of_out (h : i < a ∨ a + 8 ≤ i) : m.store a v i = m i := if_neg (by omega)

theorem fill_of_out (h : i < a ∨ a + n ≤ i) : m.fill a n src i = m i := if_neg (by omega)

theorem fill_at (h : i < n) : m.fill a n src (a + i) = src i := by
  unfold fill
  rw [if_pos (by omega), Nat.add_sub_cancel_left]

theorem value_congr (h : ∀ i, a ≤ i → i < a + n → m' i = m i) : m'.value a n = m.value a n := by
  induction n generalizing a with
  | zero => rfl
  | succ n ih =>
    rw [value, value, h a le_rfl (by omega), ih fun i h1 h2 => h i (by omega) (by omega)]

theorem load_congr (h : ∀ i, a ≤ i → i < a + 8 → m' i = m i) : m'.load a = m.load a := value_congr h

theorem value_spelled (h : ∀ j < n, m (a + j) = UInt8.ofNat (v / 256 ^ j)) :
    m.value a n = v % 256 ^ n := by
  induction n generalizing a v with
  | zero => rw [value, pow_zero, Nat.mod_one]
  | succ n ih =>
    have h0 := h 0 (Nat.succ_pos n)
    rw [Nat.add_zero, pow_zero, Nat.div_one] at h0
    have hrest : m.value (a + 1) n = v / 256 % 256 ^ n := by
      refine ih fun j hj => ?_
      rw [Nat.div_div_eq_div_mul, ← pow_succ', Nat.add_assoc, Nat.add_comm 1 j]
      exact h (j + 1) (by omega)
    rw [value, h0, hrest, pow_succ', Nat.mod_mul, UInt8.toNat_ofNat']

theorem value_lt : m.value a n < 256 ^ n := by
  induction n generalizing a with
  | zero => simp [value]
  | succ n ih =>
    have h1 := (m a).toNat_lt
    have h2 := ih (a := a + 1)
    rw [value, pow_succ']
    omega

theorem load_lt (m : Mem) (a : ℕ) : m.load a < 2 ^ 64 := value_lt (n := 8)

theorem load_store_self (h : v < 2 ^ 64) : (m.store a v).load a = v := by
  have hspell : ∀ j < 8, m.store a v (a + j) = UInt8.ofNat (v / 256 ^ j) := by
    intro j hj
    unfold store
    rw [if_pos (by omega), Nat.add_sub_cancel_left]
  rw [load, value_spelled hspell]
  exact Nat.mod_eq_of_lt h

theorem load_store_apart (h : a + 8 ≤ b ∨ b + 8 ≤ a) : (m.store a v).load b = m.load b :=
  load_congr fun _ _ _ => store_of_out (by omega)

end Mem

/-! ### List segments -/

/-- From the pointer `p` the nodes `l` are linked, and the last one points to `q`. -/
def Seg (m : Mem) (link : ℕ) : ℕ → List ℕ → ℕ → Prop
  | p, [], q => p = q
  | p, a :: l, q => p = a ∧ Seg m link (m.load (a + link)) l q

namespace Seg

variable {m m' : Mem} {link p q x : ℕ} {l l' : List ℕ}

theorem append : Seg m link p (l ++ l') q ↔ ∃ r, Seg m link p l r ∧ Seg m link r l' q := by
  induction l generalizing p with
  | nil => simp [Seg]
  | cons a l ih => simp [Seg, ih, and_assoc]

theorem congr (h : ∀ a ∈ l, m'.load (a + link) = m.load (a + link)) (hs : Seg m link p l q) :
    Seg m' link p l q := by
  induction l generalizing p with
  | nil => exact hs
  | cons a l ih =>
    obtain ⟨rfl, hs⟩ := hs
    refine ⟨rfl, ?_⟩
    rw [h p List.mem_cons_self]
    exact ih (fun b hb => h b (List.mem_cons_of_mem _ hb)) hs

/-- The last node of a segment is made to point elsewhere. -/
theorem redirect {a : ℕ} (hs : Seg m link p (l ++ [a]) q) (hx : m'.load (a + link) = x)
    (h : ∀ b ∈ l, m'.load (b + link) = m.load (b + link)) : Seg m' link p (l ++ [a]) x := by
  obtain ⟨r, hl, rfl, -⟩ := append.mp hs
  exact append.mpr ⟨r, hl.congr h, rfl, hx⟩

end Seg

end Sbunix.Lib
