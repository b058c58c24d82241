import Mathlib.Data.Nat.Digits.Defs
import Mathlib.Tactic.Linarith

/-!
# Reading numbers

`strtol` and `strtoul` of `libc/stdlib.c`. A string is the list of its characters
without the terminating NUL, and a pointer into it is the part it points to.
-/

namespace Sbunix.Libc

/-- `digit_val`, with `none` for -1. -/
def digitVal (c : Char) (base : ℕ) : Option ℕ :=
  let v :=
    if '0' ≤ c ∧ c ≤ '9' then some (c.toNat - '0'.toNat)
    else if 'a' ≤ c ∧ c ≤ 'z' then some (c.toNat - 'a'.toNat + 10)
    else if 'A' ≤ c ∧ c ≤ 'Z' then some (c.toNat - 'A'.toNat + 10)
    else none
  v.filter fun d => d < base

def skipBlanks (s : List Char) : List Char := s.dropWhile fun c => c = ' ' ∨ c = '\t' ∨ c = '\n'

def takeSign : List Char → Bool × List Char
  | '-' :: p => (true, p)
  | '+' :: p => (false, p)
  | p => (false, p)

/-- `0x` in front of a hexadecimal digit. -/
def hexPrefix : List Char → Bool
  | '0' :: x :: d :: _ => (x = 'x' ∨ x = 'X') ∧ (digitVal d 16).isSome
  | _ => false

/-- The base in effect, and the text behind the prefix. -/
def effectiveBase (base : ℕ) (p : List Char) : ℕ × List Char :=
  if (base = 0 ∨ base = 16) ∧ hexPrefix p then (16, p.drop 2)
  else if base = 0 ∧ p.head? = some '0' then (8, p)
  else if base = 0 then (10, p)
  else (base, p)

structure Digits where
  n : ℕ
  any : Bool
  overflow : Bool

/-- The digit loop; `n` is an `unsigned long`. -/
def digitLoop (base cutoff cutlim : ℕ) : List Char → Digits → Digits × List Char
  | [], a => (a, [])
  | c :: p, a =>
    match digitVal c base with
    | none => (a, c :: p)
    | some d => digitLoop base cutoff cutlim p
        (if a.overflow ∨ cutoff < a.n ∨ a.n = cutoff ∧ cutlim < d then ⟨a.n, true, true⟩
        else ⟨(a.n * base + d) % 2 ^ 64, true, a.overflow⟩)

def LONG_MAX : ℤ := 2 ^ 63 - 1
def LONG_MIN : ℤ := -2 ^ 63
def ULONG_MAX : ℕ := 2 ^ 64 - 1

/-- What a call returns, where `endp` points, and whether `errno` is `ERANGE`. -/
structure Conversion where
  value : ℤ
  endp : List Char
  erange : Bool
  deriving DecidableEq, Repr

def strtol (s : List Char) (base : ℕ) : Conversion :=
  let (neg, p) := takeSign (skipBlanks s)
  let (base, p) := effectiveBase base p
  let maxAbs := if neg then 2 ^ 63 else 2 ^ 63 - 1
  let (a, p) := digitLoop base (maxAbs / base) (maxAbs % base) p ⟨0, false, false⟩
  let endp := if a.any then p else s
  if a.overflow then ⟨if neg then LONG_MIN else LONG_MAX, endp, true⟩
  else if neg = false then ⟨a.n, endp, false⟩
  else if a.n = 2 ^ 63 then ⟨LONG_MIN, endp, false⟩
  else ⟨-a.n, endp, false⟩

def strtoul (s : List Char) (base : ℕ) : Conversion :=
  let (neg, p) := takeSign (skipBlanks s)
  let (base, p) := effectiveBase base p
  let (a, p) := digitLoop base (ULONG_MAX / base) (ULONG_MAX % base) p ⟨0, false, false⟩
  let endp := if a.any then p else s
  if a.overflow then ⟨ULONG_MAX, endp, true⟩
  else ⟨if neg then (-a.n) % 2 ^ 64 else a.n, endp, false⟩

/-! ### The numeral in a text -/

/-- The digits of the longest prefix that consists of digits. -/
def numeral (base : ℕ) : List Char → List ℕ
  | [] => []
  | c :: p =>
    match digitVal c base with
    | none => []
    | some d => d :: numeral base p

/-- The number that digits write, the most significant one first. -/
def number (base : ℕ) (ds : List ℕ) : ℕ := Nat.ofDigits base ds.reverse

variable {d : ℕ} {a : Digits} {base M : ℕ}

theorem digitVal_lt {c : Char} (h : digitVal c base = some d) : d < base := by
  have := Option.filter_eq_some_iff.mp h
  simpa using this.2

theorem number_foldl (ds : List ℕ) : number base ds = ds.foldl (fun v d => d + base * v) 0 := by
  rw [number, Nat.ofDigits_eq_foldr, List.foldr_reverse]
  simp

theorem cutoff_iff {n : ℕ} (hd : d < base) :
    (M / base < n ∨ n = M / base ∧ M % base < d) ↔ M < n * base + d := by
  have hbase : 0 < base := by omega
  have hM := Nat.div_add_mod' M base
  rcases Nat.lt_trichotomy n (M / base) with h | h | h
  · have : (n + 1) * base ≤ M := Nat.mul_le_of_le_div _ _ _ h
    rw [Nat.add_mul] at this
    omega
  · rw [h]
    omega
  · have : M < n * base := (Nat.div_lt_iff_lt_mul hbase).mp h
    omega

/-- The locals when the digits read so far write `v`. -/
structure Holds (M : ℕ) (a : Digits) (v : ℕ) : Prop where
  exact : a.overflow = false → a.n = v ∧ v ≤ M
  beyond : a.overflow = true → M < v

theorem Holds.push {v : ℕ} (h : Holds M a v) (hM : M < 2 ^ 64) (hd : d < base) :
    Holds M (if a.overflow ∨ M / base < a.n ∨ a.n = M / base ∧ M % base < d then ⟨a.n, true, true⟩
      else ⟨(a.n * base + d) % 2 ^ 64, true, a.overflow⟩) (d + base * v) := by
  simp only [cutoff_iff hd]
  have hmul : v * 1 ≤ v * base := Nat.mul_le_mul_left v (by omega)
  rw [Nat.mul_comm base v]
  cases ho : a.overflow with
  | true =>
    have := h.beyond ho
    exact ⟨by simp, fun _ => by omega⟩
  | false =>
    obtain ⟨rfl, -⟩ := h.exact ho
    split
    · next hlt => exact ⟨by simp, fun _ => by simp at hlt; omega⟩
    · next hle =>
      refine ⟨fun _ => ?_, nofun⟩
      simp only [Bool.false_eq_true, false_or, not_lt] at hle
      dsimp only
      rw [Nat.mod_eq_of_lt (by omega)]
      omega

theorem digitLoop_spec (hM : M < 2 ^ 64) (p : List Char) {v : ℕ} (h : Holds M a v) :
    let r := digitLoop base (M / base) (M % base) p a
    Holds M r.1 ((numeral base p).foldl (fun v d => d + base * v) v) ∧
      r.1.any = (a.any || !(numeral base p).isEmpty) ∧ r.2 = p.drop (numeral base p).length := by
  induction p generalizing a v with
  | nil => simpa [digitLoop, numeral] using h
  | cons c p ih =>
    rw [digitLoop, numeral]
    cases hd : digitVal c base with
    | none => simpa using h
    | some d =>
      obtain ⟨h1, h2, h3⟩ := ih (h.push hM (digitVal_lt hd))
      refine ⟨h1, h2.trans ?_, h3⟩
      split <;> simp

/-- The number that a text starts with: a sign, digits in a base and the text behind. -/
structure Numeral where
  neg : Bool
  base : ℕ
  digits : List ℕ
  rest : List Char

/-- The numeral that `s` starts with, behind blanks. -/
def Numeral.read (s : List Char) (base : ℕ) : Numeral :=
  let (neg, p) := takeSign (skipBlanks s)
  let (base, p) := effectiveBase base p
  ⟨neg, base, numeral base p, p.drop (numeral base p).length⟩

def Numeral.magnitude (x : Numeral) : ℕ := number x.base x.digits

def Numeral.value (x : Numeral) : ℤ := if x.neg then -x.magnitude else x.magnitude

def Numeral.endp (x : Numeral) (s : List Char) : List Char := if x.digits = [] then s else x.rest

theorem digitLoop_start (base : ℕ) {M : ℕ} (hM : M < 2 ^ 64) (p s : List Char) :
    let r := digitLoop base (M / base) (M % base) p ⟨0, false, false⟩
    Holds M r.1 (number base (numeral base p)) ∧
      (if r.1.any then r.2 else s) = if numeral base p = [] then s else
        p.drop (numeral base p).length := by
  have h0 : Holds M ⟨0, false, false⟩ 0 := ⟨fun _ => ⟨rfl, M.zero_le⟩, nofun⟩
  rw [number_foldl]
  obtain ⟨h1, h2, h3⟩ := digitLoop_spec hM p h0
  refine ⟨h1, ?_⟩
  rw [h2, h3]
  cases numeral base p <;> simp

/-- `strtol` returns the value of the numeral, clamped, and `ERANGE` says that it was. -/
theorem strtol_spec (s : List Char) (base : ℕ) :
    (strtol s base).value = max LONG_MIN (min LONG_MAX (Numeral.read s base).value) ∧
      (strtol s base).endp = (Numeral.read s base).endp s ∧
      ((strtol s base).erange = true ↔
        ¬(LONG_MIN ≤ (Numeral.read s base).value ∧ (Numeral.read s base).value ≤ LONG_MAX)) := by
  rcases h1 : takeSign (skipBlanks s) with ⟨neg, p⟩
  rcases h2 : effectiveBase base p with ⟨b, q⟩
  have hM : (if neg then 2 ^ 63 else 2 ^ 63 - 1) < 2 ^ 64 := by split <;> norm_num
  obtain ⟨hholds, hend⟩ := digitLoop_start b hM q s
  simp only [strtol, Numeral.value, Numeral.endp, Numeral.magnitude, Numeral.read, h1, h2, hend]
  generalize digitLoop b _ _ q _ = r at hholds ⊢
  generalize number b (numeral b q) = m at hholds ⊢
  unfold LONG_MIN LONG_MAX
  cases ho : r.1.overflow with
  | true =>
    have := hholds.beyond ho
    cases neg <;> simp at this ⊢ <;> omega
  | false =>
    obtain ⟨hn, hle⟩ := hholds.exact ho
    rw [hn]
    cases neg <;> simp at hle ⊢
    · omega
    · split <;> simp <;> omega

theorem strtoul_spec (s : List Char) (base : ℕ) :
    (strtoul s base).value = (if ULONG_MAX < (Numeral.read s base).magnitude then (ULONG_MAX : ℤ)
        else (Numeral.read s base).value % 2 ^ 64) ∧
      (strtoul s base).endp = (Numeral.read s base).endp s ∧
      ((strtoul s base).erange = true ↔ ULONG_MAX < (Numeral.read s base).magnitude) := by
  rcases h1 : takeSign (skipBlanks s) with ⟨neg, p⟩
  rcases h2 : effectiveBase base p with ⟨b, q⟩
  obtain ⟨hholds, hend⟩ := digitLoop_start b (show ULONG_MAX < 2 ^ 64 by decide) q s
  simp only [strtoul, Numeral.value, Numeral.endp, Numeral.magnitude, Numeral.read, h1, h2, hend]
  generalize digitLoop b _ _ q _ = r at hholds ⊢
  generalize number b (numeral b q) = m at hholds ⊢
  cases ho : r.1.overflow with
  | true =>
    have := hholds.beyond ho
    simp [this]
  | false =>
    obtain ⟨hn, hle⟩ := hholds.exact ho
    rw [hn, if_neg hle.not_gt]
    unfold ULONG_MAX at *
    cases neg <;> simp <;> omega

/-- Both functions convert the numeral that the text starts with exactly. -/
theorem strtol_strtoul_exact (s : List Char) (base : ℕ) :
    ((strtol s base).value = max LONG_MIN (min LONG_MAX (Numeral.read s base).value) ∧
      (strtol s base).endp = (Numeral.read s base).endp s ∧
      ((strtol s base).erange = true ↔
        ¬(LONG_MIN ≤ (Numeral.read s base).value ∧ (Numeral.read s base).value ≤ LONG_MAX))) ∧
    (strtoul s base).value = (if ULONG_MAX < (Numeral.read s base).magnitude then (ULONG_MAX : ℤ)
        else (Numeral.read s base).value % 2 ^ 64) ∧
      (strtoul s base).endp = (Numeral.read s base).endp s ∧
      ((strtoul s base).erange = true ↔ ULONG_MAX < (Numeral.read s base).magnitude) :=
  ⟨strtol_spec s base, strtoul_spec s base⟩

example : strtol " -0x8000000000000001z".toList 0 = ⟨LONG_MIN, ['z'], true⟩ := by decide

end Sbunix.Libc
