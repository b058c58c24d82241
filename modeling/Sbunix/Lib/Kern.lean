import Mathlib.Tactic

/-!
# Kernel code: state with panics

`Kern σ α` is a program over a machine state `σ` that either returns a value
or panics. The state reached at a panic is kept, so that what the program had
already done to a device is still visible. `Spec` is the partial-correctness
triple with one postcondition for a return and one for a panic.
-/

namespace Sbunix.Lib

/-- A program over states `σ`; `none` is a panic in the state beside it. -/
def Kern (σ α : Type) := σ → Option α × σ

namespace Kern

variable {σ α β : Type}

instance : Monad (Kern σ) where
  pure a := fun s => (some a, s)
  bind x f := fun s =>
    match x s with
    | (some a, s') => f a s'
    | (none, s') => (none, s')

def panic : Kern σ α := fun s => (none, s)

def get : Kern σ σ := fun s => (some s, s)

def modify (f : σ → σ) : Kern σ Unit := fun s => (some (), f s)

/-- `for (i = i₀; i < i₀ + n; i++) body i` -/
def loop (body : ℕ → Kern σ Unit) : ℕ → ℕ → Kern σ Unit
  | _, 0 => pure ()
  | i, n + 1 => do body i; loop body (i + 1) n

@[simp] theorem pure_apply (a : α) (s : σ) : (pure a : Kern σ α) s = (some a, s) := rfl

@[simp] theorem get_apply (s : σ) : (get : Kern σ σ) s = (some s, s) := rfl

@[simp] theorem modify_apply (f : σ → σ) (s : σ) : modify f s = (some (), f s) := rfl

@[simp] theorem panic_apply (s : σ) : (panic : Kern σ α) s = (none, s) := rfl

theorem ite_apply (c : Prop) [Decidable c] (x y : Kern σ α) (s : σ) :
    (if c then x else y) s = if c then x s else y s := by
  split <;> rfl

variable {x : Kern σ α} {f : α → Kern σ β} {s s' : σ} {a : α}

theorem bind_some (h : x s = (some a, s')) : (x >>= f) s = f a s' := by
  change (match x s with | (some a, s') => f a s' | (none, s') => (none, s')) = _
  rw [h]

/-- A program that reads the state first. -/
theorem get_bind {f : σ → Kern σ β} : (get >>= f) s = f s s := rfl

/-- A program that changes the state first. -/
theorem modify_bind {g : σ → σ} {f : Unit → Kern σ β} : (modify g >>= f) s = f () (g s) :=
  rfl

theorem bind_none (h : x s = (none, s')) : (x >>= f) s = (none, s') := by
  change (match x s with | (some a, s') => f a s' | (none, s') => (none, s')) = _
  rw [h]

@[simp] theorem pure_eq_some {a b : α} : (pure a : Kern σ α) s = (some b, s') ↔ a = b ∧ s = s' := by
  simp

@[simp] theorem modify_eq_some {f : σ → σ} {u : Unit} : modify f s = (some u, s') ↔ f s = s' := by
  simp

/-- What a sequence that returned went through. -/
theorem bind_eq_some {s'' : σ} {b : β} :
    (x >>= f) s = (some b, s'') ↔ ∃ a s', x s = (some a, s') ∧ f a s' = (some b, s'') := by
  constructor
  · intro h
    rcases hx : x s with ⟨_ | a, s'⟩
    · rw [bind_none hx] at h
      simp at h
    · exact ⟨a, s', rfl, (bind_some hx).symm.trans h⟩
  · rintro ⟨a, s', hx, hf⟩
    exact (bind_some hx).trans hf

/-- A program whose value is dropped. -/
theorem discard_eq_some (h : (do let _ ← x) s = (some (), s')) : ∃ a, x s = (some a, s') := by
  obtain ⟨a, s₁, hx, hend⟩ := bind_eq_some.mp h
  obtain ⟨-, rfl⟩ := pure_eq_some.mp hend
  exact ⟨a, hx⟩

instance : LawfulMonad (Kern σ) := LawfulMonad.mk' (Kern σ)
  (by
    intro α x
    funext s
    change (match x s with | (some a, s') => (some a, s') | (none, s') => (none, s')) = x s
    rcases x s with ⟨_ | a, s'⟩ <;> rfl)
  (by intros; rfl)
  (by
    intro α β γ x f g
    funext s
    rcases h : x s with ⟨_ | a, s'⟩
    · rw [bind_none h, bind_none (bind_none h)]
    · rw [bind_some h]
      rcases h' : f a s' with ⟨_ | b, s''⟩
      · rw [bind_none h', bind_none ((bind_some h).trans h')]
      · rw [bind_some h', bind_some ((bind_some h).trans h')])

/-- From a state in `P`, a return lands in `Q` and a panic in `E`. -/
def Spec (P : σ → Prop) (x : Kern σ α) (Q : α → σ → Prop) (E : σ → Prop) : Prop :=
  ∀ s, P s → (∀ a s', x s = (some a, s') → Q a s') ∧ ∀ s', x s = (none, s') → E s'

variable {P : σ → Prop} {Q : α → σ → Prop} {R : β → σ → Prop} {E : σ → Prop}

theorem Spec.pure (h : ∀ s, P s → Q a s) : Spec P (pure a) Q E := by
  intro s hs
  constructor
  · intro b s' he
    simp only [pure_apply, Prod.mk.injEq, Option.some.injEq] at he
    obtain ⟨rfl, rfl⟩ := he
    exact h s hs
  · intro s' he
    simp at he

theorem Spec.modify {f : σ → σ} {Q : σ → Prop} (h : ∀ s, P s → Q (f s)) :
    Spec P (modify f) (fun _ => Q) E := by
  intro s hs
  constructor
  · intro b s' he
    simp only [modify_apply, Prod.mk.injEq] at he
    exact he.2 ▸ h s hs
  · intro s' he
    simp at he

theorem Spec.bind (hx : Spec P x Q E) (hf : ∀ a, Spec (Q a) (f a) R E) : Spec P (x >>= f) R E := by
  intro s hs
  rcases he : x s with ⟨_ | a, s'⟩
  · rw [bind_none he]
    constructor
    · intro b s'' hb
      simp at hb
    · intro s'' hb
      simp only [Prod.mk.injEq, true_and] at hb
      exact hb ▸ (hx s hs).2 s' he
  · rw [bind_some he]
    exact hf a s' ((hx s hs).1 a s' he)

theorem Spec.conseq {P' : σ → Prop} {Q' : α → σ → Prop} {E' : σ → Prop}
    (h : Spec P x Q E) (hP : ∀ s, P' s → P s) (hQ : ∀ a s, Q a s → Q' a s)
    (hE : ∀ s, E s → E' s) : Spec P' x Q' E' := by
  intro s hs
  obtain ⟨h1, h2⟩ := h s (hP s hs)
  exact ⟨fun a s' he => hQ a s' (h1 a s' he), fun s' he => hE s' (h2 s' he)⟩

/-- A counted loop keeps an invariant indexed by its counter. -/
theorem Spec.loop {I : ℕ → σ → Prop} {b : ℕ → Kern σ Unit} {i n : ℕ}
    (h : ∀ j, i ≤ j → j < i + n → Spec (I j) (b j) (fun _ => I (j + 1)) E) :
    Spec (I i) (loop b i n) (fun _ => I (i + n)) E := by
  induction n generalizing i with
  | zero => exact Spec.pure fun s hs => hs
  | succ n ih =>
    refine Spec.bind (h i le_rfl (by omega)) fun _ => ?_
    have := ih (i := i + 1) fun j hj hj' => h j (by omega) (by omega)
    rwa [show i + 1 + n = i + (n + 1) by omega] at this

/-! ### Effects: a relation between the states before and after -/

/-- Every return of `x` changes the state as `R` allows. -/
def Rel (R : σ → σ → Prop) (x : Kern σ α) : Prop := ∀ s a s', x s = (some a, s') → R s s'

section

variable {R : σ → σ → Prop} [Std.Refl R] [IsTrans σ R]

omit [IsTrans σ R] in
theorem Rel.pure (a : α) : Rel R (pure a : Kern σ α) := by
  intro s b s' he
  obtain ⟨-, rfl⟩ := pure_eq_some.mp he
  exact Std.Refl.refl s

omit [IsTrans σ R] in
theorem Rel.get : Rel R (get : Kern σ σ) := by
  intro s b s' he
  simp only [get_apply, Prod.mk.injEq] at he
  exact he.2 ▸ Std.Refl.refl s

omit [Std.Refl R] [IsTrans σ R] in
theorem Rel.modify {f : σ → σ} (h : ∀ s, R s (f s)) : Rel R (modify f) := by
  intro s b s' he
  exact modify_eq_some.mp he ▸ h s

omit [Std.Refl R] in
theorem Rel.bind (hx : Rel R x) (hf : ∀ a, Rel R (f a)) : Rel R (x >>= f) := by
  intro s b s'' he
  obtain ⟨a, s', h1, h2⟩ := bind_eq_some.mp he
  exact IsTrans.trans _ _ _ (hx s a s' h1) (hf a s' b s'' h2)

omit [Std.Refl R] [IsTrans σ R] in
theorem Rel.ite {c : Prop} [Decidable c] {x y : Kern σ α} (hx : Rel R x) (hy : Rel R y) :
    Rel R (if c then x else y) := by
  split
  · exact hx
  · exact hy

theorem Rel.loop {b : ℕ → Kern σ Unit} (h : ∀ i, Rel R (b i)) (i n : ℕ) : Rel R (loop b i n) := by
  induction n generalizing i with
  | zero => exact Rel.pure ()
  | succ n ih => exact Rel.bind (h i) fun _ => ih (i + 1)

end

end Kern

end Sbunix.Lib
