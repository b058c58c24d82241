import Mathlib.Tactic

/-!
# Runs of a labelled transition relation

`Reaches step ok s t`: some sequence of steps leads from `s` to `t`, and every
label taken was admitted by `ok` in the state it was taken in. A property that
every admitted step keeps holds in every state reached.
-/

namespace Sbunix.Lib

variable {σ ι : Type*}

inductive Reaches (step : σ → ι → σ → Prop) (ok : σ → ι → Prop) (s : σ) : σ → Prop
  | refl : Reaches step ok s s
  | tail {t u : σ} {a : ι} : Reaches step ok s t → ok t a → step t a u → Reaches step ok s u

variable {step : σ → ι → σ → Prop} {ok : σ → ι → Prop} {s t u : σ}

/-- The invariant rule. -/
theorem Reaches.invariant {I : σ → Prop} (h : Reaches step ok s t) (hs : I s)
    (hstep : ∀ t a u, I t → ok t a → step t a u → I u) : I t := by
  induction h with
  | refl => exact hs
  | tail _ ha hst ih => exact hstep _ _ _ ih ha hst

theorem Reaches.mono {ok' : σ → ι → Prop} (h : Reaches step ok s t)
    (hok : ∀ t a, ok t a → ok' t a) : Reaches step ok' s t := by
  induction h with
  | refl => exact .refl
  | tail _ ha hst ih => exact .tail ih (hok _ _ ha) hst

theorem Reaches.single {a : ι} (ha : ok s a) (h : step s a t) : Reaches step ok s t :=
  .tail .refl ha h

theorem Reaches.trans (h : Reaches step ok s t) (h' : Reaches step ok t u) :
    Reaches step ok s u := by
  induction h' with
  | refl => exact h
  | tail _ ha hst ih => exact .tail ih ha hst

/-- A computed run that stops at a label that is not admitted. -/
theorem reaches_of_run [∀ s a, Decidable (ok s a)] {exec : σ → ι → Option σ}
    {run : List ι → σ → Option σ}
    (hnil : ∀ s, run [] s = some s)
    (hcons : ∀ a as s, run (a :: as) s = if ok s a then (exec s a).bind (run as) else none)
    (hexec : ∀ {s a t}, exec s a = some t → step s a t) {as : List ι} (h : run as s = some t) :
    Reaches step ok s t := by
  induction as generalizing s with
  | nil =>
    cases (hnil s).symm.trans h
    exact .refl
  | cons a as ih =>
    rw [hcons] at h
    obtain ⟨hok, h⟩ := Option.ite_none_right_eq_some.mp h
    obtain ⟨u, hu, h⟩ := Option.bind_eq_some_iff.mp h
    exact (Reaches.single hok (hexec hu)).trans (ih h)

/-- The end of a computed run, and what was computed of it. -/
theorem exists_end {o : Option σ} {P Q : σ → Prop} [DecidablePred P]
    (h : (o.any fun s => P s) = true)
    (hQ : ∀ s, o = some s → P s → Q s) : ∃ s, o = some s ∧ Q s := by
  obtain ⟨s, hs, hP⟩ := (Option.any_eq_true _ _).mp h
  exact ⟨s, hs, hQ s hs (of_decide_eq_true hP)⟩

end Sbunix.Lib
