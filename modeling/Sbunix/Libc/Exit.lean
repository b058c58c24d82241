import Mathlib.Data.List.Nodup
import Mathlib.Logic.Function.Iterate
import Mathlib.Order.Bounds.Basic

/-!
# Exit handlers

`atexit` and `exit` of `libc/exit.c`. A handler may register others and may call
`exit` itself. Its own call does not come back: the loop of the inner `exit` empties
the table and ends the process. Every registration has a number, and the log says
which one was made or started and when.
-/

namespace Sbunix.Libc.Exit

open List

def ATEXIT_MAX : ℕ := 32

inductive Errno
  | EINVAL
  | ENOMEM

inductive Event
  | registered (i : ℕ)
  | started (i : ℕ)
  deriving DecidableEq

/-- `atexit_fns` from its end, with the numbers of the registrations. The latest event is the first.
-/
structure State (F : Type) where
  fns : List (ℕ × F)
  next : ℕ
  log : List Event

inductive Action (F : Type)
  | atexit (func : Option F)
  | exit (status : ℤ)

section

variable {F : Type}

def atexit (s : State F) : Option F → Except Errno (State F)
  | none => .error .EINVAL
  | some f =>
    if s.fns.length ≥ ATEXIT_MAX then .error .ENOMEM
    else .ok ⟨(s.next, f) :: s.fns, s.next + 1, .registered s.next :: s.log⟩

def register (s : State F) (func : Option F) : State F :=
  match atexit s func with
  | .ok s => s
  | .error _ => s

/-- A handler runs until it returns or calls `exit`: the state, and the status of the loop that goes
on. -/
def call (s : State F) (status : ℤ) : List (Action F) → State F × ℤ
  | [] => (s, status)
  | .atexit func :: actions => call (register s func) status actions
  | .exit inner :: _ => (s, inner)

/-- One round of the loop. What a handler does depends on all that happened before. -/
def round (body : List Event → F → List (Action F)) (p : State F × ℤ) : State F × ℤ :=
  match p.1.fns with
  | [] => p
  | (i, fn) :: fns => call ⟨fns, p.1.next, .started i :: p.1.log⟩ p.2 (body p.1.log fn)

/-- `exit`: the state and the status of `raw_sys_exit`. -/
def exit (body : List Event → F → List (Action F)) : ℕ → State F × ℤ → Option (State F × ℤ)
  | 0, _ => none
  | fuel + 1, p => if p.1.fns.isEmpty then some p else exit body fuel (round body p)

/-- The state in which `main` calls `exit`. -/
def start (main : List (Option F)) : State F := main.foldl register ⟨[], 0, []⟩

def Waiting (log : List Event) (i : ℕ) : Prop := .registered i ∈ log ∧ .started i ∉ log

/-- Always the latest of the waiting registrations was started. -/
def Lifo (log : List Event) : Prop :=
  ∀ later i before, log = later ++ .started i :: before → IsGreatest {j | Waiting before j} i

theorem Lifo.cons {log : List Event} (h : Lifo log) {e : Event}
    (he : ∀ i, e = .started i → IsGreatest {j | Waiting log j} i) : Lifo (e :: log) := by
  intro later i before hlog
  rcases later with _ | ⟨d, later⟩
  · obtain ⟨rfl, rfl⟩ := List.cons.inj hlog
    exact he i rfl
  · exact h later i before (List.cons.inj hlog).2

/-- The table has the waiting registrations, the latest first. -/
structure Inv (s : State F) : Prop where
  waiting : ∀ i, i ∈ s.fns.map Prod.fst ↔ Waiting s.log i
  bound : ∀ i, .registered i ∈ s.log ∨ .started i ∈ s.log → i < s.next
  order : (s.fns.map Prod.fst).Pairwise (· > ·)
  nodup : s.log.Nodup
  lifo : Lifo s.log
  total : s.log.length + s.fns.length = 2 * s.next

theorem Inv.register {s : State F} (h : Inv s) (func : Option F) : Inv (register s func) := by
  have hnew : ∀ e, e = .registered s.next ∨ e = .started s.next → e ∉ s.log := by
    rintro e (rfl | rfl) hm
    · exact absurd (h.bound _ (.inl hm)) (lt_irrefl _)
    · exact absurd (h.bound _ (.inr hm)) (lt_irrefl _)
  rcases func with _ | f
  · exact h
  unfold Exit.register atexit
  split_ifs
  · exact h
  · refine ⟨fun i => ?_, fun i hi => ?_, ?_, ?_, h.lifo.cons nofun, ?_⟩
    · have := h.waiting i
      simp only [Waiting, map_cons, mem_cons, Event.registered.injEq, reduceCtorEq,
        false_or] at this ⊢
      grind
    · have := h.bound i
      simp only [mem_cons, Event.registered.injEq, reduceCtorEq, false_or] at hi
      dsimp only
      grind
    · refine pairwise_cons.mpr ⟨fun i hi => ?_, h.order⟩
      exact h.bound i (.inl ((h.waiting i).mp hi).1)
    · exact nodup_cons.mpr ⟨hnew _ (.inl rfl), h.nodup⟩
    · have := h.total
      simp only [length_cons]
      omega

theorem Inv.started {s : State F} (h : Inv s) {i : ℕ} {fn : F} {fns : List (ℕ × F)}
    (hfns : s.fns = (i, fn) :: fns) : Inv ⟨fns, s.next, .started i :: s.log⟩ := by
  obtain ⟨hw, hb, ho, hn, hl, ht⟩ := h
  rw [hfns] at hw ho ht
  obtain ⟨hlast, ho⟩ := pairwise_cons.mp ho
  have hi := (hw i).mp mem_cons_self
  refine ⟨fun j => ?_, fun j hj => ?_, ho, nodup_cons.mpr ⟨hi.2, hn⟩, hl.cons fun j hj => ?_, ?_⟩
  · have := hw j
    have := hlast j
    simp only [Waiting, map_cons, mem_cons, Event.started.injEq, reduceCtorEq, false_or] at *
    grind
  · have := hb j
    have := hb i (.inl hi.1)
    simp only [mem_cons, Event.started.injEq, reduceCtorEq, false_or] at hj
    dsimp only
    grind
  · cases hj
    refine ⟨hi, fun j hj => ?_⟩
    rcases mem_cons.mp ((hw j).mpr hj) with rfl | hj
    · exact le_rfl
    · exact (hlast j hj).le
  · simp only [length_cons] at ht ⊢
    omega

theorem Inv.call {s : State F} (h : Inv s) (status : ℤ) (actions : List (Action F)) :
    Inv (call s status actions).1 ∧ s.log.length ≤ (Exit.call s status actions).1.log.length := by
  induction actions generalizing s with
  | nil => exact ⟨h, le_rfl⟩
  | cons a actions ih =>
    cases a with
    | exit inner => exact ⟨h, le_rfl⟩
    | atexit func =>
      refine ⟨(ih (h.register func)).1, le_trans ?_ (ih (h.register func)).2⟩
      rcases func with _ | f
      · exact le_rfl
      · unfold Exit.register atexit
        split_ifs <;> simp

variable (body : List Event → F → List (Action F)) {p : State F × ℤ}

theorem Inv.round (h : Inv p.1) :
    Inv (round body p).1 ∧ (p.1.fns ≠ [] → p.1.log.length < (Exit.round body p).1.log.length) := by
  unfold Exit.round
  split
  · next hfns => exact ⟨h, fun hne => absurd hfns hne⟩
  · next i fn fns hfns =>
    have := (h.started hfns).call p.2 (body p.1.log fn)
    exact ⟨this.1, fun _ => this.2⟩

theorem Inv.rounds (h : Inv p.1) (n : ℕ) : Inv ((Exit.round body)^[n] p).1 := by
  induction n generalizing p with
  | zero => exact h
  | succ n ih => exact ih (h.round body).1

end

end Sbunix.Libc.Exit
