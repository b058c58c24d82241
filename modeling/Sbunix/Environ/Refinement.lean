import Sbunix.Environ.Spec

/-!
# The environment is a finite map

A world is the state of the library, the strings that are the caller's, and a map
from names to values that every successful call updates and a failed one leaves.
`getenv` answers with the map, whatever was called before, and no call reads or
writes outside of what it may.

The caller owns the strings it gives to `putenv`: it does not change or release
them while they are in the environment, and it does not give away strings of the
library.
-/

namespace Sbunix.Environ

open Lib List Function

structure World where
  lib : State
  caller : Ptr → Option Str
  map : Str → Option Str

inductive Call
  | setenv (name value : Option Str) (overwrite : Bool)
  | unsetenv (name : Option Str)
  | putenv (p : Ptr)
  | own (p : Ptr) (str : Option Str)

/-- What a successful call does to the map. -/
def Call.effect (caller : Ptr → Option Str) (map : Str → Option Str) : Call → Str → Option Str
  | .setenv (some name) value overwrite =>
    if !overwrite && (map name).isSome then map else update map name (some (value.getD []))
  | .unsetenv (some name) => update map name none
  | .putenv p =>
    match caller p with
    | some str => match key str with
      | some name => update map name (some (val str))
      | none => update map str none
    | none => map
  | .setenv none _ _ | .unsetenv none | .own _ _ => map

namespace World

def after (w : World) (c : Call) (r : Ret) (lib : State) : Ret × World :=
  (r, { w with lib := lib, map := if r = .ok then c.effect w.caller w.map else w.map })

def call (w : World) (g : Grants) (c : Call) : Option (Ret × World) :=
  match c with
  | .setenv name value overwrite =>
    (w.lib.setenv g name value overwrite).map fun (r, s) => w.after c r s
  | .unsetenv name => (w.lib.unsetenv g name).map fun (r, s) => w.after c r s
  | .putenv p => (w.lib.putenv g p).map fun (r, s) => w.after c r s
  -- the caller makes a string, changes it or gives it up
  | .own p str => some (.ok, { w with
    lib := { w.lib with strs := update w.lib.strs p str }
    caller := update w.caller p str })

end World

/-- The allocator gives memory that is not in use, and the caller keeps to its strings. -/
def Admitted (w : World) (l : Call × Grants) : Prop :=
  (∀ p, l.2.entry = some p → p ≠ 0 ∧ w.lib.strs p = none) ∧
    match l.1 with
    | .setenv _ _ _ | .unsetenv _ => True
    | .putenv p => p = 0 ∨ (w.caller p).isSome
    | .own p _ => ∀ cells ps, w.lib.environ = some cells → upToNull cells = some ps → p ∉ ps

def step (w : World) (l : Call × Grants) (w' : World) : Prop := ∃ r, w.call l.2 l.1 = some (r, w')

/-- At the start the environment is an array of strings of the caller, or there is none. The
map has the value of the first string for a name. -/
structure Started (w : World) : Prop where
  table : w.lib.table = none
  strs : ∀ p str, w.caller p = some str → w.lib.strs p = some str
  start : ∃ ps, ((w.lib.start = none ∧ ps = []) ∨ ∃ cells, w.lib.start = some cells ∧
    upToNull cells = some ps) ∧
    (∀ p ∈ ps, (w.caller p).isSome) ∧
    ∀ name, w.map name = (Keyed.first key (ps.filterMap w.caller) name).map val

/-! ### The invariant -/

structure Inv (w : World) (es : List Entry) : Prop where
  holds : Holds w.lib es
  strs : ∀ p str, w.caller p = some str → w.lib.strs p = some str
  mine : ∀ e ∈ es, e.mine = true → w.caller e.ptr = none
  yours : ∀ e ∈ es, e.mine = false → w.caller e.ptr = some e.str
  map : ∀ name, badName name = false → w.map name = (Keyed.first Entry.named es name).map
    fun e => val e.str

variable {w w' : World} {es es' : List Entry} {g : Grants} {s' : State} {n name : Str} {c : Call}
    {p : Ptr} {r : Ret}

theorem Inv.same (hi : Inv w es) (hs : Holds s' es) (hstrs : s'.strs = w.lib.strs) :
    Inv { w with lib := s' } es :=
  ⟨hs, fun p str hp => hstrs ▸ hi.strs p str hp, hi.mine, hi.yours, hi.map⟩

theorem Inv.fails (hi : Inv w es) (hf : Fails w.lib es r s') : Inv (w.after c r s').2 es := by
  obtain ⟨errno, rfl⟩ := hf.ret
  exact hi.same hf.holds hf.strs

theorem Inv.updates (hi : Inv w es) {s₁ : State} {new : Option Entry}
    (hu : Updates s₁ es n new s' es')
    (hstrs : ∀ p str, w.caller p = some str → s₁.strs p = some str)
    (hmine : ∀ e, new = some e → e.mine = true → w.caller e.ptr = none)
    (hyours : ∀ e, new = some e → e.mine = false → w.caller e.ptr = some e.str) :
    Inv ⟨s', w.caller, update w.map n (new.map fun e => val e.str)⟩ es' := by
  refine ⟨hu.holds, fun p str hp => ?_, fun e he => ?_, fun e he => ?_, fun name hname => ?_⟩
  · rw [hu.kept p, hstrs p str hp]
    rintro e he hm rfl
    rw [hi.mine e he hm] at hp
    cases hp
  · rcases hu.origin e he with he | he
    · exact hi.mine e he
    · exact hmine e he.symm
  · rcases hu.origin e he with he | he
    · exact hi.yours e he
    · exact hyours e he.symm
  · dsimp only
    by_cases hne : name = n
    · rw [hne, update_self, hu.self]
    · rw [update_of_ne hne, hu.other name hne, hi.map name hname]

def Answers (w : World) (l : Call × Grants) : Prop :=
    ∃ r w' es', w.call l.2 l.1 = some (r, w') ∧ Inv w' es'

section

variable (hi : Inv w es)
include hi

theorem setenv_answers (hentry : ∀ p, g.entry = some p → p ≠ 0 ∧ w.lib.strs p = none)
    (name value : Option Str) (overwrite : Bool) : Answers w (.setenv name value overwrite, g) := by
  unfold Answers World.call
  have hrefused : Inv (w.after (.setenv name value overwrite) (.fail EINVAL) w.lib).2 es :=
    hi.fails ⟨⟨_, rfl⟩, hi.holds, rfl⟩
  cases name with
  | none => exact ⟨_, _, es, rfl, hrefused⟩
  | some name =>
    by_cases hname : badName name = true
    · have hrun : w.lib.setenv g (some name) value overwrite = some (.fail EINVAL, w.lib) :=
        if_pos hname
      exact ⟨_, _, es, congrArg (Option.map _) hrun, hrefused⟩
    · rw [Bool.not_eq_true] at hname
      obtain ⟨r, s', hrun, hres⟩ := setenv_spec hi.holds g hname value overwrite hentry
      have hmap := hi.map name hname
      dsimp only
      rw [hrun]
      rcases hres with hf | ⟨rfl, rfl, rfl, hsome⟩ | ⟨rfl, hnew, p, es', hp, hu⟩
      · exact ⟨_, _, es, rfl, hi.fails hf⟩
      · refine ⟨_, _, es, rfl, ?_⟩
        have hkeep : (w.map name).isSome = true := by
          rw [hmap]
          simpa using hsome
        simpa [World.after, Call.effect, hkeep] using hi
      · refine ⟨_, _, es', rfl, ?_⟩
        obtain ⟨-, hpn⟩ := hentry p hp
        -- the new string is in memory that the caller does not have
        have hcaller : w.caller p = none := by
          cases hc : w.caller p with
          | none => rfl
          | some str => rw [hi.strs p str hc] at hpn; cases hpn
        have hinv := hi.updates hu (fun q str hq => ?_) ?_ ?_
        · have heffect : (!overwrite && (w.map name).isSome) = false := by
            rcases hnew with rfl | hnone
            · rfl
            · rw [hmap, hnone]
              simp
          have hval : val (Entry.made p name value).str = value.getD [] :=
            val_append (badName_eq_false hname).2
          simpa [World.after, Call.effect, heffect, hval] using hinv
        · dsimp only
          rw [update_of_ne, hi.strs q str hq]
          rintro rfl
          rw [hcaller] at hq
          cases hq
        · rintro e ⟨⟩ -
          exact hcaller
        · rintro e ⟨⟩ hm
          cases hm

theorem unsetenv_answers (name : Option Str) : Answers w (.unsetenv name, g) := by
  unfold Answers World.call
  have hrefused : Inv (w.after (.unsetenv name) (.fail EINVAL) w.lib).2 es :=
    hi.fails ⟨⟨_, rfl⟩, hi.holds, rfl⟩
  cases name with
  | none => exact ⟨_, _, es, rfl, hrefused⟩
  | some name =>
    by_cases hname : badName name = true
    · have hrun : w.lib.unsetenv g (some name) = some (.fail EINVAL, w.lib) := if_pos hname
      exact ⟨_, _, es, congrArg (Option.map _) hrun, hrefused⟩
    · rw [Bool.not_eq_true] at hname
      obtain ⟨r, s', hrun, hres⟩ := unsetenv_spec hi.holds g hname
      dsimp only
      rw [hrun]
      rcases hres with hf | ⟨rfl, es', hu⟩
      · exact ⟨_, _, es, rfl, hi.fails hf⟩
      · exact ⟨_, _, es', rfl, hi.updates hu hi.strs nofun nofun⟩

theorem putenv_answers (hp : p = 0 ∨ (w.caller p).isSome) : Answers w (.putenv p, g) := by
  unfold Answers World.call
  by_cases hp0 : p = 0
  · have hrun : w.lib.putenv g p = some (.fail EINVAL, w.lib) := if_pos hp0
    exact ⟨_, _, es, congrArg (Option.map _) hrun, hi.fails ⟨⟨_, rfl⟩, hi.holds, rfl⟩⟩
  · obtain ⟨str, hstr⟩ := Option.isSome_iff_exists.mp (hp.resolve_left hp0)
    have hyours : ∀ e ∈ es, e.ptr = p → e.mine = false := by
      intro e he hep
      by_contra hm
      have := hi.mine e he (by simpa using hm)
      rw [hep, hstr] at this
      cases this
    obtain ⟨r, s', hrun, hres⟩ := putenv_spec hi.holds g hp0 (hi.strs p str hstr) hyours
    dsimp only
    rw [hrun]
    rcases hres with hf | ⟨rfl, hkey, es', hu⟩ | ⟨rfl, n, es', hkey, hu⟩
    · exact ⟨_, _, es, rfl, hi.fails hf⟩
    · refine ⟨_, _, es', rfl, ?_⟩
      have hinv := hi.updates hu hi.strs nofun nofun
      simpa [World.after, Call.effect, hstr, hkey] using hinv
    · refine ⟨_, _, es', rfl, ?_⟩
      have hinv := hi.updates hu hi.strs (by rintro e ⟨⟩ hm; cases hm)
        (by rintro e ⟨⟩ -; exact hstr)
      simpa [World.after, Call.effect, hstr, hkey] using hinv

theorem own_answers (str : Option Str)
    (hout : ∀ cells ps, w.lib.environ = some cells → upToNull cells = some ps → p ∉ ps) :
    Answers w (.own p str, g) := by
  have hne : ∀ e ∈ es, e.ptr ≠ p := by
    intro e he hep
    rcases hi.holds.environ with ⟨-, rfl⟩ | ⟨cells, henv, hcells⟩
    · cases he
    · exact hout cells _ henv hcells (mem_map.mpr ⟨e, he, hep⟩)
  refine ⟨_, _, es, rfl, ⟨⟨⟨fun e he => ?_, hi.holds.strings.unique⟩, hi.holds.place⟩,
    fun q s hq => ?_,
    fun e he hm => ?_, fun e he hm => ?_, hi.map⟩⟩
  · obtain ⟨h0, hs⟩ := hi.holds.strings.here e he
    exact ⟨h0, by dsimp only; rw [update_of_ne (hne e he), hs]⟩
  · dsimp only at hq ⊢
    by_cases hqp : q = p
    · rw [hqp, update_self] at hq ⊢
      exact hq
    · rw [update_of_ne hqp] at hq ⊢
      exact hi.strs q s hq
  · dsimp only
    rw [update_of_ne (hne e he), hi.mine e he hm]
  · dsimp only
    rw [update_of_ne (hne e he), hi.yours e he hm]

theorem answers {l : Call × Grants} (hl : Admitted w l) : Answers w l := by
  obtain ⟨c, g⟩ := l
  obtain ⟨hentry, hl⟩ := hl
  cases c with
  | setenv name value overwrite => exact setenv_answers hi hentry name value overwrite
  | unsetenv name => exact unsetenv_answers hi name
  | putenv p => exact putenv_answers hi hl
  | own p str => exact own_answers hi str hl

end

theorem upToNull_ne_zero {cells ps : List Ptr} (h : upToNull cells = some ps) :
    ∀ p ∈ ps, p ≠ 0 := by
  induction cells generalizing ps with
  | nil => cases h
  | cons q cells ih =>
    rw [upToNull] at h
    split at h
    · obtain rfl := Option.some.inj h
      exact forall_mem_nil _
    · next hq =>
      obtain ⟨ps', hps', rfl⟩ := Option.map_eq_some_iff.mp h
      intro p hp
      rcases mem_cons.mp hp with rfl | hp
      · exact hq
      · exact ih hps' p hp

theorem Started.inv (h : Started w) : ∃ es, Inv w es := by
  obtain ⟨ps, hstart, hsome, hmap⟩ := h.start
  have hcaller : ∀ p ∈ ps, w.caller p = some ((w.caller p).getD []) := by
    intro p hp
    obtain ⟨str, hstr⟩ := Option.isSome_iff_exists.mp (hsome p hp)
    rw [hstr]
    rfl
  obtain ⟨es, hes⟩ : ∃ es, es = ps.map fun p => (⟨p, (w.caller p).getD [], false⟩ : Entry) :=
    ⟨_, rfl⟩
  have hptr : es.map Entry.ptr = ps := by
    rw [hes, map_map]
    exact map_id _
  have hstr : ps.filterMap w.caller = es.map Entry.str := by
    rw [hes, map_map, ← filterMap_eq_map]
    exact filterMap_congr hcaller
  have hmem : ∀ e ∈ es, e.ptr ∈ ps ∧ w.caller e.ptr = some e.str ∧ e.mine = false := by
    intro e he
    rw [hes] at he
    obtain ⟨p, hp, rfl⟩ := mem_map.mp he
    exact ⟨hp, hcaller p hp, rfl⟩
  refine ⟨es, ⟨⟨fun e he => ?_, ?_⟩, .inr ⟨h.table, fun e he => (hmem e he).2.2, ?_⟩⟩, h.strs,
    fun e he hm => ?_,
    fun e he _ => (hmem e he).2.1, fun name _ => ?_⟩
  · obtain ⟨hp, hc, -⟩ := hmem e he
    refine ⟨?_, h.strs _ _ hc⟩
    rcases hstart with ⟨-, rfl⟩ | ⟨cells, -, hcells⟩
    · cases hp
    · exact upToNull_ne_zero hcells _ hp
  · exact pairwise_of_forall_mem_list fun a ha b hb _ => ⟨(hmem a ha).2.2, (hmem b hb).2.2⟩
  · rw [hptr]
    refine hstart.imp_left fun hnone => ⟨hnone.1, ?_⟩
    rw [hes, hnone.2]
    rfl
  · rw [(hmem e he).2.2] at hm
    cases hm
  · rw [hmap name, hstr, Keyed.first, find?_map, Option.map_map]
    rfl

theorem reaches_inv {w₀ : World} (h0 : Started w₀) (h : Reaches step Admitted w₀ w) :
    ∃ es, Inv w es := by
  refine h.invariant (I := fun w => ∃ es, Inv w es) h0.inv ?_
  rintro w l w' ⟨es, hi⟩ hl ⟨r, hrun⟩
  obtain ⟨r', w'', es', hrun', hi'⟩ := answers hi hl
  rw [hrun] at hrun'
  obtain ⟨rfl, rfl⟩ := Prod.mk.inj (Option.some.inj hrun')
  exact ⟨es', hi'⟩

theorem Inv.getenv (hi : Inv w es) (name : Str) :
    w.lib.getenv (some name) = some (if badName name then none else w.map name) := by
  cases hname : badName name with
  | true => exact if_pos hname
  | false =>
    rw [getenv_spec hi.holds hname, hi.map name hname]
    rfl

def digit (n : Fin 10) : Str := [⟨UInt8.ofNat (48 + n), by revert n; decide⟩]

/-- No environment, and no strings. -/
def nothing : World := ⟨⟨fun _ => none, none, none⟩, fun _ => none, fun _ => none⟩

end Sbunix.Environ
