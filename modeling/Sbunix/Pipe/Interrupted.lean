import Sbunix.Pipe.Calls

/-!
# Interrupted calls

A `read` or `write` on a pipe gives up with `-ERESTARTSYS` only if it has moved
no byte since it began, so that it can be made again. While it sleeps, what it
has moved shows in its arguments.
-/

namespace Sbunix.Pipe

open Lib Proc

def Io.idle : Io → Prop
  | .read c _ _ => c.got = []
  | .write c _ _ i => c.done = 0 ∧ i = 0

def Unmoved (w w' : World) : Prop := w'.stored = w.stored ∧ w'.taken = w.taken

/-- How a part of a call of `pid` ends, which had moved nothing before if `idle`. -/
structure Outcome (pid : ℤ) (idle : Prop) (w w' : World) : Prop where
  others : ∀ q, q ≠ pid → w'.io q = w.io q ∧ w'.result q = w.result q
  ends : (∃ io, w'.io pid = some io ∧ w'.result pid = w.result pid ∧
    (io.idle → idle ∧ Unmoved w w')) ∨
    w'.io pid = none ∧ ∃ r, w'.result pid = some r ∧
      (r.value = -ERESTARTSYS → r.bytes = [] ∧ idle ∧ Unmoved w w')

def Meanwhile (w w' : World) : Prop := w'.io = w.io ∧ w'.result = w.result

variable {v r : ℤ} {bytes : List UInt8} {next : WriteCall → World → World}
  {pid : ℤ} {idle idle' : Prop} {w w₁ w' : World}

section

variable (hw : Meanwhile w w₁)
include hw

theorem Outcome.finish
    (h : v = -ERESTARTSYS → bytes = [] ∧ idle ∧ Unmoved w w₁) :
    Outcome pid idle w (w₁.finish pid v bytes) where
  others q hq := by
    simp only [World.finish, setPid_ne _ _ hq]
    exact ⟨congrFun hw.1 q, congrFun hw.2 q⟩
  ends := .inr ⟨setPid_same _ _ _, _, setPid_same _ _ _, h⟩

theorem Outcome.finish_ne (h : v ≠ -ERESTARTSYS) :
    Outcome pid idle w (w₁.finish pid v bytes) :=
  .finish hw fun he => absurd he h

theorem Meanwhile.sleep (io : Io) (h : io.idle → idle ∧ Unmoved w w₁) :
    Outcome pid idle w (w₁.setIo pid io) where
  others q hq := by
    simp only [World.setIo, setPid_ne _ _ hq]
    exact ⟨congrFun hw.1 q, congrFun hw.2 q⟩
  ends := .inl ⟨io, setPid_same _ _ _, congrFun hw.2 pid, h⟩

theorem Outcome.of_busy (hbusy : ¬ idle') (h : Outcome pid idle' w₁ w') :
    Outcome pid idle w w' where
  others q hq := by
    obtain ⟨h1, h2⟩ := h.others q hq
    exact ⟨h1.trans (congrFun hw.1 q), h2.trans (congrFun hw.2 q)⟩
  ends := by
    rcases h.ends with ⟨io, h1, h2, h3⟩ | ⟨h1, r, h2, h3⟩
    · exact .inl ⟨io, h1, h2.trans (congrFun hw.2 pid), fun hi => absurd (h3 hi).1 hbusy⟩
    · exact .inr ⟨h1, r, h2, fun hv => absurd (h3 hv).2.1 hbusy⟩

end

theorem Outcome.imp (h : Outcome pid idle' w w') (hi : idle' → idle) : Outcome pid idle w w' where
  others := h.others
  ends := by
    rcases h.ends with ⟨io, h1, h2, h3⟩ | ⟨h1, r, h2, h3⟩
    · exact .inl ⟨io, h1, h2, fun h => ⟨hi (h3 h).1, (h3 h).2⟩⟩
    · exact .inr ⟨h1, r, h2, fun h => ⟨(h3 h).1, hi (h3 h).2.1, (h3 h).2.2⟩⟩

theorem Meanwhile.refl (w : World) : Meanwhile w w := ⟨rfl, rfl⟩

theorem Unmoved.refl (w : World) : Unmoved w w := ⟨rfl, rfl⟩

/-! ### Reads -/

theorem length_ne_restart (n : ℕ) : (n : ℤ) ≠ -ERESTARTSYS := by
  unfold ERESTARTSYS
  omega

theorem ReadCall.failed_ne (c : ReadCall) (h : r ≠ -ERESTARTSYS) : c.failed r ≠ -ERESTARTSYS := by
  unfold ReadCall.failed
  split
  · exact length_ne_restart _
  · exact h

theorem afterRead_outcome {next : ReadCall → World → World}
    (hnext : ∀ c w, Outcome pid (c.got = []) w (next c w)) (c : ReadCall) (i n : ℕ) (w : World) :
    Outcome pid (c.got = []) w (afterRead next pid c i n (pipeRead pid i n w)) := by
  unfold pipeRead
  split
  · have hw : Meanwhile w (w.sleepOn pid i) := ⟨rfl, rfl⟩
    exact hw.sleep (.read c i n) fun h => ⟨h, rfl, rfl⟩
  rcases takeLoop n (w.ring i) with ⟨bs, r⟩
  have hw : Meanwhile w ((w.take i bs r).wakeup i) := ⟨rfl, rfl⟩
  dsimp only [afterRead]
  split
  · exact .finish_ne hw (length_ne_restart _)
  next hbs =>
  split
  · split
    · exact .finish_ne hw (length_ne_restart _)
    · refine .of_busy hw ?_ (hnext _ _)
      exact fun h => hbs (List.append_eq_nil_iff.mp h).2
  · exact .finish_ne hw (c.failed_ne (by decide))

theorem readLoop_outcome (fuel : ℕ) (c : ReadCall) (w : World) :
    Outcome pid (c.got = []) w (readLoop pid fuel c w) := by
  induction fuel generalizing c w with
  | zero => exact .finish_ne (.refl w) (length_ne_restart _)
  | succ fuel ih =>
    unfold readLoop
    split
    · exact .finish_ne (.refl w) (length_ne_restart _)
    dsimp only
    split
    · exact .finish_ne (.refl w) (c.failed_ne (by decide))
    split
    · exact .finish_ne (.refl w) (c.failed_ne (by decide))
    · exact afterRead_outcome ih c _ _ w

theorem resumeRead_outcome (c : ReadCall) (i n : ℕ) (actionable : Bool) (w : World) :
    Outcome pid (c.got = []) w (resumeRead pid c i n actionable w) := by
  unfold resumeRead
  split
  · refine .finish (.refl w) fun h => ?_
    have hgot : c.got = [] := by
      unfold ReadCall.failed at h
      split at h
      · exact absurd h (length_ne_restart _)
      · next hlen => exact List.length_eq_zero_iff.mp (by omega)
    exact ⟨hgot, hgot, .refl w⟩
  · exact afterRead_outcome (fun c w => readLoop_outcome _ c w) c i n w

/-! ### Writes -/

theorem WriteCall.failed_ne (c : WriteCall) (h : r ≠ -ERESTARTSYS) : c.failed r ≠ -ERESTARTSYS := by
  unfold WriteCall.failed
  split
  · exact length_ne_restart _
  · exact h

theorem storeLoop_le {readopen : Bool} {b : ℕ → UInt8} {m i i' : ℕ} {r r' : Ring UInt8 32}
    {e : StoreEnd}
    (h : storeLoop readopen b m i r = (i', r', e)) : i ≤ i' := by
  induction m generalizing i r with
  | zero =>
    cases h
    exact le_rfl
  | succ m ih =>
    unfold storeLoop at h
    split at h
    · cases h
      exact le_rfl
    split at h
    · exact Nat.le_of_succ_le (ih h)
    · cases h
      exact le_rfl

theorem store_unmoved (w : World) (j : ℕ) (t : Tag) (b : ℕ → UInt8) (r : Ring UInt8 32) :
    Unmoved w (w.store j (tagged t b 0 0) r) := by
  refine ⟨?_, rfl⟩
  funext x
  simp only [World.store, tagged]
  by_cases hx : x = j
  · rw [hx, setAt_same]
    exact List.append_nil _
  · exact setAt_ne _ _ hx

theorem afterWrite_outcome
    (hnext : ∀ c w, Outcome pid (c.done = 0) w (next c w)) (c : WriteCall) (j n : ℕ)
    {w₁ : World} {idle : Prop} (hw : Meanwhile w w₁)
    (hv : v = -ERESTARTSYS → c.done = 0 → idle ∧ Unmoved w w₁) :
    Outcome pid idle w (afterWrite next pid c j n (.ok v, w₁)) := by
  dsimp only [afterWrite]
  split
  · by_cases hr : v = -ERESTARTSYS
    · refine .finish hw fun h => ⟨rfl, hv hr ?_⟩
      unfold WriteCall.failed at h
      split at h
      · exact absurd h (length_ne_restart _)
      · omega
    · exact .finish_ne hw (c.failed_ne hr)
  split
  · exact .finish_ne hw (length_ne_restart _)
  split
  · exact .finish_ne hw (length_ne_restart _)
  · refine .of_busy hw ?_ (hnext _ _)
    dsimp only
    omega

theorem pipeWrite_outcome
    (hnext : ∀ c w, Outcome pid (c.done = 0) w (next c w)) (c : WriteCall) (j n i : ℕ) (w : World) :
    Outcome pid (c.done = 0 ∧ i = 0) w (afterWrite next pid c j n
      (pipeWrite pid c.tag j (fun x => c.buf (c.done + x)) n i w)) := by
  unfold pipeWrite
  rcases hloop : storeLoop (w.k.pipes j).readopen (fun x => c.buf (c.done + x)) (n - i) i
    (w.ring j) with
    ⟨i', r, e⟩
  have hle := storeLoop_le hloop
  dsimp only
  cases e with
  | all => exact afterWrite_outcome hnext c j n ⟨rfl, rfl⟩ fun h => absurd h (length_ne_restart n)
  | full =>
    have hw : Meanwhile w
      (((w.store j (tagged c.tag (fun x => c.buf (c.done + x)) i i') r).wakeup j).sleepOn
      pid j) := ⟨rfl, rfl⟩
    refine hw.sleep (.write c j n i') fun h => ?_
    obtain ⟨hdone, rfl⟩ := h
    obtain rfl : i = 0 := Nat.le_zero.mp hle
    exact ⟨⟨hdone, rfl⟩, store_unmoved w j _ _ r⟩
  | broken => exact afterWrite_outcome hnext c j n ⟨rfl, rfl⟩ fun h => absurd h (by decide)

theorem writeLoop_outcome (fuel : ℕ) (c : WriteCall) (w : World) :
    Outcome pid (c.done = 0) w (writeLoop pid fuel c w) := by
  induction fuel generalizing c w with
  | zero => exact .finish_ne (.refl w) (length_ne_restart _)
  | succ fuel ih =>
    unfold writeLoop
    split
    · exact .finish_ne (.refl w) (length_ne_restart _)
    dsimp only
    split
    · exact .finish_ne (.refl w) (c.failed_ne (by decide))
    split
    · exact .finish_ne (.refl w) (c.failed_ne (by decide))
    split
    · exact .finish_ne (.refl w) (c.failed_ne (by decide))
    · exact (pipeWrite_outcome ih c _ _ 0 w).imp And.left

theorem resumeWrite_outcome (c : WriteCall) (j n i : ℕ) (actionable : Bool) (w : World) :
    Outcome pid (c.done = 0 ∧ i = 0) w (resumeWrite pid c j n i actionable w) := by
  unfold resumeWrite
  split
  · refine afterWrite_outcome (fun c w => writeLoop_outcome _ c w) c j n (.refl w) fun h hdone => ?_
    refine ⟨⟨hdone, ?_⟩, .refl w⟩
    split at h
    · exact absurd h (length_ne_restart _)
    · omega
  · exact pipeWrite_outcome (fun c w => writeLoop_outcome _ c w) c j n i w

theorem step_outcome {w w' : World} {l : Label} (hl : ∀ l', l ≠ .kern l') (hstep : Step w l w') :
    ∃ pid, w.k.current = some pid ∧ (w.io pid = none → w.result pid = none) ∧
      Outcome pid (∀ io, w.io pid = some io → io.idle) w w' := by
  have hbegin : ∀ {pid : ℤ} {idle : Prop}, w.io pid = none → idle →
      ∀ io, w.io pid = some io → io.idle :=
    fun hio _ io he => absurd (hio.symm.trans he) nofun
  have hawake : ∀ {pid : ℤ} {idle : Prop}, Outcome pid idle (w.awake pid) w' →
      Outcome pid idle w w' :=
    fun h => ⟨h.others, h.ends⟩
  cases hstep with
  | kern _ _ => exact absurd rfl (hl _)
  | @read pid fd len copyout hcall _ =>
    obtain ⟨-, hcur, hio, hresult⟩ := hcall
    exact ⟨pid, hcur, fun _ => hresult, (readLoop_outcome _ _ w).imp (hbegin hio)⟩
  | @write pid fd len buf copyin hcall _ =>
    obtain ⟨-, hcur, hio, hresult⟩ := hcall
    have hout : Outcome pid _ { w with calls := w.calls + 1 } _ :=
      (writeLoop_outcome len ⟨fd, len, buf, copyin, 0, w.calls⟩ _).imp (hbegin hio)
    exact ⟨pid, hcur, fun _ => hresult, hout.others, hout.ends⟩
  | @resumeRead p c i n _ hp hio =>
    refine ⟨p.pid, (currentProc_mem hp).2, fun h => absurd (h.symm.trans hio) nofun, ?_⟩
    refine hawake ((resumeRead_outcome c i n _ _).imp fun h io he => ?_)
    cases hio.symm.trans he
    exact h
  | @resumeWrite p c j n i _ hp hio =>
    refine ⟨p.pid, (currentProc_mem hp).2, fun h => absurd (h.symm.trans hio) nofun, ?_⟩
    refine hawake ((resumeWrite_outcome c j n i _ _).imp fun h io he => ?_)
    cases hio.symm.trans he
    exact h

end Sbunix.Pipe
