import Sbunix.Proc.Pcb

/-!
# Sending signals

The first half of `signal.c`: `send_signal` and the loops over the process
table that call it. Nothing here runs in the target: a signal is only made
pending, and a target that sleeps or is stopped may become ready.
-/

namespace Sbunix.Proc

open List BitVec

def SIGHUP : ℕ := 1
def SIGKILL : ℕ := 9
def SIGSEGV : ℕ := 11
def SIGALRM : ℕ := 14
def SIGCHLD : ℕ := 17
def SIGCONT : ℕ := 18
def SIGSTOP : ℕ := 19
def SIGTSTP : ℕ := 20
def SIGTTIN : ℕ := 21
def SIGTTOU : ℕ := 22

def SIG_DFL : BitVec 64 := 0
def SIG_IGN : BitVec 64 := 1

/-- `1ULL << sig` -/
def sigBit (sig : ℕ) : BitVec 64 := 1#64 <<< sig

variable {sig : ℕ} {g : Pcb → Pcb} {sigs : List ℕ}

@[simp] theorem sigBit_getLsbD {i : ℕ} (h : i < 64) :
    (sigBit sig).getLsbD i = decide (i = sig) := by
  by_cases he : i = sig
  · subst he
    simp [sigBit, h]
  · simp only [sigBit, getLsbD_shiftLeft, h, getLsbD_one, he]
    simp only [decide_true, Bool.true_and, decide_false, Bool.and_eq_false_iff]
    by_cases hlt : i < sig
    · simp [hlt]
    · right
      simp
      omega

theorem dropBit_getLsbD (m : BitVec 64) (i : ℕ) {j : ℕ} (hj : j < 64) :
    (m &&& ~~~sigBit i).getLsbD j = (m.getLsbD j && !decide (j = i)) := by
  rw [getLsbD_and, getLsbD_not, sigBit_getLsbD hj]
  simp only [hj, decide_true, Bool.true_and]

/-- `ACT_TERM` … `ACT_CONT`; a core dump is a termination. -/
inductive Action
  | term | ign | core | stop | cont
  deriving DecidableEq, Repr

/-- The table `default_action`; the numbers it does not list are `ACT_TERM`. -/
def defaultAction (sig : ℕ) : Action :=
  if sig ∈ [3, 4, 5, 6, 7, 8, 11] then .core
  else if sig = SIGCHLD then .ign
  else if sig = SIGCONT then .cont
  else if sig ∈ [SIGSTOP, SIGTSTP, SIGTTIN, SIGTTOU] then .stop
  else .term

def stopSignals : List ℕ := [SIGTSTP, SIGTTIN, SIGTTOU, SIGSTOP]

namespace Pcb

/-- `sig_has_pending` -/
def hasPending (p : Pcb) : Bool := p.sigPending &&& ~~~p.sigBlocked ≠ 0

def raise (sig : ℕ) (p : Pcb) : Pcb := { p with sigPending := p.sigPending ||| sigBit sig }

def drop (sig : ℕ) (p : Pcb) : Pcb := { p with sigPending := p.sigPending &&& ~~~sigBit sig }

def setHandler (p : Pcb) (sig : ℕ) (a : SigAction) : Pcb :=
  { p with sigHandlers := fun i => if i = sig then a else p.sigHandlers i }

/-- What `send_signal` does first for `SIGKILL` and `SIGSTOP`. -/
def forceDefault (sig : ℕ) (p : Pcb) : Pcb :=
  { p with sigBlocked := p.sigBlocked &&& ~~~sigBit sig }.setHandler sig
    { p.sigHandlers sig with handler := SIG_DFL }

def dropStops (p : Pcb) : Pcb :=
  { p with sigPending := p.sigPending &&&
      ~~~(sigBit SIGSTOP ||| sigBit SIGTSTP ||| sigBit SIGTTIN ||| sigBit SIGTTOU) }

def makeReady (p : Pcb) : Pcb := { p with state := .ready, wakeTick := 0 }

/-- A stopped process killed by `SIGKILL` runs once more. -/
def wakeStopped (p : Pcb) : Pcb := if p.state = .stopped then p.makeReady else p

/-- A stopped process continued by `SIGCONT`. -/
def continued (p : Pcb) : Pcb :=
  if p.state = .stopped then { p.makeReady with continuedPending := true } else p

def wakeDeliverable (p : Pcb) : Pcb :=
  if p.state = .sleeping ∧ p.hasPending then p.makeReady else p

end Pcb

/-- `send_signal_by_pid(pid, SIGCHLD)`: for `SIGCHLD` none of the special cases
of `send_signal` applies. -/
def sendChld (k : Kernel) (pid : ℤ) : Kernel :=
  k.modify pid fun p => if p.isUser then (p.raise SIGCHLD).wakeDeliverable else p

/-- The `SIGCONT` case: pending stops are dropped and a stopped target goes on. -/
def sendCont (k : Kernel) (t : Pcb) : Kernel :=
  let k := k.modify t.pid Pcb.dropStops
  if t.state = .stopped then
    procWakeup (sendChld (k.modify t.pid Pcb.continued) t.parentPid) t.parentPid
  else k

/-- The end of `send_signal`: the signal becomes pending, and a target that is
stopped (for `SIGKILL`) or sleeps becomes ready. -/
def sendPost (k : Kernel) (t : Pcb) (sig : ℕ) : Kernel :=
  let k := k.modify t.pid (Pcb.raise sig)
  let k :=
    if sig = SIGKILL ∧ t.state = .stopped then
      sendChld (k.modify t.pid Pcb.wakeStopped) t.parentPid
    else k
  k.modify t.pid Pcb.wakeDeliverable

/-- `send_signal` to the process `t` of the table. -/
def sendSignalTo (k : Kernel) (t : Pcb) (sig : ℕ) : Kernel :=
  if t.isUser = false ∨ sig = 0 ∨ NSIG ≤ sig then k
  else
    let k := if sig = SIGKILL ∨ sig = SIGSTOP then k.modify t.pid (Pcb.forceDefault sig) else k
    let k := if sig = SIGCONT then sendCont k t else k
    let h := (t.sigHandlers SIGCONT).handler
    if sig = SIGCONT ∧ (h = SIG_DFL ∨ h = SIG_IGN) then k
    else if sig ∈ stopSignals ∧ t.state = .stopped then k
    else sendPost k t sig

/-- `send_signal_by_pid` -/
def sendSignal (k : Kernel) (pid : ℤ) (sig : ℕ) : Kernel :=
  match k.find pid with
  | none => k
  | some t => sendSignalTo k t sig

/-- A loop over the table that sends `sigs` to every process that `want` selects,
as the process is when the loop comes to it. -/
def sendEach (want : Pcb → Bool) (sigs : List ℕ) (k : Kernel) : Kernel :=
  (k.procs.map Pcb.pid).foldl
    (fun k pid => if (k.find pid).any want then sigs.foldl (sendSignal · pid ·) k else k) k

def sendSignalPgrp (k : Kernel) (pgid : ℤ) (sig : ℕ) : Kernel :=
  sendEach (fun p => p.state ≠ .unused ∧ p.pgid = pgid) [sig] k

/-! ### What sending can do to a process -/

/-- What one process can look like after signals from `S` were sent to it and
wakeups reached it. -/
structure Sent (S : ℕ → Prop) (p q : Pcb) : Prop where
  frame : q = { p with
    state := q.state, wakeTick := q.wakeTick, continuedPending := q.continuedPending
    sigPending := q.sigPending, sigBlocked := q.sigBlocked, sigHandlers := q.sigHandlers }
  state : q.state = p.state ∨ q.state = .ready ∧ (p.state = .sleeping ∨ p.state = .stopped)
  blocked : ∀ i, q.sigBlocked.getLsbD i = true → p.sigBlocked.getLsbD i = true
  kept : ∀ i, p.sigBlocked.getLsbD i = true →
    q.sigBlocked.getLsbD i = true ∨ i = SIGKILL ∨ i = SIGSTOP
  handler : ∀ i, q.sigHandlers i = p.sigHandlers i ∨
    (i = SIGKILL ∨ i = SIGSTOP) ∧ (q.sigHandlers i).handler = SIG_DFL
  raised : ∀ i, q.sigPending.getLsbD i = true → p.sigPending.getLsbD i = true ∨ S i
  deadline : q.state = .sleeping → q.wakeTick = p.wakeTick

namespace Sent

variable {S : ℕ → Prop} {p q r : Pcb}

theorem refl (p : Pcb) : Sent S p p :=
  ⟨rfl, .inl rfl, fun _ h => h, fun _ h => .inl h, fun _ => .inl rfl, fun _ h => .inl h,
    fun _ => rfl⟩

theorem trans (h : Sent S p q) (h' : Sent S q r) : Sent S p r where
  frame := by
    rw [h'.frame, h.frame]
  state := by
    rcases h'.state with e | ⟨e, e'⟩
    · rcases h.state with f | ⟨f, f'⟩
      · exact .inl (e.trans f)
      · exact .inr ⟨e.trans f, f'⟩
    · rcases h.state with f | ⟨f, f'⟩
      · exact .inr ⟨e, f ▸ e'⟩
      · exact .inr ⟨e, f'⟩
  blocked i hi := h.blocked i (h'.blocked i hi)
  kept i hi := by
    rcases h.kept i hi with e | e
    · exact h'.kept i e
    · exact .inr e
  handler i := by
    rcases h'.handler i with e | e
    · rw [e]
      exact h.handler i
    · exact .inr e
  raised i hi := by
    rcases h'.raised i hi with e | e
    · exact h.raised i e
    · exact .inr e
  deadline hr := by
    have hq : q.state = .sleeping := by
      rcases h'.state with e | ⟨e, -⟩
      · exact e.symm.trans hr
      · cases e.symm.trans hr
    exact (h'.deadline hr).trans (h.deadline hq)

theorem pending {m : BitVec 64}
    (hm : ∀ i, m.getLsbD i = true → p.sigPending.getLsbD i = true ∨ S i) :
    Sent S p { p with sigPending := m } :=
  ⟨rfl, .inl rfl, fun _ h => h, fun _ h => .inl h, fun _ => .inl rfl, hm, fun _ => rfl⟩

theorem raise (hsig : S sig) : Sent S p (p.raise sig) := by
  apply pending
  intro i hi
  have hlt : i < 64 := lt_of_getLsbD hi
  simp only [getLsbD_or, sigBit_getLsbD hlt, Bool.or_eq_true, decide_eq_true_eq] at hi
  rcases hi with hi | rfl
  · exact .inl hi
  · exact .inr hsig

theorem dropStops : Sent S p p.dropStops := by
  apply pending
  intro i hi
  simp only [getLsbD_and, Bool.and_eq_true] at hi
  exact .inl hi.1

theorem forceDefault (h : sig = SIGKILL ∨ sig = SIGSTOP) : Sent S p (p.forceDefault sig) where
  frame := rfl
  state := .inl rfl
  blocked i hi := by
    simp only [Pcb.forceDefault, Pcb.setHandler, getLsbD_and, Bool.and_eq_true] at hi
    exact hi.1
  kept i hi := by
    by_cases he : i = sig
    · exact .inr (he ▸ h)
    · have hlt : i < 64 := lt_of_getLsbD hi
      left
      simp only [Pcb.forceDefault, Pcb.setHandler]
      rw [dropBit_getLsbD _ _ hlt, hi]
      simp [he]
  handler i := by
    by_cases hi : i = sig
    · exact .inr ⟨hi ▸ h, by simp [Pcb.forceDefault, Pcb.setHandler, hi]⟩
    · exact .inl (by simp [Pcb.forceDefault, Pcb.setHandler, hi])
  raised _ hi := .inl hi
  deadline _ := rfl

theorem toReady (w : ℕ) (c : Bool) (h : p.state = .sleeping ∨ p.state = .stopped) :
    Sent S p { p with state := .ready, wakeTick := w, continuedPending := c } :=
  ⟨rfl, .inr ⟨rfl, h⟩, fun _ h => h, fun _ h => .inl h, fun _ => .inl rfl, fun _ h => .inl h,
    nofun⟩

theorem wakeStopped : Sent S p p.wakeStopped := by
  unfold Pcb.wakeStopped
  split
  · next h => exact toReady _ _ (.inr h)
  · exact refl p

theorem continued : Sent S p p.continued := by
  unfold Pcb.continued
  split
  · next h => exact toReady _ _ (.inr h)
  · exact refl p

theorem wakeDeliverable : Sent S p p.wakeDeliverable := by
  unfold Pcb.wakeDeliverable
  split
  · next h => exact toReady _ _ (.inl h.1)
  · exact refl p

end Sent

/-- What sending signals from `S` can do to the kernel: every process stays in
its place of the table, changed as `Sent` says. -/
structure Sends (S : ℕ → Prop) (k k' : Kernel) : Prop where
  frame : k' = { k with procs := k'.procs }
  procs : List.Forall₂ (Sent S) k.procs k'.procs

namespace Sends

variable {S : ℕ → Prop} {k k' k'' : Kernel}

theorem refl (k : Kernel) : Sends S k k :=
  ⟨rfl, forall₂_same.mpr fun p _ => Sent.refl p⟩

theorem trans (h : Sends S k k') (h' : Sends S k' k'') : Sends S k k'' where
  frame := by
    rw [h'.frame, h.frame]
  procs := by
    have hc : ∀ {l l' l'' : List Pcb}, List.Forall₂ (Sent S) l l' → List.Forall₂ (Sent S) l' l'' →
        List.Forall₂ (Sent S) l l'' := by
      intro l l' l'' h
      induction h generalizing l'' with
      | nil => exact id
      | cons hd _ ih =>
        intro h'
        cases h' with
        | cons hd' tl' => exact .cons (hd.trans hd') (ih tl')
    exact hc h.procs h'.procs

theorem modify {pid : ℤ} (hg : ∀ p, Sent S p (g p)) : Sends S k (k.modify pid g) where
  frame := rfl
  procs := by
    refine forall₂_map_right_iff.mpr (forall₂_same.mpr ?_)
    intro p _
    split
    · exact hg p
    · exact Sent.refl p

theorem modifyAll (hg : ∀ p, Sent S p (g p)) : Sends S k (k.modifyAll g) where
  frame := rfl
  procs := forall₂_map_right_iff.mpr (forall₂_same.mpr fun p _ => hg p)

theorem mem (h : Sends S k k') {q : Pcb} (hq : q ∈ k'.procs) : ∃ p ∈ k.procs, Sent S p q := by
  have hc : ∀ {l l' : List Pcb}, List.Forall₂ (Sent S) l l' → q ∈ l' → ∃ p ∈ l, Sent S p q := by
    intro l l' h
    induction h with
    | nil => simp
    | cons hd _ ih =>
      intro hq
      rcases mem_cons.mp hq with rfl | hq
      · exact ⟨_, mem_cons_self, hd⟩
      · obtain ⟨p, hp, hs⟩ := ih hq
        exact ⟨p, mem_cons_of_mem _ hp, hs⟩
  exact hc h.procs hq

end Sends

section

variable {S : ℕ → Prop} (k : Kernel)

theorem procWakeup_sends (pid : ℤ) : Sends S k (procWakeup k pid) := by
  apply Sends.modify
  intro p
  split
  · next h => exact Sent.toReady _ _ (.inl h)
  · exact Sent.refl p

theorem procWakeupChan_sends (chan : ℕ) : Sends S k (procWakeupChan k chan) := by
  apply Sends.modifyAll
  intro p
  split
  · next h => exact Sent.toReady _ _ (.inl h.1)
  · exact Sent.refl p

section

variable (hchld : S SIGCHLD)

include hchld

theorem sendChld_sends (pid : ℤ) : Sends S k (sendChld k pid) := by
  apply Sends.modify
  intro p
  split
  · exact (Sent.raise hchld).trans Sent.wakeDeliverable
  · exact Sent.refl p

theorem sendCont_sends (t : Pcb) : Sends S k (sendCont k t) := by
  have hdrop : Sends S k (k.modify t.pid Pcb.dropStops) := Sends.modify fun _ => Sent.dropStops
  unfold sendCont
  dsimp only
  split
  · refine ((hdrop.trans ?_).trans (sendChld_sends _ hchld _)).trans (procWakeup_sends _ _)
    exact Sends.modify fun _ => Sent.continued
  · exact hdrop

theorem sendPost_sends (t : Pcb) (hsig : S sig) : Sends S k (sendPost k t sig) := by
  have hraise : Sends S k (k.modify t.pid (Pcb.raise sig)) := Sends.modify fun _ => Sent.raise hsig
  unfold sendPost
  dsimp only
  refine Sends.trans ?_ (Sends.modify fun _ => Sent.wakeDeliverable)
  split
  · refine (hraise.trans ?_).trans (sendChld_sends _ hchld _)
    exact Sends.modify fun _ => Sent.wakeStopped
  · exact hraise

theorem sendSignalTo_sends (t : Pcb) (hsig : S sig) : Sends S k (sendSignalTo k t sig) := by
  unfold sendSignalTo
  split
  · exact Sends.refl k
  have hforce : Sends S k
      (if sig = SIGKILL ∨ sig = SIGSTOP then k.modify t.pid (Pcb.forceDefault sig) else k) := by
    split
    · next h => exact Sends.modify fun _ => Sent.forceDefault h
    · exact Sends.refl k
  generalize (if sig = SIGKILL ∨ sig = SIGSTOP then k.modify t.pid (Pcb.forceDefault sig) else k)
    = k₁ at hforce
  have hcont : Sends S k (if sig = SIGCONT then sendCont k₁ t else k₁) := by
    split
    · exact hforce.trans (sendCont_sends k₁ hchld t)
    · exact hforce
  dsimp only
  split_ifs at hcont ⊢
  all_goals first
    | exact hcont
    | exact hcont.trans (sendPost_sends _ hchld t hsig)

theorem sendSignal_sends (pid : ℤ) (hsig : S sig) : Sends S k (sendSignal k pid sig) := by
  unfold sendSignal
  split
  · exact Sends.refl k
  · exact sendSignalTo_sends k hchld _ hsig

theorem sendSignals_sends (pid : ℤ) (hsigs : ∀ s ∈ sigs, S s) :
    Sends S k (sigs.foldl (sendSignal · pid ·) k) := by
  induction sigs generalizing k with
  | nil => exact Sends.refl k
  | cons sig sigs ih =>
    refine (sendSignal_sends k hchld pid (hsigs sig mem_cons_self)).trans (ih _ ?_)
    exact fun s hs => hsigs s (mem_cons_of_mem _ hs)

theorem sendEach_sends (want : Pcb → Bool)
    (hsigs : ∀ s ∈ sigs, S s) : Sends S k (sendEach want sigs k) := by
  unfold sendEach
  -- the pids are read once, the processes as the loop goes
  generalize k.procs.map Pcb.pid = pids
  induction pids generalizing k with
  | nil => exact Sends.refl k
  | cons pid pids ih =>
    refine Sends.trans ?_ (ih _)
    dsimp only
    split
    · exact sendSignals_sends k hchld pid hsigs
    · exact Sends.refl k

end

end

end Sbunix.Proc
