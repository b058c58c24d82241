import Sbunix.Proc.Moves

/-!
# Sleeping for a given time

`nanosleep` and `sleep` put the caller to sleep until a tick count is reached. The timer
interrupt wakes it there, but a process asleep is also woken by whatever wakes its pid (an
exiting child, console input) and by a deliverable signal. While the call lasts the process
machine makes its steps in any order; the scheduler's switch to the caller continues the call.
-/
namespace Sbunix.Sleep

open Lib Proc

/-- Tick counts are `uint64_t`. -/
def U64 : ℕ := 2 ^ 64

def TICKS_PER_SEC : ℕ := 100

/-- A sleeping call. `rem` is `none` for a null pointer, otherwise whether it can be written. -/
inductive Request
  | nanosleep (sec nsec : ℤ) (rem : Option Bool)
  | sleep (ms : ℕ)
  deriving Repr, DecidableEq

/-- What the caller gets: the value, the time left as it is stored through `rem`, and whether
a signal with a handler was deliverable when the call went on for the last time. -/
structure Ended where
  value : ℤ
  left : Option (ℕ × ℕ)
  caught : Bool
  deriving Repr, DecidableEq

inductive Phase
  -- behind the switch of `proc_sleep`, with the deadline of the call
  | sleeping (wake : ℕ)
  -- behind the switch of `yield`
  | yielding
  | returned (e : Ended)
  deriving Repr, DecidableEq

structure World where
  kernel : Kernel
  phase : Phase

/-- `ms_to_ticks`: rounded up. -/
def msToTicks (ms : ℕ) : ℕ := (ms * TICKS_PER_SEC + 999) % U64 / 1000

/-- `total_ticks` of `sys_nanosleep`. -/
def totalTicks (sec nsec : ℕ) : ℕ :=
  let total := (sec * TICKS_PER_SEC + nsec * TICKS_PER_SEC / 1000000000) % U64
  if total = 0 ∧ 0 < nsec then 1 else total

/-- The deadline a call computes at tick count `now`. -/
def Request.wake (now : ℕ) : Request → ℕ
  | .nanosleep sec nsec _ => (now + totalTicks sec.toNat nsec.toNat) % U64
  | .sleep ms =>
    let wake := (now + msToTicks ms) % U64
    if wake = 0 then 1 else wake

/-- A signal that the process handles is deliverable. -/
def caught (p : Pcb) : Bool :=
  (List.range NSIG).any fun i => 0 < i && deliverable p i &&
    (p.sigHandlers i).handler ≠ SIG_DFL && (p.sigHandlers i).handler ≠ SIG_IGN

/-- `copyout` of a time through `rem`, with the value returned if it succeeds. -/
def report (rem : Option Bool) (value : ℤ) (left : ℕ × ℕ) (caught : Bool) : Ended :=
  match rem with
  | none => ⟨value, none, caught⟩
  | some true => ⟨value, some left, caught⟩
  | some false => ⟨-EFAULT, none, caught⟩

def clearWake (k : Kernel) (pid : ℤ) : Kernel := k.modify pid fun p => { p with wakeTick := 0 }

/-- The loop test of `sys_nanosleep`: sleep until the deadline, or return. -/
def sleepUntil (wake : ℕ) (rem : Option Bool) (pid : ℤ) (k : Kernel) : World :=
  if k.ticks < wake then ⟨(call (.sleep wake none) k).2, .sleeping wake⟩
  else ⟨clearWake k pid, .returned (report rem 0 (0, 0) false)⟩

/-- The branch of `sys_nanosleep` for a signal to act on. -/
def interrupted (wake : ℕ) (rem : Option Bool) (pid : ℤ) (k : Kernel) : World :=
  let left := if wake ≤ k.ticks then 0 else wake - k.ticks
  ⟨clearWake k pid, .returned (report rem (-EINTR)
    (left / TICKS_PER_SEC, left % TICKS_PER_SEC * (1000000000 / TICKS_PER_SEC))
    ((k.find pid).any caught))⟩

def Request.Valid : Request → Prop
  | .nanosleep sec nsec _ => 0 ≤ sec ∧ 0 ≤ nsec ∧ nsec < 1000000000
  | .sleep _ => True

instance (r : Request) : Decidable r.Valid := by
  unfold Request.Valid
  cases r <;> infer_instance

/-- From the call by the current process `pid` to its first switch. -/
def Request.enter (r : Request) (pid : ℤ) (k : Kernel) : World :=
  match r with
  | .nanosleep _ _ rem =>
    if r.Valid then sleepUntil (r.wake k.ticks) rem pid k
    else ⟨k, .returned ⟨-EINVAL, none, false⟩⟩
  | .sleep ms =>
    if ms = 0 then ⟨(call .yield k).2, .yielding⟩
    else ⟨(call (.sleep (r.wake k.ticks) none) k).2, .sleeping (r.wake k.ticks)⟩

/-- The process runs again after `proc_sleep`. Only `nanosleep` looks at the clock. -/
def Request.resume (pid : ℤ) (wake : ℕ) (k : Kernel) : Request → World
  | .nanosleep _ _ rem =>
    if (k.find pid).any sigHasActionable then interrupted wake rem pid k
    else sleepUntil wake rem pid k
  | .sleep _ => ⟨clearWake k pid, .returned ⟨0, none, (k.find pid).any caught⟩⟩

/-- What happens while the call lasts: a step in which the caller has no part, or the
scheduler's switch to it. -/
inductive Event
  | other (l : Label)
  | resume

instance (k : Kernel) (pid : ℤ) : (l : Label) → Decidable (actor k l pid)
  | .call _ | .enter _ | .ret _ _ => inferInstanceAs (Decidable (k.current = some pid))
  | .dispatch pid' => inferInstanceAs (Decidable (pid = pid'))
  | .reapOrphan | .tick _ | .tty _ | .wake _ | .wakeChan _ => .isFalse id

def Request.exec (r : Request) (pid : ℤ) (w : World) : Event → Option World
  | .other l =>
    if actor w.kernel l pid then none
    else
      match w.phase with
      | .returned _ => none
      | phase => (runLabels [l] w.kernel).map fun k => ⟨k, phase⟩
  | .resume =>
    match w.phase with
    | .sleeping wake => (runLabels [.dispatch pid] w.kernel).map fun k => r.resume pid wake k
    | .yielding =>
      (runLabels [.dispatch pid] w.kernel).map fun k =>
        ⟨k, .returned ⟨0, none, (k.find pid).any caught⟩⟩
    | .returned _ => none

/-! ## What a call promises, and when -/

/-- The requested time in ticks of 10 ms, rounded up. -/
def Request.required : Request → ℕ
  | .nanosleep sec nsec _ => (sec.toNat * 1000000000 + nsec.toNat + 9999999) / 10000000
  | .sleep ms => (ms + 9) / 10

/-- The times at which the deadline is not too early: it does not wrap, and the nanoseconds of
a `nanosleep` are whole ticks, or are all there is and less than one. -/
def Request.Exact (now : ℕ) (r : Request) : Prop :=
  now + r.required < U64 ∧
    match r with
    | .nanosleep sec nsec _ => nsec % 10000000 = 0 ∨ sec = 0 ∧ nsec < 10000000
    | .sleep ms => ms * TICKS_PER_SEC + 999 < U64

instance (now : ℕ) (r : Request) : Decidable (r.Exact now) := by
  unfold Request.Exact
  cases r <;> infer_instance

def Asleep (pid : ℤ) (k : Kernel) : Prop := ∀ p ∈ k.procs, p.pid = pid → p.state = .sleeping

instance (pid : ℤ) (k : Kernel) : Decidable (Asleep pid k) :=
  inferInstanceAs (Decidable (∀ _ ∈ _, _))

/-- The events that do not cut a call short. A `nanosleep` does not go on with a signal to act
on but none that is caught; a `sleep` is woken by its deadline alone. -/
def Request.Calm (pid : ℤ) (w : World) : Request → Event → Prop
  | .nanosleep _ _ _, .other _ => True
  | .nanosleep _ _ _, .resume =>
    let k := (act (.dispatch pid) w.kernel).2
    (k.find pid).any sigHasActionable = true → (k.find pid).any caught = true
  | .sleep _, .other (.tick _) =>
    ∀ p ∈ w.kernel.procs, p.pid = pid → p.alarmTick = 0 ∨ w.kernel.ticks + 1 < p.alarmTick
  | .sleep _, .other l => Asleep pid w.kernel → Asleep pid (act l w.kernel).2
  | .sleep _, .resume => True

instance (r : Request) (pid : ℤ) (w : World) (e : Event) : Decidable (r.Calm pid w e) := by
  rcases r with ⟨_, _, _⟩ | _ <;> rcases e with ⟨l⟩ | _
  · exact .isTrue trivial
  · exact inferInstanceAs (Decidable (_ → _))
  · cases l with
    | tick => exact inferInstanceAs (Decidable (∀ _ ∈ _, _))
    | _ => exact inferInstanceAs (Decidable (_ → _))
  · exact .isTrue trivial

/-! ## Deadlines -/

theorem totalTicks_eq {sec nsec : ℕ} (h : nsec % 10000000 = 0 ∨ sec = 0 ∧ nsec < 10000000)
    (hfits : (sec * 1000000000 + nsec + 9999999) / 10000000 < U64) :
    totalTicks sec nsec = (sec * 1000000000 + nsec + 9999999) / 10000000 := by
  have hsum : sec * TICKS_PER_SEC + nsec * TICKS_PER_SEC / 1000000000 < U64 := by
    simp only [TICKS_PER_SEC]
    omega
  unfold totalTicks
  rw [Nat.mod_eq_of_lt hsum]
  dsimp only
  split <;> simp only [TICKS_PER_SEC] at * <;> omega

theorem msToTicks_eq {ms : ℕ} (hfits : ms * TICKS_PER_SEC + 999 < U64) :
    msToTicks ms = (ms + 9) / 10 := by
  unfold msToTicks
  rw [Nat.mod_eq_of_lt hfits]
  simp only [TICKS_PER_SEC]
  omega

theorem Request.Exact.wake {now : ℕ} {r : Request} (hr : r.Valid) (h : r.Exact now) :
    now + r.required ≤ r.wake now := by
  obtain ⟨hfits, h⟩ := h
  cases r with
  | nanosleep sec nsec rem =>
    obtain ⟨hsec, hnsec, -⟩ := hr
    have hwhole : nsec.toNat % 10000000 = 0 ∨ sec.toNat = 0 ∧ nsec.toNat < 10000000 := by omega
    have htotal := totalTicks_eq hwhole (lt_of_le_of_lt (Nat.le_add_left _ now) hfits)
    simp only [Request.wake, htotal]
    exact (Nat.mod_eq_of_lt hfits).ge
  | sleep ms =>
    simp only [Request.wake, msToTicks_eq h]
    rw [show (ms + 9) / 10 = required (.sleep ms) from rfl, Nat.mod_eq_of_lt hfits]
    split <;> omega

/-! ## The clock and the deadline along the moves -/

variable {W : Powers} {k k' : Kernel} {pid : ℤ} {wake : ℕ} {p q : Pcb} {g : Pcb → Pcb}

theorem move_ticks (h : Move W k k') : k.ticks ≤ k'.ticks := by
  cases h with
  | atom h =>
    cases h with
    | globals _ _ _ _ h => exact h
    | send pid sig _ =>
      rw [(sendSignal_sends (S := fun _ => True) k trivial pid trivial).frame]
    | _ => exact le_rfl
  | _ => exact le_rfl

theorem moves_ticks (h : Moves W k k') : k.ticks ≤ k'.ticks :=
  h.invariant (I := fun k₁ => k.ticks ≤ k₁.ticks) le_rfl fun _ _ h hm => h.trans (move_ticks hm)

/-- Whenever the process `pid` sleeps, it is until `wake`. -/
def Due (pid : ℤ) (wake : ℕ) (p : Pcb) : Prop :=
  p.pid = pid → p.state = .sleeping → p.wakeTick = wake

/-- A store that neither puts a process to sleep nor moves a deadline. -/
structure Leaves (p q : Pcb) : Prop where
  pid : q.pid = p.pid
  asleep : q.state = .sleeping → p.state = .sleeping ∧ q.wakeTick = p.wakeTick

theorem Leaves.due (h : Leaves p q) (hp : Due pid wake p) : Due pid wake q := by
  intro hpid hs
  obtain ⟨hsleep, hwake⟩ := h.asleep hs
  exact hwake.trans (hp (h.pid.symm.trans hpid) hsleep)

theorem Leaves.of_sent {S : ℕ → Prop} (h : Sent S p q) : Leaves p q := by
  refine ⟨h.pid, fun hs => ⟨?_, h.deadline hs⟩⟩
  rcases h.state with e | ⟨e, -⟩
  · exact e.symm.trans hs
  · cases e.symm.trans hs

theorem Leaves.of_roused (h : Roused p q) : Leaves p q := by
  rcases h with rfl | ⟨-, e⟩
  · exact ⟨rfl, fun hs => ⟨hs, rfl⟩⟩
  · rw [e]
    exact ⟨rfl, nofun⟩

theorem due_sends {S : ℕ → Prop} (hk : k.All (Due pid wake)) (h : Sends S k k') :
    k'.All (Due pid wake) := by
  intro q hq
  obtain ⟨p, hp, hs⟩ := h.mem hq
  exact (Leaves.of_sent hs).due (hk p hp)

theorem due_modify (hk : k.All (Due pid wake)) (pid' : ℤ) (hg : ∀ p, Leaves p (g p)) :
    (k.modify pid' g).All (Due pid wake) :=
  hk.modify fun p _ _ h => (hg p).due h

/-- The stores of another process to itself. -/
theorem due_actor (hactor : ¬ W.actor pid) (hk : k.All (Due pid wake)) {pid' : ℤ}
    (h : W.actor pid') (hg : ∀ p, (g p).pid = p.pid) : (k.modify pid' g).All (Due pid wake) := by
  refine hk.modify fun p _ hp _ hpid => ?_
  rw [hg p, hp] at hpid
  exact absurd (hpid ▸ h) hactor

theorem atom_due (hactor : ¬ W.actor pid) (hk : k.All (Due pid wake)) (h : Atom W k k') :
    k'.All (Due pid wake) := by
  cases h with
  | globals hprocs _ _ _ _ =>
    unfold Kernel.All
    rwa [hprocs]
  | pipeClose i w =>
    exact due_sends (S := NotKill) (k := k.setPipe i _) hk (procWakeupChan_sends _ i)
  | pipeOpen i _ _ => exact hk
  | rouse g hg => exact hk.modifyAll fun p _ h => (Leaves.of_roused (hg p)).due h
  | family g hg =>
    refine hk.modifyAll fun p _ h => Leaves.due ?_ h
    rw [hg p]
    exact ⟨rfl, fun hs => ⟨hs, rfl⟩⟩
  | own pid' g h hg => exact due_actor hactor hk h fun p => by rw [(hg p).frame]
  | suspend pid' mask _ h | stop pid' sig _ h | yield pid' h | die pid' h =>
    exact due_actor hactor hk h fun p => rfl
  | chld pid' => exact due_sends (S := NotKill) hk (sendChld_sends k (by decide) pid')
  | send pid' sig _ =>
    exact due_sends (S := fun _ => True) hk (sendSignal_sends k trivial pid' trivial)
  | sleep pid' g h hg => exact due_actor hactor hk h fun p => by rw [hg p]
  | stopSeen pid' | continueSeen pid' =>
    exact due_modify hk pid' fun p => ⟨rfl, fun hs => ⟨hs, rfl⟩⟩
  | destroy pid' _ => exact fun p hp => hk p (List.mem_of_mem_filter hp)

theorem move_due (hactor : ¬ W.actor pid) (hk : k.All (Due pid wake)) (h : Move W k k') :
    k'.All (Due pid wake) := by
  cases h with
  | atom h => exact atom_due hactor hk h
  | job pid' g hg =>
    refine due_modify hk pid' fun p => ?_
    rw [hg p]
    exact ⟨rfl, fun hs => ⟨hs, rfl⟩⟩
  | fork parent pid' generation _ _ _ _ =>
    intro p hp
    rcases List.mem_append.mp hp with hp | hp
    · exact hk p hp
    · rw [List.mem_singleton.mp hp]
      exact fun _ => nofun
  | dispatch pid' h _ _ => exact due_actor hactor hk h fun p => rfl
  | release => exact hk

theorem moves_due (hactor : ¬ W.actor pid) (hk : k.All (Due pid wake)) (h : Moves W k k') :
    k'.All (Due pid wake) :=
  h.invariant hk fun _ _ => move_due hactor

/-! ## The timer -/

/-- At `n` ticks the timer has no business with the sleeper. -/
def Idle (pid : ℤ) (n : ℕ) (p : Pcb) : Prop :=
  p.pid = pid → p.state = .sleeping ∧ n < p.wakeTick ∧ (p.alarmTick = 0 ∨ n < p.alarmTick)

theorem idle_other {n : ℕ} (hk : k.All (Idle pid n)) {pid' : ℤ} (hne : pid' ≠ pid)
    (hg : ∀ p, (g p).pid = p.pid) : (k.modify pid' g).All (Idle pid n) := by
  refine hk.modify fun p _ hp _ hpid => ?_
  rw [hg p, hp] at hpid
  exact absurd hpid hne

theorem idle_alarm {n : ℕ} (hk : k.All (Idle pid n)) {pid' : ℤ} (hne : pid' ≠ pid) :
    (sendSignal k pid' SIGALRM).All (Idle pid n) := by
  unfold sendSignal
  split
  · exact hk
  · next t ht =>
    have hpid : t.pid ≠ pid := (Kernel.find_mem ht).2 ▸ hne
    unfold sendSignalTo
    split
    · exact hk
    · have hraise := idle_other (g := Pcb.raise SIGALRM) hk hpid fun _ => rfl
      refine idle_other hraise hpid fun p => ?_
      unfold Pcb.wakeDeliverable
      split <;> rfl

theorem timerScan_idle {n : ℕ} (hk : k.All (Idle pid n)) (hn : k.ticks = n) :
    (timerScan k).All (Idle pid n) := by
  unfold timerScan
  generalize k.procs.map Pcb.pid = pids
  induction pids generalizing k with
  | nil => exact hk
  | cons pid' pids ih =>
    rw [List.foldl_cons]
    dsimp only
    have hwake : (k.modify pid' fun p =>
        if p.state = .sleeping ∧ p.wakeTick ≠ 0 ∧ p.wakeTick ≤ k.ticks then p.makeReady
        else p).All (Idle pid n) := by
      refine hk.modify fun p _ _ hp hpid => ?_
      split at hpid
      · next hdue =>
        have := (hp hpid).2.1
        omega
      · next hdue =>
        rw [if_neg hdue]
        exact hp hpid
    generalize hk₁ : (k.modify pid' fun p =>
        if p.state = .sleeping ∧ p.wakeTick ≠ 0 ∧ p.wakeTick ≤ k.ticks then p.makeReady
        else p) = k₁ at hwake
    have hn₁ : k₁.ticks = n := hk₁ ▸ hn
    split
    · next hany =>
      obtain ⟨p, hp, halarm⟩ := (Option.any_eq_true _ _).mp hany
      obtain ⟨hmem, hpid⟩ := Kernel.find_mem hp
      have hne : pid' ≠ pid := by
        rintro rfl
        have := (hwake p hmem hpid).2.2
        simp only [decide_eq_true_eq] at halarm
        omega
      have hclear := idle_other (g := fun p => { p with alarmTick := 0 }) hwake hne fun _ => rfl
      refine ih (idle_alarm hclear hne) ?_
      rw [(sendSignal_sends (S := NotKill) _ (by decide) _ (by decide)).frame]
      exact hn₁
    · exact ih hwake hn₁

theorem tick_idle {fromUser : Bool} (hstep : Step k (.tick fromUser) k')
    (hk : k.All (Idle pid (k.ticks + 1))) : Asleep pid k' := by
  obtain ⟨k₁, hbill, rfl⟩ := timerHandler_run hstep.2
  have hidle : (timerScan k₁).All (Idle pid (k.ticks + 1)) := by
    rcases modifyCurrent_run hbill with rfl | ⟨cur, -, rfl⟩
    · exact timerScan_idle hk rfl
    · refine timerScan_idle (Kernel.All.modify (k := { k with ticks := k.ticks + 1 }) hk ?_) rfl
      intro p _ _ hp
      unfold Pcb.billed
      split_ifs <;> exact hp
  exact fun p hp hpid => (hidle p hp hpid).1

theorem tick_ticks {fromUser : Bool} (hstep : Step k (.tick fromUser) k') :
    k.ticks + 1 ≤ k'.ticks := by
  obtain ⟨k₁, hbill, rfl⟩ := timerHandler_run hstep.2
  have hscan : Does ⟨fun _ _ => True, fun _ => False, False, False, False, False⟩ k₁
      (timerScan k₁) := timerScan_does fun _ _ _ _ _ => trivial
  have hticks : k₁.ticks = k.ticks + 1 := by
    rcases modifyCurrent_run hbill with rfl | ⟨cur, -, rfl⟩ <;> rfl
  exact hticks ▸ moves_ticks hscan.moves

/-! ## Runs -/

/-- A `sleep` in progress: the deadline stands, and the process sleeps unless it has passed. -/
structure Held (pid : ℤ) (wake : ℕ) (k : Kernel) : Prop extends Sound k where
  deadline : k.All (Due pid wake)
  asleep : wake ≤ k.ticks ∨ Asleep pid k

theorem Held.other {l : Label} {ms : ℕ} {phase : Phase} (h : Held pid wake k)
    (hcalm : (Request.sleep ms).Calm pid ⟨k, phase⟩ (.other l)) (hactor : ¬ actor k l pid)
    (hstep : Step k l k') : Held pid wake k' := by
  have hmoves := hstep.moves h.toSound
  refine ⟨h.toSound.step hstep, moves_due hactor h.deadline hmoves, ?_⟩
  rcases h.asleep with hpast | hasleep
  · exact .inl (hpast.trans (moves_ticks hmoves))
  cases l with
  | tick fromUser =>
    by_cases hpast : wake ≤ k.ticks + 1
    · exact .inl (hpast.trans (tick_ticks hstep))
    · refine .inr (tick_idle hstep fun p hp hpid => ⟨hasleep p hp hpid, ?_, hcalm p hp hpid⟩)
      rw [h.deadline p hp hpid (hasleep p hp hpid)]
      omega
  | _ =>
    right
    have hkept := hcalm hasleep
    rwa [hstep.2] at hkept

/-- A `sleep` is switched to only behind its deadline. -/
theorem Held.resume (h : Held pid wake k) (hstep : Step k (.dispatch pid) k') :
    wake ≤ k'.ticks := by
  have hticks := moves_ticks (hstep.moves h.toSound)
  rcases h.asleep with hpast | hasleep
  · exact hpast.trans hticks
  · obtain ⟨-, p, hp, hready⟩ := hstep.1
    obtain ⟨hmem, hpid⟩ := Kernel.find_mem hp
    cases hready.symm.trans (hasleep p hmem hpid)

variable {r : Request} {w w' : World}

theorem exec_other {l : Label} (h : r.exec pid w (.other l) = some w') :
    ¬ actor w.kernel l pid ∧ Step w.kernel l w'.kernel ∧ w'.phase = w.phase ∧
      ∀ e, w.phase ≠ .returned e := by
  unfold Request.exec at h
  dsimp only at h
  split at h
  · cases h
  · next hactor =>
    split at h
    · cases h
    · next hphase =>
      obtain ⟨k₁, hrun, rfl⟩ := Option.map_eq_some_iff.mp h
      exact ⟨hactor, runLabels_single hrun, rfl, hphase⟩

/-- Where a call with deadline `wake` can stand: with `I` until it returns, and then behind
the deadline or with a caught signal. -/
def Stands (I : Kernel → Prop) (wake : ℕ) (w : World) : Prop :=
  match w.phase with
  | .sleeping wake' => wake' = wake ∧ I w.kernel
  | .yielding => False
  | .returned e => e.caught = true ∨ wake ≤ w.kernel.ticks

/-- The rule for runs: `I` is kept by the steps of others, and from `I` the call goes on well. -/
theorem Stands.exec {I : Kernel → Prop} {e : Event} (h : Stands I wake w)
    (hexec : r.exec pid w e = some w')
    (hother : ∀ l, e = .other l → I w.kernel → ¬ actor w.kernel l pid →
      Step w.kernel l w'.kernel → I w'.kernel)
    (hresume : ∀ k₁, e = .resume → I w.kernel → Step w.kernel (.dispatch pid) k₁ →
      Stands I wake (r.resume pid wake k₁)) : Stands I wake w' := by
  obtain ⟨k, phase⟩ := w
  cases e with
  | other l =>
    obtain ⟨hactor, hstep, hphase, hnot⟩ := exec_other hexec
    cases phase with
    | sleeping wake' =>
      unfold Stands
      rw [hphase]
      exact ⟨h.1, hother l rfl h.2 hactor hstep⟩
    | yielding => exact h.elim
    | returned e => exact absurd rfl (hnot e)
  | resume =>
    cases phase with
    | sleeping wake' =>
      obtain ⟨k₁, hrun, rfl⟩ := Option.map_eq_some_iff.mp hexec
      obtain ⟨rfl, hI⟩ := h
      exact hresume k₁ rfl hI (runLabels_single hrun)
    | yielding => exact h.elim
    | returned e => cases hexec

theorem sleepUntil_stands (rem : Option Bool) (k : Kernel) :
    Stands (fun _ => True) wake (sleepUntil wake rem pid k) := by
  unfold sleepUntil
  split
  · exact ⟨rfl, trivial⟩
  · next h => exact .inr (not_lt.mp h)

theorem report_caught (rem : Option Bool) (value : ℤ) (left : ℕ × ℕ) (b : Bool) :
    (report rem value left b).caught = b := by
  unfold report
  split <;> rfl

theorem nanosleep_exec {sec nsec : ℤ} {rem : Option Bool} {e : Event}
    (h : Stands (fun _ => True) wake w) (hcalm : (Request.nanosleep sec nsec rem).Calm pid w e)
    (hexec : (Request.nanosleep sec nsec rem).exec pid w e = some w') :
    Stands (fun _ => True) wake w' := by
  refine h.exec hexec (fun _ _ _ _ _ => trivial) fun k₁ he _ hstep => ?_
  subst he
  unfold Request.resume
  dsimp only
  split
  · next hact =>
    left
    have hcaught := hcalm
    unfold Request.Calm at hcaught
    rw [hstep.2] at hcaught
    rw [report_caught]
    exact hcaught hact
  · exact sleepUntil_stands rem k₁

theorem sleep_exec {ms : ℕ} {e : Event} (h : Stands (Held pid wake) wake w)
    (hcalm : (Request.sleep ms).Calm pid w e)
    (hexec : (Request.sleep ms).exec pid w e = some w') : Stands (Held pid wake) wake w' := by
  refine h.exec hexec (fun l he hheld hactor hstep => ?_) fun k₁ _ hheld hstep => ?_
  · subst he
    exact hheld.other hcalm hactor hstep
  · have hpast := hheld.resume hstep
    exact .inr hpast

theorem sleep_held (hk : Sound k) (hcur : k.current = some pid) (wake : ℕ) :
    Held pid wake (call (.sleep wake none) k).2 := by
  have hcall : (call (.sleep wake none) k).2 = k.modify pid fun p =>
      { p with state := .sleeping, wakeTick := wake, sleepChan := none } := by
    change (modifyCurrent _ k).2 = _
    unfold modifyCurrent
    rw [hcur]
  rw [hcall]
  refine ⟨hk.modify fun p => ⟨rfl, fun _ => nofun⟩, fun q hq hpid _ => ?_, .inr fun q hq hpid => ?_⟩
  all_goals
    obtain ⟨p, -, rfl⟩ := Kernel.mem_modify.mp hq
    split at hpid
    · next h => rw [if_pos h]
    · next h => exact absurd hpid h

/-- In every calm run, a call that returns without a caught signal has slept at least the
requested time, by the clock. -/
theorem sleep_not_short (r : Request) (pid : ℤ) (k : Kernel) (w : World) (e : Ended)
    (hr : r.Valid) (hexact : r.Exact k.ticks) (hk : Sound k) (hcur : k.current = some pid)
    (hrun : Reaches (fun w ev w' => r.exec pid w ev = some w') (fun w => r.Calm pid w)
      (r.enter pid k) w)
    (hret : w.phase = .returned e) (hcaught : e.caught = false) :
    r.required ≤ w.kernel.ticks - k.ticks := by
  have hwake := hexact.wake hr
  have hend {I : Kernel → Prop} (h : Stands I (r.wake k.ticks) w) :
      r.required ≤ w.kernel.ticks - k.ticks := by
    unfold Stands at h
    rw [hret] at h
    have hpast := h.resolve_left (by simp [hcaught])
    omega
  cases r with
  | nanosleep sec nsec rem =>
    refine hend (hrun.invariant ?_ fun _ _ _ h hcalm hexec => nanosleep_exec h hcalm hexec)
    unfold Request.enter
    dsimp only
    rw [if_pos hr]
    exact sleepUntil_stands rem k
  | sleep ms =>
    by_cases hms : ms = 0
    · subst hms
      exact Nat.zero_le _
    · refine hend (I := Held pid _) (hrun.invariant ?_ fun _ _ _ h hcalm hexec =>
        sleep_exec h hcalm hexec)
      unfold Request.enter
      dsimp only
      rw [if_neg hms]
      exact ⟨rfl, sleep_held hk hcur _⟩

/-- Process 1 in a system call, in the foreground and alone. -/
def caller : Kernel :=
  { bootKernel 1 0 0 with
    procs := [{ newPcb 1 1 with state := .running, isUser := true, resume := .trap }]
    current := some 1
    termFgPgid := 1 }

theorem caller_sound : Sound caller where
  nodup := List.nodup_singleton _
  used p hp := by
    rw [List.mem_singleton.mp hp]
    exact nofun
  positive p hp := by
    rw [List.mem_singleton.mp hp]
    exact Int.one_pos

/-- Carry out events one after the other as long as they are calm. -/
def Request.runCalm (r : Request) (pid : ℤ) : List Event → World → Option World
  | [], w => some w
  | e :: es, w => if r.Calm pid w e then (r.exec pid w e).bind (r.runCalm pid es) else none

theorem runCalm_reaches {es : List Event} (h : r.runCalm pid es w = some w') :
    Reaches (fun w ev w' => r.exec pid w ev = some w') (fun w => r.Calm pid w) w w' :=
  reaches_of_run (fun _ => rfl) (fun _ _ _ => rfl) id h

/-- Twenty milliseconds of `nanosleep`, with a wakeup of another kind after the first tick. -/
def twoTicks : List Event :=
  [.other (.tick false), .other (.wake 1), .resume, .other (.tick false), .resume]

theorem sleep_not_short_two_ticks :
    ∃ w, (Request.nanosleep 0 20000000 none).runCalm 1 twoTicks
        ((Request.nanosleep 0 20000000 none).enter 1 caller) = some w ∧
      w.phase = .returned ⟨0, none, false⟩ ∧ 2 ≤ w.kernel.ticks - caller.ticks :=
  exists_end (P := fun w => w.phase = .returned ⟨0, none, false⟩) (by decide +kernel)
    fun w hw hret => ⟨hret, sleep_not_short (.nanosleep 0 20000000 none) 1 caller w _
      (by decide) (by decide) caller_sound rfl (runCalm_reaches hw) hret rfl⟩

/-- Carry out events one after the other. -/
def Request.run (r : Request) (pid : ℤ) : List Event → World → Option World
  | [], w => some w
  | e :: es, w => (r.exec pid w e).bind (r.run pid es)

/-- Fifteen milliseconds are two ticks, but `nanosleep` returns after one; a second's `sleep` is
over with the first wakeup of another kind, without a tick; and a `nanosleep` of a second that
is stopped from the terminal returns with the time left and no signal caught. -/
theorem sleeps_cut_short :
    ((Request.nanosleep 0 15000000 none).run 1 [.other (.tick false), .resume]
        ((Request.nanosleep 0 15000000 none).enter 1 caller)).any (fun w =>
      w.phase = .returned ⟨0, none, false⟩ ∧ w.kernel.ticks - caller.ticks = 1) = true ∧
    Request.required (.nanosleep 0 15000000 none) = 2 ∧
    ((Request.sleep 1000).run 1 [.other (.wake 1), .resume]
        ((Request.sleep 1000).enter 1 caller)).any (fun w =>
      w.phase = .returned ⟨0, none, false⟩ ∧ w.kernel.ticks - caller.ticks = 0) = true ∧
    Request.required (.sleep 1000) = 100 ∧
    ((Request.nanosleep 1 0 (some true)).run 1 [.other (.tty SIGTSTP), .resume]
        ((Request.nanosleep 1 0 (some true)).enter 1 caller)).any (fun w =>
      w.phase = .returned ⟨-EINTR, some (1, 0), false⟩ ∧
        w.kernel.ticks - caller.ticks = 0) = true := by
  decide +kernel

end Sbunix.Sleep
