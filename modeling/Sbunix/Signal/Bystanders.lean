import Sbunix.Pipe.Wakeup
import Sbunix.Signal.Model

/-!
# What a step does to the context of a process

The registers, the masks and the place where a process continues are its own:
a step of another process leaves them alone. For the process that acts, the
exact effect of each step is stated.
-/

namespace Sbunix.Signal

open Lib.Kern Lib Proc

/-- The fields that signal frames are about. -/
structure View where
  tf : TrapFrame
  resume : Resume
  active : Bool
  saved : BitVec 64
  blocked : BitVec 64

def view (p : Pcb) : View :=
  ⟨p.tf, p.resume, p.sigSuspendActive, p.sigSuspendSavedMask, p.sigBlocked⟩

variable {S : ℕ → Prop} {p q : Pcb} {g : Pcb → Pcb} {pid : ℤ} {W : Powers} {k k' : Kernel}
  {t : Option Pipe.Tag} {w : Pipe.World}

theorem Sent.blocked_eq (h : Sent S p q) (hp : SigOk p) : q.sigBlocked = p.sigBlocked := by
  refine BitVec.eq_of_getLsbD_eq fun i _ => ?_
  rw [Bool.eq_iff_iff]
  refine ⟨h.blocked i, fun hi => ?_⟩
  rcases h.kept i hi with e | e
  · exact e
  · have hclear := (hp i e).1
    rw [hi] at hclear
    cases hclear

theorem Sent.view_eq (h : Sent S p q) (hp : SigOk p) : view q = view p := by
  have hb := Sent.blocked_eq h hp
  unfold view
  rw [hb, h.frame]

/-! ### Processes that do not act -/

/-- The effect of a move on one process. -/
structure Still (W : Powers) (p q : Pcb) : Prop where
  pid : q.pid = p.pid
  user : q.isUser = p.isUser
  view : ¬ W.actor p.pid → SigOk p → view q = view p
  sig : ¬ W.actor p.pid → SigOk p → SigOk q
  early : ¬ W.actor p.pid → q.resume = p.resume
  zombie : ¬ W.actor p.pid → p.state = .zombie → q.state = .zombie
  active : q.sigSuspendActive = true → p.sigSuspendActive = true ∨ W.suspends ∧ W.actor p.pid

namespace Still

theorem of_same (hpid : q.pid = p.pid) (huser : q.isUser = p.isUser)
    (hview : Signal.view q = Signal.view p) (hhandlers : q.sigHandlers = p.sigHandlers)
    (hzombie : p.state = .zombie → q.state = .zombie) : Still W p q where
  pid := hpid
  user := huser
  view _ _ := hview
  sig _ hp s hs := by
    have hb := congrArg View.blocked hview
    have ha := congrArg View.active hview
    have hm := congrArg View.saved hview
    simp only [Signal.view] at hb ha hm
    rw [hb, ha, hm, hhandlers]
    exact hp s hs
  early _ := congrArg View.resume hview
  zombie _ := hzombie
  active h := .inl ((congrArg View.active hview).symm.trans h)

theorem refl (p : Pcb) : Still W p p := of_same rfl rfl rfl rfl id

theorem of_actor (h : W.actor p.pid) (hpid : q.pid = p.pid) (huser : q.isUser = p.isUser)
    (hactive : q.sigSuspendActive = true → p.sigSuspendActive = true ∨ W.suspends) :
    Still W p q where
  pid := hpid
  user := huser
  view h' := absurd h h'
  sig h' := absurd h h'
  early h' := absurd h h'
  zombie h' := absurd h h'
  active ha := (hactive ha).imp_right fun hs => ⟨hs, h⟩

theorem of_sent (h : Sent S p q) : Still W p q where
  pid := h.pid
  user := by rw [h.frame]
  view _ hp := Sent.view_eq h hp
  sig _ hp := SigOk.sent h hp
  early _ := by rw [h.frame]
  zombie _ hz := by
    have hwoken : Woken p.state q.state := h.state
    exact hwoken.zombie.mpr hz
  active ha := by
    rw [h.frame] at ha
    exact .inl ha

theorem of_roused (h : Roused p q) : Still W p q := by
  rcases h with rfl | ⟨hs, e⟩
  · exact refl q
  · rw [e]
    exact of_same rfl rfl rfl rfl fun hz => absurd (hs.symm.trans hz) nofun

end Still

/-- The effect of a move on the table: a process comes from one of the table, or is
a child that has not run yet. -/
def StillAll (W : Powers) (k k' : Kernel) : Prop :=
  ∀ q ∈ k'.procs, (∃ p ∈ k.procs, Still W p q) ∨
    q.isUser = true ∧ q.resume = .forkChildReturn ∧ q.sigSuspendActive = false

namespace StillAll

theorem of_procs (h : k'.procs = k.procs) : StillAll W k k' :=
  fun q hq => .inl ⟨q, h ▸ hq, .refl q⟩

theorem modifyAll (hg : ∀ p, Still W p (g p)) : StillAll W k (k.modifyAll g) := by
  intro q hq
  obtain ⟨p, hp, rfl⟩ := Kernel.mem_modifyAll.mp hq
  exact .inl ⟨p, hp, hg p⟩

theorem modify (hg : ∀ p : Pcb, p.pid = pid → Still W p (g p)) : StillAll W k (k.modify pid g) := by
  intro q hq
  obtain ⟨p, hp, rfl⟩ := Kernel.mem_modify.mp hq
  refine .inl ⟨p, hp, ?_⟩
  split
  · next h => exact hg p h
  · exact .refl p

theorem of_sends (h : Sends S k k') : StillAll W k k' := by
  intro q hq
  obtain ⟨p, hp, hs⟩ := h.mem hq
  exact .inl ⟨p, hp, .of_sent hs⟩

end StillAll

theorem Atom.still (h : Atom W k k') : StillAll W k k' := by
  cases h with
  | globals hprocs _ _ _ _ => exact .of_procs hprocs
  | pipeClose i b =>
    refine .modifyAll fun p => .of_roused ?_
    split
    · next h => exact .inr ⟨h.1, rfl⟩
    · exact .refl p
  | pipeOpen i _ _ => exact .of_procs rfl
  | rouse g hg => exact .modifyAll fun p => .of_roused (hg p)
  | family g hg =>
    refine .modifyAll fun p => ?_
    rw [hg p]
    exact .of_same rfl rfl rfl rfl id
  | own pid g hactor hg =>
    refine .modify fun p hp => .of_actor (hp ▸ hactor) (hg p).sameIds.pid.symm ?_ fun ha =>
      .inl ((hg p).suspend ha)
    rw [(hg p).frame]
  | suspend pid mask hs hactor =>
    exact .modify fun p hp => .of_actor (hp ▸ hactor) rfl rfl fun _ => .inr hs
  | chld pid => exact .of_sends (S := NotKill) (sendChld_sends k (by decide) pid)
  | send pid sig _ => exact .of_sends (S := fun _ => True) (sendSignal_sends k trivial pid trivial)
  | stop pid sig _ hactor
  | yield pid hactor | die pid hactor =>
    exact .modify fun p hp => .of_actor (hp ▸ hactor) rfl rfl .inl
  | sleep pid g hactor hg =>
    refine .modify fun p hp => .of_actor (hp ▸ hactor) ?_ ?_ fun ha => .inl ?_
    · rw [hg p]
    · rw [hg p]
    · rw [hg p] at ha
      exact ha
  | stopSeen pid | continueSeen pid => exact .modify fun p _ => .of_same rfl rfl rfl rfl id
  | destroy pid hz => exact fun q hq => .inl ⟨q, List.mem_of_mem_filter hq, .refl q⟩

theorem Move.still (h : Move W k k') : StillAll W k k' := by
  cases h with
  | atom h => exact Atom.still h
  | job pid g hg =>
    refine .modify fun p _ => ?_
    rw [hg p]
    exact .of_same rfl rfl rfl rfl id
  | fork parent pid generation _ _ _ =>
    intro q hq
    rcases List.mem_append.mp hq with hq | hq
    · exact .inl ⟨q, hq, .refl q⟩
    · rw [List.mem_singleton.mp hq]
      exact .inr ⟨rfl, rfl, rfl⟩
  | dispatch pid hactor _ _ =>
    have h : StillAll W k (k.modify pid fun q => { q with state := .running }) :=
      .modify fun p hp => .of_actor (hp ▸ hactor) rfl rfl .inl
    exact h
  | release => exact .of_procs rfl

/-- What holds of the process `p` as long as it does not act. `Good` may look at the
view only, and must hold of children that have not run. -/
def Watched (W : Powers) (Good : ℤ → View → Prop) (p : Pcb) : Prop :=
  ¬ W.actor p.pid → (SigOk p ∨ p.resume = .forkChildReturn ∧ p.sigSuspendActive = false) ∧
    (p.state ≠ .zombie → Good p.pid (view p))

variable {Good : ℤ → View → Prop}

theorem Watched.still (h : Watched W Good p) (hs : Still W p q)
    (hchild : ∀ pid v, v.resume = .forkChildReturn → v.active = false → Good pid v) :
    Watched W Good q := by
  intro hactor
  rw [hs.pid] at hactor
  obtain ⟨hsig, hgood⟩ := h hactor
  rcases hsig with hp | ⟨hr, ha⟩
  · refine ⟨.inl (hs.sig hactor hp), fun hz => ?_⟩
    rw [hs.pid, hs.view hactor hp]
    exact hgood fun hz' => hz (hs.zombie hactor hz')
  · have hr' : q.resume = .forkChildReturn := (hs.early hactor).trans hr
    have ha' : q.sigSuspendActive = false := by
      by_contra hne
      rcases hs.active (by simpa using hne) with e | ⟨-, e⟩
      · rw [ha] at e
        cases e
      · exact hactor e
    exact ⟨.inr ⟨hr', ha'⟩, fun _ => hchild _ _ hr' ha'⟩

theorem Moves.watch (Good : ℤ → View → Prop) (h : Moves W k k')
    (hchild : ∀ pid v, v.resume = .forkChildReturn → v.active = false → Good pid v)
    (hk : ∀ p ∈ k.procs, Watched W Good p) : ∀ q ∈ k'.procs, Watched W Good q := by
  refine h.invariant (I := fun k => ∀ p ∈ k.procs, Watched W Good p) hk fun k k' hk hm q hq => ?_
  rcases Move.still hm q hq with ⟨p, hp, hs⟩ | ⟨-, hr, ha⟩
  · exact (hk p hp).still hs hchild
  · exact fun _ => ⟨.inr ⟨hr, ha⟩, fun _ => hchild _ _ hr ha⟩

theorem Moves.inactive (h : Moves W k k') (hs : ¬ W.suspends)
    (hk : ∀ p ∈ k.procs, W.actor p.pid → p.sigSuspendActive = false) :
    ∀ q ∈ k'.procs, W.actor q.pid → q.sigSuspendActive = false := by
  refine h.invariant (I := fun k => ∀ p ∈ k.procs, W.actor p.pid → p.sigSuspendActive = false) hk
    fun k k' hk hm q hq hactor => ?_
  rcases Move.still hm q hq with ⟨p, hp, hst⟩ | ⟨-, -, ha⟩
  · by_contra hne
    have hclear := hk p hp (hst.pid ▸ hactor)
    rcases hst.active (by simpa using hne) with e | ⟨e, -⟩
    · rw [hclear] at e
      cases e
    · exact hs e
  · exact ha

theorem Moves.user (h : Moves W k k') (hk : ∀ p ∈ k.procs, p.isUser = true) :
    ∀ q ∈ k'.procs, q.isUser = true := by
  refine h.invariant (I := fun k => ∀ p ∈ k.procs, p.isUser = true) hk fun k k' hk hm q hq => ?_
  rcases Move.still hm q hq with ⟨p, hp, hst⟩ | ⟨huser, -, -⟩
  · rw [hst.user]
    exact hk p hp
  · exact huser

/-! ### The process that acts -/

/-- What switching to the process `p` makes of it. -/
inductive Dispatched (p : Pcb) : Pcb → Prop
  | inside : p.resume = .trap ∨ p.resume = .user → Dispatched p { p with state := .running }
  | out : p.resume ≠ .trap → Dispatched p { p with state := .running, resume := .user }
  | dead {q : Pcb} : q.state = .zombie → badReturn p.tf = true → Dispatched p q

theorem dispatch_left (hp : k.find pid = some p)
    (he : dispatch pid k = (some (), k')) : ∃ q ∈ k'.procs, q.pid = pid ∧ Dispatched p q := by
  have hpid : p.pid = pid := (Kernel.find_mem hp).2
  unfold dispatch at he
  rw [get_bind] at he
  simp only [hp] at he
  rw [modify_bind] at he
  have hat : At { k.modify pid fun q => { q with state := .running } with current := some pid }
      { p with state := .running } :=
    ⟨modify_find (g := fun q => { q with state := .running }) (fun _ => rfl) hp, rfl⟩
  have hout : ∀ {k'}, At k' { p with state := .running, resume := .user } → p.resume ≠ .trap →
      ∃ q ∈ k'.procs, q.pid = pid ∧ Dispatched p q :=
    fun h hr => ⟨_, h.mem, hpid, .out hr⟩
  cases hr : p.resume with
  | forkret | forkChildReturn =>
    rw [hr] at he
    rw [hat.modifyCurrent he]
    exact hout (hat.modify (g := fun p => { p with resume := .user }) (fun _ => rfl) rfl)
      (hr ▸ nofun)
  | trap =>
    rw [hr] at he
    cases he
    exact ⟨_, hat.mem, hpid, .inside (.inl hr)⟩
  | user =>
    rw [hr] at he
    cases he
    exact ⟨_, hat.mem, hpid, .inside (.inr hr)⟩
  | stop check =>
    rw [hr] at he
    rcases leaveTrap_back hat he with ⟨⟨q, hq, hqpid, hz⟩, hbad⟩ | hat'
    · exact ⟨q, hq, hqpid.trans hpid, .dead hz hbad⟩
    · exact hout hat' (hr ▸ nofun)

theorem sysSigreturn_left {fr : Sigframe} {r : Option ℤ} (h : At k p)
    (he : sysSigreturn (some fr) k = (some r, k')) : ∃ q ∈ k'.procs, q.pid = p.pid ∧
      (q.state = .zombie ∧ sigframeBad fr = true ∨
        q = { p with tf := restoredFrame fr, sigBlocked := strip fr.savedMask }) := by
  unfold sysSigreturn at he
  rw [get_bind] at he
  simp only [h.current] at he
  rw [Kern.ite_apply] at he
  split at he
  · next hbad =>
    obtain ⟨gone, k₁, h1, h2⟩ := bind_eq_some.mp he
    cases h2
    obtain ⟨q, hq, hqpid, hz⟩ := exit_zombie h.current h.running h1
    exact ⟨q, hq, hqpid, .inl ⟨hz, hbad⟩⟩
  · rw [modify_bind] at he
    cases he
    have hat : At
        (k.modify p.pid fun q =>
          { q with tf := restoredFrame fr, sigBlocked := strip fr.savedMask })
        { p with tf := restoredFrame fr, sigBlocked := strip fr.savedMask } :=
      h.modify (fun _ => rfl) rfl
    exact ⟨_, hat.mem, rfl, .inr rfl⟩

theorem wait4_view {options : BitVec 32} {r : WaitResult} (ht : Table k) (hsig : SigOk p)
    (h : At k p) (he : wait4Pass pid options k = (some r, k')) :
    ∃ q ∈ k'.procs, q.pid = p.pid ∧ view q = view p := by
  have hmodify : ∀ {g : Pcb → Pcb} (pid : ℤ), (∀ q, (g q).pid = q.pid ∧ view (g q) = view q) →
      ∃ q ∈ (k.modify pid g).procs, q.pid = p.pid ∧ view q = view p := by
    intro g pid hg
    refine ⟨_, Kernel.mem_modify.mpr ⟨p, h.mem, rfl⟩, ?_⟩
    split
    · exact hg p
    · exact ⟨rfl, rfl⟩
  cases wait4Pass_run he with
  | failed r => exact ⟨p, h.mem, rfl, rfl⟩
  | slept hme _ | stopReported _ | continueReported _ => exact hmodify _ fun _ => ⟨rfl, rfl⟩
  | @reaped me z _ hme hz hzombie hdestroy =>
    cases h.current.symm.trans hme
    have hne : z.pid ≠ p.pid := by
      intro heq
      rw [ht.eq_of_pid hz.1 h.mem heq, h.running] at hzombie
      cases hzombie
    unfold procDestroy at hdestroy
    rw [get_bind, Kern.ite_apply] at hdestroy
    split at hdestroy
    · cases hdestroy
    rw [modify_bind] at hdestroy
    have hwakes := closeOrphan_rel wakes_files _ _ _ _ hdestroy
    have hpid : (z.absorb p).pid ≠ z.pid := hne.symm
    have hmem : z.absorb p ∈ (k.modify p.pid (Pcb.absorb z)).procs.filter (·.pid ≠ z.pid) :=
      List.mem_filter.mpr ⟨Kernel.mem_modify.mpr ⟨p, h.mem, if_pos rfl⟩, by simpa using hpid⟩
    obtain ⟨q, hq, hs⟩ := forall₂_mem_left hwakes.procs hmem
    have hsig' : SigOk (z.absorb p) := hsig
    have hview : view q = view (z.absorb p) := Sent.view_eq hs hsig'
    exact ⟨q, hq, hs.pid, hview⟩

/-! ### Calls on pipes -/

variable {w' : Pipe.World}

section

open Pipe (Act Acts)

/-- What holds of a process while `pid` is in a call on a pipe. -/
def Piped (pid : ℤ) (Good : ℤ → View → Prop) (p : Pcb) : Prop :=
  p.isUser = true ∧ SigOk p ∧ (p.state ≠ .zombie ∨ p.pid = pid → Good p.pid (view p))

theorem Piped.sent (h : Piped pid Good p) (hs : Sent S p q) : Piped pid Good q := by
  refine ⟨by rw [hs.frame]; exact h.1, SigOk.sent hs h.2.1, fun hq => ?_⟩
  rw [hs.pid, Sent.view_eq hs h.2.1]
  refine h.2.2 (hq.imp (fun hz hz' => hz ?_) fun e => hs.pid.symm.trans e)
  have hwoken : Woken p.state q.state := hs.state
  exact hwoken.zombie.mpr hz'

theorem Piped.sends (h : ∀ p ∈ k.procs, Piped pid Good p)
    (hs : Sends S k k') : ∀ q ∈ k'.procs, Piped pid Good q := by
  intro q hq
  obtain ⟨p, hp, hpq⟩ := hs.mem hq
  exact (h p hp).sent hpq

theorem Piped.modify (h : ∀ p ∈ k.procs, Piped pid Good p)
    (hg : ∀ p, (g p).pid = p.pid ∧ (g p).isUser = p.isUser ∧ view (g p) = view p ∧
      (g p).sigHandlers = p.sigHandlers) : ∀ q ∈ (k.modify pid g).procs, Piped pid Good q := by
  intro q hq
  obtain ⟨p, hp, rfl⟩ := Kernel.mem_modify.mp hq
  split
  · next hpid =>
    obtain ⟨h1, h2, h3, h4⟩ := hg p
    have hstill : Still ⟨fun _ _ => False, fun _ => False, False, False, False, False⟩ p
        { g p with state := p.state } :=
      .of_same h1 h2 h3 h4 id
    refine ⟨h2.trans (h p hp).1, hstill.sig id (h p hp).2.1, fun _ => ?_⟩
    rw [h1, h3]
    exact (h p hp).2.2 (.inr hpid)
  · exact h p hp

theorem Acts.piped (h : Acts pid t w w')
    (hw : ∀ p ∈ w.k.procs, Piped pid Good p) : ∀ q ∈ w'.k.procs, Piped pid Good q := by
  refine h.invariant (I := fun w => ∀ p ∈ w.k.procs, Piped pid Good p) hw fun w w' hw ha => ?_
  have hwake : ∀ {k : Kernel} (i : ℕ), (∀ p ∈ k.procs, Piped pid Good p) →
      ∀ q ∈ (procWakeupChan k i).procs, Piped pid Good q :=
    fun i hk => Piped.sends (S := NotKill) hk (procWakeupChan_sends _ i)
  cases ha with
  | took _ => exact hwake _ hw
  | waits _ _ => exact Piped.modify hw fun _ => ⟨rfl, rfl, rfl, rfl⟩
  | wrote _ => exact hwake _ hw
  | fills _ => exact Piped.modify (hwake _ hw) fun _ => ⟨rfl, rfl, rfl, rfl⟩
  | broke _ => exact Piped.sends (S := fun _ => True) hw (sendSignal_sends _ trivial _ trivial)
  | finish _ _ => exact hw

theorem Acts.sound (h : Acts pid t w w') (hw : Sound w.k) : Sound w'.k :=
  h.invariant (I := fun w => Sound w.k) hw fun _ _ hw ha => hw.moves ha.moves

theorem pipe_keeps (Good : ℤ → View → Prop) {b : Pipe.World} {l : Pipe.Label}
    (hl : ∀ l', l ≠ .kern l')
    (hk : Sound w.k) (hp : w.k.currentProc = some p)
    (hgood : ∀ q ∈ w.k.procs, q.isUser = true ∧ SigOk q ∧ (q.state ≠ .zombie → Good q.pid (view q)))
    (hself : Good p.pid (view p)) (hstep : Pipe.Step w l b) :
    Sound b.k ∧
    ∀ q ∈ b.k.procs, q.isUser = true ∧ SigOk q ∧ (q.state ≠ .zombie → Good q.pid (view q)) := by
  have hpiped : ∀ q ∈ w.k.procs, Piped p.pid Good q := by
    refine fun q hq => ⟨(hgood q hq).1, (hgood q hq).2.1, fun h => ?_⟩
    rcases h with h | h
    · exact (hgood q hq).2.2 h
    · rw [hk.toTable.eq_current hp hq h]
      exact hself
  have hend : ∀ {t : Option Pipe.Tag} (w₁ : Pipe.World) {b : Pipe.World}, Sound w₁.k →
      (∀ q ∈ w₁.k.procs, Piped p.pid Good q) → Acts p.pid t w₁ b → Sound b.k ∧
      ∀ q ∈ b.k.procs, q.isUser = true ∧ SigOk q ∧ (q.state ≠ .zombie → Good q.pid (view q)) := by
    intro t w₁ b hk₁ hw₁ ha
    refine ⟨Acts.sound ha hk₁, fun q hq => ?_⟩
    obtain ⟨h1, h2, h3⟩ := Acts.piped ha hw₁ q hq
    exact ⟨h1, h2, fun hz => h3 (.inl hz)⟩
  have hawake : Sound (w.awake p.pid).k ∧ ∀ q ∈ (w.awake p.pid).k.procs, Piped p.pid Good q :=
    ⟨hk.modify fun _ => ⟨rfl, id⟩, Piped.modify hpiped fun _ => ⟨rfl, rfl, rfl, rfl⟩⟩
  have hcurrent := (currentProc_mem hp).2
  cases hstep with
  | kern _ _ => exact absurd rfl (hl _)
  | @read pid fd len copyout hcall _ =>
    cases hcall.2.1.symm.trans hcurrent
    exact hend w hk hpiped (Pipe.readLoop_acts _ _ _)
  | @write pid fd len buf copyin hcall _ =>
    cases hcall.2.1.symm.trans hcurrent
    exact hend { w with calls := w.calls + 1 } hk hpiped (Pipe.writeLoop_acts _ rfl _)
  | @resumeRead p' c i n _ hp' _ =>
    obtain rfl : p' = p := Option.some.inj (hp'.symm.trans hp)
    exact hend _ hawake.1 hawake.2 (Pipe.resumeRead_acts _ _ _ _ _)
  | @resumeWrite p' c j n i _ hp' _ =>
    obtain rfl : p' = p := Option.some.inj (hp'.symm.trans hp)
    exact hend _ hawake.1 hawake.2 (Pipe.resumeWrite_acts rfl _ _ _ _ _)

end

end Sbunix.Signal
