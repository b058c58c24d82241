import Sbunix.Signal.Frames

/-!
# Signal frames along a run

The frames of handlers that have not returned lie in memory as they were
written, a process that executed `sigreturn` has the registers and the mask of
the frame, and the trap frame of a process whose call is to be replayed is the
one it entered with.
-/

namespace Sbunix.Signal

open List Lib
open Lib.Memory (Apart)
open Proc
open Pipe (setPid setPid_same setPid_ne)

structure Settled (S P : Prop) (trap : ℤ → Trap) (k : Kernel) : Prop extends Sound k where
  procs : ∀ p ∈ k.procs, p.isUser = true ∧ SigOk p ∧
    (p.state ≠ .zombie → Good S P (trap p.pid) (view p))

structure Framed (S P : Prop) (w : World) : Prop where
  frames : ∀ pid, FramesOk S (w.mem pid) (w.frames pid)
  entries : ∀ pid e, e ∈ w.frames pid ∨ (w.trap pid).popped = some e → EntryOk S P e

structure Inv (S P : Prop) (w : World) : Prop where
  settled : Settled S P w.trap w.k
  framed : Framed S P w

variable {p : Pcb} {pid : ℤ} {k : Kernel} {b : Pipe.World} {c : Call} {regs : TrapFrame}
  {options : BitVec 32} {ustatus : Option Bool} {m : BitVec 64} {sig : ℕ}
  {S P : Prop} {trap trap' : ℤ → Trap} {k' : Kernel}

theorem Settled.at (h : Settled S P trap k) {r : Resume} (hp : k.currentProc = some p)
    (hr : runsAt k r) : At k p ∧ p.resume = r ∧ p.isUser = true ∧ SigOk p ∧
    Good S P (trap p.pid) (view p) := by
  obtain ⟨p', hp', hrun, hres⟩ := hr
  obtain rfl : p' = p := Option.some.inj (hp'.symm.trans hp)
  obtain ⟨huser, hsig, hgood⟩ := h.procs p' (currentProc_mem hp).1
  exact ⟨⟨hp, hrun⟩, hres, huser, hsig, hgood (hrun ▸ nofun)⟩

theorem Settled.step {l : Proc.Label} (h : Settled S P trap k) (hstep : Proc.Step k l k')
    (htrap : ∀ p ∈ k.procs, ¬ actor k l p.pid → trap' p.pid = trap p.pid)
    (hactor : ∀ q ∈ k'.procs, actor k l q.pid → q.state ≠ .zombie →
    Good S P (trap' q.pid) (view q)) :
    Settled S P trap' k' := by
  have hmoves := hstep.moves h.toSound
  have hsig : TableAll SigOk k' :=
    step_keeps sigOk_local (fun _ _ hp => hp) ⟨h.toTable, fun p hp => (h.procs p hp).2.1⟩ hstep
  have hothers : ∀ p ∈ k.procs, ¬ actor k l p.pid → p.state ≠ .zombie →
      Good S P (trap' p.pid) (view p) := by
    intro p hp hne hz
    rw [htrap p hp hne]
    exact (h.procs p hp).2.2 hz
  have hwatch := Moves.watch (fun pid v => Good S P (trap' pid) v) hmoves
    (fun _ _ hr ha => .outside (hr ▸ id) fun _ => ha) fun p hp hne =>
    ⟨.inl (h.procs p hp).2.1, hothers p hp hne⟩
  refine ⟨h.toSound.step hstep, fun q hq => ⟨?_, hsig.all q hq, fun hz => ?_⟩⟩
  · exact Moves.user hmoves (fun p hp => (h.procs p hp).1) q hq
  · by_cases ha : actor k l q.pid
    · exact hactor q hq ha hz
    · exact (hwatch q hq ha).2 hz

theorem Settled.step_at {l : Proc.Label} (h : Settled S P trap k) (hstep : Proc.Step k l k')
    (hp : k.currentProc = some p) (hl : ∀ pid, actor k l pid ↔ k.current = some pid)
    (htrap : ∀ q ∈ k.procs, q.pid ≠ p.pid → trap' q.pid = trap q.pid)
    (hactor : ∀ q ∈ k'.procs, q.pid = p.pid → q.state ≠ .zombie → Good S P (trap' p.pid) (view q)) :
    Settled S P trap' k' := by
  have hcur := (currentProc_mem hp).2
  refine h.step hstep (fun q hq hne => htrap q hq fun he => hne ?_) fun q hq ha hz => ?_
  · rw [hl, he]
    exact hcur
  · have hpid : q.pid = p.pid := Option.some.inj (((hl _).mp ha).symm.trans hcur)
    rw [hpid]
    exact hactor q hq hpid hz

theorem Settled.only (h : Sound k') {F : Pcb → Prop} (hex : ∃ q ∈ k'.procs, q.pid = pid ∧ F q) :
    ∀ q ∈ k'.procs, q.pid = pid → F q := by
  obtain ⟨q₀, hq₀, hpid₀, hF⟩ := hex
  intro q hq hpid
  rw [h.toTable.eq_of_pid hq hq₀ (hpid.trans hpid₀.symm)]
  exact hF

theorem modified (ht : Table k) {q : Pcb} {g : Pcb → Pcb} (hp : p ∈ k.procs)
    (hq : q ∈ (k.modify p.pid g).procs) (hpid : q.pid = p.pid) : q = g p := by
  obtain ⟨q₀, hq₀, rfl⟩ := Kernel.mem_modify.mp hq
  split at hpid
  · next h => rw [if_pos h, ht.eq_of_pid hq₀ hp h]
  · next h => exact absurd hpid h

/-! ### Steps of the pipe machine -/

variable {w : World}

theorem kern_step {w : Pipe.World} {l : Proc.Label} (h : Pipe.Step w (.kern l) b) :
    Proc.Step w.k l b.k := by
  cases h with
  | kern _ h => exact h

theorem after_popped (t : Trap) (n : ℕ) (l : Pipe.Label) : (t.after n l).popped = t.popped := by
  unfold Trap.after
  split
  · split <;> rfl
  · rfl
  · rfl
  · rfl
  · rfl

variable {t : Trap} {l : Pipe.Label} {q : Pcb}

theorem allows_call (h : t.allows p (.kern (.call c)) = true) : ¬ c.suspends ∧
    (t.phase = .fresh ∨ t.phase = .working ∨
      (∃ m, t.phase = .suspended m) ∧ ∃ wakeTick chan, c = .sleep wakeTick chan) := by
  have hs : ¬ c.suspends := by
    cases c with
    | sigsuspend mask => cases h
    | _ => exact id
  refine ⟨hs, ?_⟩
  unfold Trap.allows at h
  dsimp only at h
  split at h
  · cases h
  · cases h
  · cases h
  · next hphase => exact .inl hphase
  · next hphase => exact .inr (.inl hphase)
  · next hphase => exact .inr (.inr ⟨⟨_, hphase⟩, _, _, rfl⟩)
  · cases h

theorem step_trap_self (hp : w.k.currentProc = some p) :
    (w.step l b).trap p.pid = (w.trap p.pid).after (bytesMoved w.base b) l := by
  simp [World.step, hp, World.setTrap]

theorem beside_trap (w : World) (p : Pcb) (l : Pipe.Label) (hq : q ∈ w.k.procs) :
    (w.beside p l).trap q.pid = w.trap q.pid := by
  have hfind : w.k.find q.pid ≠ none := by
    intro h
    exact absurd (find?_eq_none.mp h q hq) (by simp)
  unfold World.beside
  split
  · exact if_neg (by simpa using hfind)
  · split <;> rfl
  · rfl

theorem step_trap_ne (hp : w.k.currentProc = some p) (hq : q ∈ w.k.procs)
    (hne : q.pid ≠ p.pid) : (w.step l b).trap q.pid = w.trap q.pid := by
  simp only [World.step, hp, World.setTrap]
  rw [setPid_ne _ _ hne, beside_trap w p l hq]

theorem step_trap (hl : ∀ (t : Trap) n, t.after n l = t) (hq : q ∈ w.k.procs) :
    (w.step l b).trap q.pid = w.trap q.pid := by
  rcases hp : w.k.currentProc with _ | p
  · simp only [World.step, hp]
  · by_cases hne : q.pid = p.pid
    · rw [hne, step_trap_self hp, hl]
    · exact step_trap_ne hp hq hne

theorem step_k (w : World) (l : Pipe.Label) (b : Pipe.World) : (w.step l b).k = b.k := by
  unfold World.step
  split <;> rfl

theorem Framed.beside (h : Framed S P w) (p : Pcb) (l : Pipe.Label) :
    Framed S P (w.beside p l) := by
  unfold World.beside
  split
  · refine ⟨fun pid => ?_, fun pid e he => ?_⟩
    · simp only [World.spawn]
      split
      · exact h.frames p.pid
      · exact h.frames pid
    · simp only [World.spawn] at he
      split at he
      · exact h.entries p.pid e (he.imp_right fun hn => absurd hn nofun)
      · exact h.entries pid e he
  · split
    · refine ⟨fun pid => ?_, fun pid e he => ?_⟩
      · by_cases hpid : pid = p.pid
        · simp only [hpid, setPid_same]
          exact .nil _
        · simp only [setPid_ne _ _ hpid]
          exact h.frames pid
      · by_cases hpid : pid = p.pid
        · simp only [hpid, setPid_same] at he
          exact h.entries p.pid e (he.imp_left fun hn => absurd hn not_mem_nil)
        · simp only [setPid_ne _ _ hpid] at he
          exact h.entries pid e he
    · exact h
  · exact h

theorem Framed.setTrap (h : Framed S P w)
    (ht : t.popped = none ∨ t.popped = (w.trap pid).popped) : Framed S P (w.setTrap pid t) := by
  refine ⟨h.frames, fun q e he => ?_⟩
  by_cases hq : q = pid
  · subst hq
    simp only [World.setTrap, setPid_same] at he
    rcases ht with ht | ht
    · exact h.entries q e (he.imp_right fun hn => absurd (hn.symm.trans ht) nofun)
    · exact h.entries q e (he.imp_right fun hn => ht ▸ hn)
  · simp only [World.setTrap, setPid_ne _ _ hq] at he
    exact h.entries q e he

theorem Framed.setBase (h : Framed S P w) (b : Pipe.World) : Framed S P { w with base := b } :=
  ⟨h.frames, h.entries⟩

theorem Framed.step (h : Framed S P w) (l : Pipe.Label) (b : Pipe.World) :
    Framed S P (w.step l b) := by
  rcases hp : w.k.currentProc with _ | p
  · simp only [World.step, hp]
    exact h.setBase b
  · simp only [World.step, hp]
    refine Framed.setBase ((h.beside p l).setTrap (.inr ?_)) b
    rw [after_popped, beside_trap w p l (currentProc_mem hp).1]

theorem settled_call (h : Settled S P w.trap w.k) (hp : w.k.currentProc = some p)
    (hallow : (w.trap p.pid).allows p (.kern (.call c)) = true)
    (hstep : Proc.Step w.k (.call c) b.k) : Settled S P (w.step (.kern (.call c)) b).trap b.k := by
  obtain ⟨hat, hres, -, hsig, hgood⟩ := h.at hp hstep.1
  obtain ⟨hs, hphase⟩ := allows_call hallow
  refine h.step_at hstep hp (fun _ => Iff.rfl) (fun q hq hne => step_trap_ne hp hq hne) ?_
  intro q hq hpid hz
  rw [step_trap_self hp]
  have hinactive : (∀ m, (w.trap p.pid).phase ≠ .suspended m) → S → (view q).active = false := by
    intro hne hS
    have hp' : ∀ q ∈ w.k.procs, actor w.k (.call c) q.pid → q.sigSuspendActive = false := by
      intro q hq ha
      have hcur : w.k.current = some q.pid := ha
      rw [h.toTable.eq_current hp hq (Option.some.inj (hcur.symm.trans (currentProc_mem hp).2))]
      exact hgood.inactive_of_phase hne hS
    refine Moves.inactive (hstep.moves h.toSound) hs hp' q hq ?_
    rw [hpid]
    exact (currentProc_mem hp).2
  have hnone := fun hne => hgood.popped_none hres hne
  rcases hphase with hphase | hphase | ⟨⟨m, hphase⟩, wakeTick, chan, rfl⟩
  · refine .working ?_ ?_ (hinactive (by rw [hphase]; nofun))
    · simp only [Trap.after, hphase]
    · rw [after_popped]
      exact hnone (by rw [hphase]; nofun)
  · refine .working ?_ ?_ (hinactive (by rw [hphase]; nofun))
    · simp only [Trap.after, hphase]
    · rw [after_popped]
      exact hnone (by rw [hphase]; nofun)
  · rw [hat.modifyCurrent hstep.2] at hq
    obtain rfl := modified h.toTable hat.mem hq hpid
    simp only [Trap.after, hphase]
    exact hgood

theorem Good.dispatched (h : Good S P t (view p)) (hd : Dispatched p q)
    (hz : q.state ≠ .zombie) : Good S P t (view q) := by
  cases hd with
  | inside _ => exact h
  | out hr => exact .outside id fun hS => h.inactive hr hS
  | dead hq _ => exact absurd hq hz

theorem settled_dispatch {trap trap' : ℤ → Trap} {k' : Kernel} (h : Settled S P trap k)
    (hstep : Proc.Step k (.dispatch pid) k') (htrap : ∀ p ∈ k.procs, trap' p.pid = trap p.pid) :
    Settled S P trap' k' := by
  obtain ⟨-, p, hp, hready⟩ := hstep.1
  obtain ⟨hmem, rfl⟩ := Kernel.find_mem hp
  refine h.step hstep (fun q hq _ => htrap q hq) fun q hq ha hz => ?_
  have hleft := Settled.only (h.toSound.step hstep) (dispatch_left hp hstep.2) q hq ha
  have hpid : q.pid = p.pid := ha
  rw [hpid, htrap p hmem]
  exact ((h.procs p hmem).2.2 (hready ▸ nofun)).dispatched hleft hz

theorem settled_kern {l : Proc.Label} (h : Settled S P w.trap w.k)
    (hallow : w.allows (.kern l) = true)
    (hstep : Proc.Step w.k l b.k) : Settled S P (w.step (.kern l) b).trap b.k := by
  cases l with
  | call c =>
    obtain ⟨p, hp, -⟩ := hstep.1
    simp only [World.allows, hp] at hallow
    exact settled_call h hp hallow hstep
  | enter tf | ret path copied =>
    obtain ⟨p, hp, -⟩ := hstep.1
    simp only [World.allows, hp] at hallow
    cases hallow
  | dispatch pid => exact settled_dispatch h hstep fun q hq => step_trap (fun _ _ => rfl) hq
  | reapOrphan
  | tick fromUser
  | tty sig
  | wake pid
  | wakeChan chan =>
    exact h.step hstep (fun q hq _ => step_trap (fun _ _ => rfl) hq) fun _ _ ha => ha.elim

theorem settled_pipe (hl : ∀ l', l ≠ .kern l')
    (h : Settled S P w.trap w.k) (hp : w.k.currentProc = some p) (hr : runsAt w.k .trap)
    (hphase : (w.trap p.pid).phase.calm) {n : ℕ}
    (hafter : (w.trap p.pid).after (bytesMoved w.base b) l =
      { w.trap p.pid with phase := .piped, moved := n })
    (hstep : Pipe.Step w.base l b) : Settled S P (w.step l b).trap b.k := by
  obtain ⟨hat, hres, -, -, hgood⟩ := h.at hp hr
  have hself : Good S P ((w.step l b).trap p.pid) (view p) := by
    rw [step_trap_self hp, hafter]
    exact hgood.proceed hres hphase .piped n nofun
  have hothers : ∀ q ∈ w.k.procs, q.isUser = true ∧ SigOk q ∧
      (q.state ≠ .zombie → Good S P ((w.step l b).trap q.pid) (view q)) := by
    intro q hq
    obtain ⟨h1, h2, h3⟩ := h.procs q hq
    refine ⟨h1, h2, fun hz => ?_⟩
    by_cases hne : q.pid = p.pid
    · rw [h.toTable.eq_current hp hq hne]
      exact hself
    · rw [step_trap_ne hp hq hne]
      exact h3 hz
  obtain ⟨hsound, hprocs⟩ := pipe_keeps (fun pid v => Good S P ((w.step l b).trap pid) v) hl
    h.toSound hp hothers hself hstep
  exact ⟨hsound, hprocs⟩

theorem begins_phase (h : t.begins = true) : t.phase = .fresh ∧ t.ecall = true := by
  unfold Trap.begins at h
  split at h
  · next hphase => exact ⟨hphase, h⟩
  · cases h

theorem settled_base (h : Settled S P w.trap w.k) (hallow : w.allows l = true)
    (hstep : Pipe.Step w.base l b) : Settled S P (w.step l b).trap b.k := by
  -- a call on a pipe, at its beginning or behind a sleep
  have hpipe : ∀ {l : Pipe.Label}, (∀ l', l ≠ .kern l') → runsAt w.k .trap → w.allows l = true →
      Pipe.Step w.base l b → (∀ t : Trap, ∀ p, t.allows p l = true →
        t.phase.calm ∧ ∀ n, t.after n l = { t with phase := .piped, moved := t.moved + n }) →
      Settled S P (w.step l b).trap b.k := by
    intro l hl hr hallow hstep hphase
    obtain ⟨p, hp, hrun⟩ := hr
    simp only [World.allows, hp] at hallow
    obtain ⟨hcalm, hafter⟩ := hphase _ _ hallow
    exact settled_pipe hl h hp ⟨p, hp, hrun⟩ hcalm (hafter _) hstep
  have hfresh : ∀ {t : Trap}, t.begins = true → t.phase.calm := by
    intro t ht
    rw [(begins_phase ht).1]
    trivial
  have hresume : ∀ (t : Trap) (p : Pcb), t.allows p .resume = true →
      t.phase.calm ∧ ∀ n, t.after n .resume = { t with phase := .piped, moved := t.moved + n } := by
    intro t p ht
    unfold Trap.allows at ht
    dsimp only at ht
    split at ht
    · next hphase =>
      refine ⟨hphase ▸ trivial, fun n => ?_⟩
      rw [← hphase]
      rfl
    · cases ht
  cases hstep with
  | kern hl hk => exact settled_kern h hallow hk
  | read hcall hfd =>
    exact hpipe nofun hcall.1 hallow (.read hcall hfd) fun t p ht => ⟨hfresh ht, fun _ => rfl⟩
  | write hcall hfd =>
    exact hpipe nofun hcall.1 hallow (.write hcall hfd) fun t p ht => ⟨hfresh ht, fun _ => rfl⟩
  | resumeRead hr hp hio => exact hpipe nofun hr hallow (.resumeRead hr hp hio) hresume
  | resumeWrite hr hp hio => exact hpipe nofun hr hallow (.resumeWrite hr hp hio) hresume

/-! ### The steps with labels of their own -/

theorem setTrap_self (w : World) (pid : ℤ) (t : Trap) :
    (w.setTrap pid t).trap pid = t := setPid_same _ _ _

theorem setTrap_ne (w : World) {q : ℤ} (t : Trap) (h : q ≠ pid) :
    (w.setTrap pid t).trap q = w.trap q :=
  setPid_ne _ _ h

theorem settled_enter {ecall : Bool} (h : Settled S P w.trap w.k)
    (hp : w.k.currentProc = some p) (hstep : Proc.Step w.k (.enter (entryFrame ecall regs)) b.k) :
    Settled S P (w.setTrap p.pid ⟨regs, ecall, .fresh, none, 0⟩).trap b.k := by
  obtain ⟨hat, hres, -, -, hgood⟩ := h.at hp hstep.1
  refine h.step_at hstep hp (fun _ => Iff.rfl) (fun q hq hne => setTrap_ne w _ hne) ?_
  intro q hq hpid hz
  rw [setTrap_self]
  rw [hat.modifyCurrent hstep.2] at hq
  obtain rfl := modified h.toTable hat.mem hq hpid
  have hinactive : S → p.sigSuspendActive = false :=
    hgood.inactive fun he => absurd (hres.symm.trans he) nofun
  refine ⟨fun hs ha => ?_, fun _ _ m he => absurd he nofun, fun _ e he => absurd he nofun,
    fun _ _ => rfl⟩
  exact absurd (ha.symm.trans (hinactive hs)) nofun

variable {e : Entry}

theorem topFrame_mem (h : w.topFrame p = some e) :
    ∃ fs, w.frames p.pid = e :: fs ∧ e.va = p.tf TF_SP := by
  obtain ⟨hhead, hva⟩ := Option.filter_eq_some_iff.mp h
  obtain ⟨fs, hfs⟩ := head?_eq_some_iff.mp hhead
  exact ⟨fs, hfs, by simpa using hva⟩

theorem sigreturn_restores (h : Settled S P w.trap w.k) (hf : Framed S P w) {q : Pcb}
    (hp : w.k.currentProc = some p) (htop : w.topFrame p = some e)
    (hstep : Proc.Step w.k (.call (.sigreturn (some (w.frameAt p)))) b.k) (hq : q ∈ b.k.procs)
    (hpid : q.pid = p.pid) :
    q.state = .zombie ∧ badReturn e.context.tf = true ∨ q.state = .running ∧ q.resume = .trap ∧
      q.sigSuspendActive = p.sigSuspendActive ∧ SameRegs q.tf e.context.tf ∧
        (S → q.sigBlocked = e.context.mask) := by
  obtain ⟨fs, hfs, hva⟩ := topFrame_mem htop
  have hmem : e ∈ w.frames p.pid := hfs ▸ mem_cons_self
  obtain ⟨hat, hres, -, -, -⟩ := h.at hp hstep.1
  have hholds := (hf.frames p.pid).holds e hmem
  have hframe : w.frameAt p = readFrame (w.mem p.pid) e.va := by
    rw [hva]
    rfl
  obtain ⟨r, hr⟩ := Kern.discard_eq_some hstep.2
  rcases Settled.only (h.toSound.step hstep) (sysSigreturn_left hat hr) q hq hpid with
    ⟨hz, hbad⟩ | rfl
  · rw [hframe, hholds.sigframeBad] at hbad
    exact .inl ⟨hz, hbad⟩
  · refine .inr ⟨hat.running, hres, rfl, ?_, fun hs => ?_⟩
    · dsimp only
      rw [hframe]
      exact hholds.restored
    · have hmask : (w.frameAt p).savedMask = e.context.mask := by
        rw [hframe]
        exact (hf.frames p.pid).mask hs e hmem
      dsimp only
      rw [hmask]
      exact (hf.entries p.pid e (.inl hmem)).strip hs

theorem settled_sigreturn (h : Settled S P w.trap w.k) (hf : Framed S P w)
    (hp : w.k.currentProc = some p) (hbegins : (w.trap p.pid).begins = true)
    (htop : w.topFrame p = some e)
    (hstep : Proc.Step w.k (.call (.sigreturn (some (w.frameAt p)))) b.k) :
    Settled S P (w.takeDown p).trap b.k := by
  obtain ⟨hat, hres, -, -, hgood⟩ := h.at hp hstep.1
  obtain ⟨hphase, hecall⟩ := begins_phase hbegins
  refine h.step_at hstep hp (fun _ => Iff.rfl) (fun q hq hne => setPid_ne _ _ hne) ?_
  intro q hq hpid hz
  rcases sigreturn_restores h hf hp htop hstep hq hpid with
    ⟨hq, -⟩ | ⟨-, hqres, hactive, hregs, hmask⟩
  · exact absurd hq hz
  have ha0 : restoredFrame (w.frameAt p) TF_A0 = e.context.tf TF_A0 := by
    obtain ⟨fs, hfs, hva⟩ := topFrame_mem htop
    have hholds := (hf.frames p.pid).holds e (hfs ▸ mem_cons_self)
    have hframe : w.frameAt p = readFrame (w.mem p.pid) e.va := by
      rw [hva]
      rfl
    rw [hframe]
    exact hholds.restored TF_A0 (by decide) (by decide)
  have hinactive : S → q.sigSuspendActive = false := fun hs =>
    hactive.trans (hgood.inactive_of_phase (hphase ▸ nofun) hs)
  simp only [World.takeDown, setPid_same, htop]
  refine ⟨fun hs ha => ?_, fun _ _ m he => absurd he nofun, fun _ e' he' => ?_, fun _ hu => ?_⟩
  · exact absurd (ha.symm.trans (hinactive hs)) nofun
  · cases he'
    exact ⟨hecall, by rw [ha0], fun _ => hregs, hmask⟩
  · exact absurd hu.1 nofun

theorem settled_sigsuspend {mask : Option (Option (BitVec 64))} (h : Settled S P w.trap w.k)
    (hp : w.k.currentProc = some p) (hbegins : (w.trap p.pid).begins = true)
    (hstep : Proc.Step w.k (.call (.sigsuspend mask)) b.k) :
    Settled S P (w.suspend p mask).trap b.k := by
  obtain ⟨hat, hres, -, -, hgood⟩ := h.at hp hstep.1
  have hphase := (begins_phase hbegins).1
  refine h.step_at hstep hp (fun _ => Iff.rfl) (fun q hq hne => setTrap_ne w _ hne) ?_
  intro q hq hpid hz
  obtain ⟨r, hr⟩ := Kern.discard_eq_some hstep.2
  unfold sysSigsuspend at hr
  simp only [hp] at hr
  have hcalm : (w.trap p.pid).phase.calm := hphase ▸ trivial
  -- the errors leave the process alone
  have herror : ∀ {r : ℤ}, w.k = b.k → Good S P { w.trap p.pid with phase := .returned r }
    (view q) := by
    intro r hk
    rw [← hk] at hq
    rw [h.toTable.eq_of_pid hq hat.mem hpid]
    exact hgood.proceed hres hcalm (.returned r) _ nofun
  simp only [World.suspend, setTrap_self]
  rcases mask with _ | _ | m
  · exact herror (Prod.ext_iff.mp hr).2
  · exact herror (Prod.ext_iff.mp hr).2
  · have hk : w.k.modify p.pid (Pcb.suspended m) = b.k := (Prod.ext_iff.mp hr).2
    rw [← hk] at hq
    obtain rfl := modified h.toTable hat.mem hq hpid
    refine ⟨fun _ _ => ⟨hres, _, rfl⟩, fun _ _ m he => ?_, fun _ e he => ?_, fun _ hu => hu.2.elim⟩
    · cases he
      exact ⟨rfl, rfl⟩
    · exact absurd (he.symm.trans (hgood.popped_none hres (hphase ▸ nofun))) nofun

theorem waits_calm {t : Trap} (h : t.waits pid options ustatus = true) : t.phase.calm := by
  unfold Trap.waits at h
  split at h
  · next hphase => exact hphase ▸ trivial
  · next hphase => exact hphase ▸ trivial
  · cases h

theorem settled_wait4 {r : WaitResult} (h : Settled S P w.trap w.k) (hp : w.k.currentProc = some p)
    (hwaits : (w.trap p.pid).waits pid options ustatus = true)
    (hstep : Proc.Step w.k (.call (.wait4 pid options ustatus)) b.k)
    (hpass : wait4Pass pid options w.k = (some r, b.k)) :
    Settled S P (w.waited p pid options ustatus r).trap b.k := by
  obtain ⟨hat, hres, -, hsig, hgood⟩ := h.at hp hstep.1
  refine h.step_at hstep hp (fun _ => Iff.rfl) (fun q hq hne => setTrap_ne w _ hne) ?_
  intro q hq hpid hz
  have hview := Settled.only (h.toSound.step hstep) (wait4_view h.toTable hsig hat hpass) q hq hpid
  simp only [World.waited, setTrap_self]
  rw [hview]
  refine hgood.proceed hres (waits_calm hwaits) _ _ ?_
  split <;> nofun

/-! ### The return to user mode -/

variable {path : RetPath} {copied done : Bool}

theorem atCheck_ecall (p : Pcb) {ret : ℤ} (origA0 : BitVec 64) (h : ret ≠ -ERESTARTSYS) :
    (p.atCheck (.ecall ret origA0)).tf = setAt p.tf TF_A0 (BitVec.ofInt 64 ret) := by
  unfold Pcb.atCheck
  dsimp only
  rw [if_neg fun hc => h hc.2]

theorem Good.atCheck_popped (h : Good S P t (view p)) (hres : p.resume = .trap)
    (hleaves : t.leaves p done path = true) (hpop : t.popped = some e)
    (he : EntryOk S P e) (hP : P) :
    SameRegs (p.atCheck path).tf e.context.tf := by
  obtain ⟨hecall, hphase, hregs, -⟩ := h.popped (inKernel_trap hres) e hpop
  cases path with
  | checked | fault =>
    rw [Trap.leaves, hecall] at hleaves
    cases hleaves
  | ecall ret origA0 =>
    simp only [Trap.leaves, Trap.gives, hphase, Bool.and_eq_true, decide_eq_true_eq] at hleaves
    obtain ⟨-, rfl⟩ := hleaves
    have hne : ¬ (e.context.tf TF_A0).toInt = -ERESTARTSYS := by
      intro he'
      refine (he.plain hP).1 ?_
      rw [← he', BitVec.ofInt_toInt]
    rw [atCheck_ecall p origA0 hne, BitVec.ofInt_toInt]
    intro i hi hs
    by_cases ha : i = TF_A0
    · rw [ha]
      exact setAt_same _ _ _
    · rw [setAt_ne _ _ ha]
      exact hregs hP i hi hs

theorem SigOk.atCheck (h : SigOk p) : SigOk (p.atCheck path) := by
  rw [atCheck_eq]
  exact h

theorem SigOk.halted (h : SigOk p) : SigOk p.halted := h

theorem restoreMask_active (p : Pcb) : p.restoreMask.sigSuspendActive = false := by
  rw [restoreMask_eq]

theorem stopped_view {S : ℕ → Prop} (h : SigOk p) (hs : Sent S (p.atCheck path).halted q) :
    view q = ⟨(p.atCheck path).tf, p.resume, p.sigSuspendActive, p.sigSuspendSavedMask,
      p.sigBlocked⟩ := by
  rw [Sent.view_eq hs (SigOk.halted (SigOk.atCheck h))]
  conv_lhs => rw [Pcb.halted, atCheck_eq]
  rfl

theorem Good.left (h : Good S P t (view p)) (hres : p.resume = .trap) (huser : p.isUser = true)
    (hsig : SigOk p) (hleaves : t.leaves p done path = true)
    (hentry : ∀ e, t.popped = some e → EntryOk S P e)
    (hstop : S → p.sigSuspendActive = true → ¬ (p.atCheck path).stops)
    (hleft : Left path copied p q)
    (hz : q.state ≠ .zombie) : Good S P t (view q) := by
  cases hleft with
  | kernel hk => exact absurd (huser.symm.trans hk) nofun
  | plain _ _ => exact .outside id fun _ => restoreMask_active _
  | handler _ => exact .outside id fun _ => rfl
  | @stopped q hstops hs =>
    have hview := stopped_view hsig hs
    have hblocked : q.sigBlocked = p.sigBlocked := congrArg View.blocked hview
    have hactive : q.sigSuspendActive = p.sigSuspendActive := congrArg View.active hview
    have htf : q.tf = (p.atCheck path).tf := congrArg View.tf hview
    refine ⟨fun hS ha => ?_, fun hS _ m hm => ?_, fun _ e he => ?_, fun hr => absurd hr nofun⟩
    · exact absurd hstops (hstop hS (hactive.symm.trans ha))
    · exact absurd hstops (hstop hS (h.saved hS (inKernel_trap hres) m hm).1)
    · obtain ⟨h1, h2, -, h4⟩ := h.popped (inKernel_trap hres) e he
      refine ⟨h1, h2, fun hP => ?_, fun hS => hblocked.trans (h4 hS)⟩
      have hregs := h.atCheck_popped hres hleaves he (hentry e he) hP
      rw [← htf] at hregs
      exact hregs
  | dead hd _ => exact absurd hd hz

theorem strip_eq (h : ∀ s, Unblockable s → m.getLsbD s = false) : strip m = m := by
  refine BitVec.eq_of_getLsbD_eq fun i hi => ?_
  by_cases hu : Unblockable i
  · rw [h i hu, strip_getLsbD m hu]
  · obtain ⟨hkill, hstop⟩ := not_or.mp hu
    rw [strip, BitVec.getLsbD_and, BitVec.getLsbD_not, unmaskable, BitVec.getLsbD_or,
      sigBit_getLsbD hi,
      sigBit_getLsbD hi]
    simp [hi, hkill, hstop]

theorem Trap.mask_suspended (h : t.phase = .suspended m) (c : Pcb) : t.mask c = m := by
  rw [Trap.mask, h]

theorem Trap.mask_blocked (h : ∀ m, t.phase ≠ .suspended m) (c : Pcb) :
    t.mask c = c.sigBlocked := by
  unfold Trap.mask
  split
  · next m hm => exact absurd hm (h m)
  · rfl

theorem Good.mask (h : Good S P t (view p)) (hres : p.resume = .trap) (hS : S) :
    (sigframe (p.atCheck path)).savedMask = t.mask (p.atCheck path) := by
  have hcheck : (p.atCheck path).sigSuspendActive = p.sigSuspendActive ∧
      (p.atCheck path).sigSuspendSavedMask = p.sigSuspendSavedMask := by
    rw [atCheck_eq]
    exact ⟨rfl, rfl⟩
  unfold sigframe
  dsimp only
  rw [hcheck.1, hcheck.2]
  by_cases hsusp : ∃ m, t.phase = .suspended m
  · obtain ⟨m, hm⟩ := hsusp
    obtain ⟨hactive, hsaved⟩ := h.saved hS (inKernel_trap hres) m hm
    have hactive : p.sigSuspendActive = true := hactive
    rw [if_pos hactive, Trap.mask_suspended hm]
    exact hsaved
  · have hne : ∀ m, t.phase ≠ .suspended m := fun m hm => hsusp ⟨m, hm⟩
    have hinactive : p.sigSuspendActive = false := h.inactive_of_phase hne hS
    rw [if_neg (by simp [hinactive]), Trap.mask_blocked hne]

theorem Trap.restart_none {c : Pcb} (hpop : t.popped = none)
    (h : t.restart path c sig = some regs) : t.untouched ∧ regs = t.regs ∧
      (c.sigHandlers sig).flags &&& SA_RESTART ≠ 0 ∧
        ∃ origA0, path = .ecall (-ERESTARTSYS) origA0 := by
  unfold Trap.restart at h
  rw [hpop] at h
  unfold Trap.untouched
  split at h
  · contradiction
  · next hphase =>
    split at h
    · next hc =>
      cases h
      exact ⟨⟨hpop, hphase ▸ trivial⟩, rfl, hc.2, _, by rw [hc.1]⟩
    · cases h
  · next hphase =>
    split at h
    · next hc =>
      cases h
      exact ⟨⟨hpop, hphase ▸ trivial⟩, rfl, hc.2, _, by rw [hc.1]⟩
    · cases h
  · cases h

theorem Good.replayed (h : Good S P t (view p)) (hres : p.resume = .trap)
    (hleaves : t.leaves p done path = true) (hpop : t.popped = none)
    (hsig : (p.atCheck path).handles copied = some sig)
    (hrestart : t.restart path (p.atCheck path) sig = some regs) : (p.atCheck path).tf = regs := by
  obtain ⟨huntouched, rfl, hflag, origA0, rfl⟩ := Trap.restart_none hpop hrestart
  have hhandlers : (p.atCheck (.ecall (-ERESTARTSYS) origA0)).sigHandlers = p.sigHandlers := by
    rw [atCheck_eq]
  rw [hhandlers] at hflag
  simp only [Trap.leaves, Bool.and_eq_true, decide_eq_true_eq] at hleaves
  obtain ⟨⟨hecall, rfl⟩, -⟩ := hleaves
  have hentry : p.tf = entryFrame t.ecall t.regs := h.entry hres huntouched
  rw [atCheck_restart hsig hflag, hentry, hecall]
  funext i
  simp only [entryFrame, if_true, setAt]
  split_ifs with h1 h2
  · rw [h1]
  · rw [h2]
    simp
  · rfl

theorem Good.pushed (h : Good S P (w.trap p.pid) (view p)) (hres : p.resume = .trap)
    (hsig : SigOk p) (hleaves : (w.trap p.pid).leaves p done path = true)
    (hentry : ∀ e, (w.trap p.pid).popped = some e → EntryOk S P e)
    (hplain : P → e.context.tf TF_A0 ≠ BitVec.ofInt 64 (-ERESTARTSYS) ∧
    badReturn e.context.tf = false)
    (he : w.pushed p path copied = some e) : EntryOk S P e := by
  obtain ⟨sig, hhandles, rfl⟩ := Option.map_eq_some_iff.mp he
  have hok : SigOk (p.atCheck path) := SigOk.atCheck hsig
  refine ⟨fun hS => ?_, hplain, fun hP regs hregs => ?_, fun hS m hm => ?_⟩
  · dsimp only
    rw [← h.mask hres hS]
    refine strip_eq fun s hs => ?_
    unfold sigframe
    dsimp only
    split
    · next ha => exact (hok s hs).2.1 ha
    · exact (hok s hs).1
  · rcases hpop : (w.trap p.pid).popped with _ | e
    · dsimp only
      rw [h.replayed hres hleaves hpop hhandles hregs]
      exact fun _ _ _ => rfl
    · have hrestart : e.restart = some regs := by
        unfold Trap.restart at hregs
        rw [hpop] at hregs
        exact hregs
      exact (h.atCheck_popped hres hleaves hpop (hentry e hpop) hP).trans
        ((hentry e hpop).restart hP regs hrestart)
  · dsimp only at hm ⊢
    unfold Trap.owed at hm
    split at hm
    · next hphase =>
      rw [Trap.mask_suspended hphase]
      exact Option.some.inj hm
    · next hphase =>
      obtain ⟨e, hpop, howed⟩ := Option.bind_eq_some_iff.mp hm
      have hblocked : (p.atCheck path).sigBlocked = p.sigBlocked := by
        rw [atCheck_eq]
      obtain ⟨-, -, -, hmask⟩ := h.popped (inKernel_trap hres) e hpop
      rw [Trap.mask_blocked hphase, hblocked]
      exact (hmask hS).trans ((hentry e hpop).owed hS m howed)

theorem leave_trap (w : World) (p : Pcb) (path : RetPath) (copied : Bool) :
    (w.leave p path copied).trap = w.trap := by
  unfold World.leave
  split <;> rfl

theorem settled_ret (h : Settled S P w.trap w.k) (hf : Framed S P w)
    (hp : w.k.currentProc = some p) (hleaves : (w.trap p.pid).leaves p done path = true)
    (hstop : S → p.sigSuspendActive = true → ¬ (p.atCheck path).stops)
    (hstep : Proc.Step w.k (.ret path copied) b.k) : Settled S P w.trap b.k := by
  obtain ⟨hat, hres, huser, hsig, hgood⟩ := h.at hp hstep.1
  refine h.step_at hstep hp (fun _ => Iff.rfl) (fun _ _ _ => rfl) fun q hq hpid hz => ?_
  have hleft := Settled.only (h.toSound.step hstep) (trapReturn_left hat hstep.2) q hq hpid
  exact hgood.left hres huser hsig hleaves (fun e he => hf.entries p.pid e (.inr he)) hstop hleft hz

theorem framed_ret (h : Settled S P w.trap w.k) (hf : Framed S P w)
    (hp : w.k.currentProc = some p) (hr : runsAt w.k .trap)
    (hleaves : (w.trap p.pid).leaves p done path = true)
    (hclear : ∀ e ∈ w.pushed p path copied, ∀ e' ∈ w.frames p.pid, Apart
    (8 * FRAME_WORDS) e'.va e.va)
    (hplain : P → ∀ e ∈ w.pushed p path copied,
      e.context.tf TF_A0 ≠ BitVec.ofInt 64 (-ERESTARTSYS) ∧ badReturn e.context.tf = false) :
    Framed S P (w.leave p path copied) := by
  obtain ⟨hat, hres, -, hsig, hgood⟩ := h.at hp hr
  unfold World.leave
  split
  · exact hf
  next e he =>
  have hentry : EntryOk S P e :=
    hgood.pushed hres hsig hleaves (fun e he => hf.entries p.pid e (.inr he))
      (fun hP => hplain hP e he) he
  obtain ⟨sig, -, hframe⟩ := Option.map_eq_some_iff.mp he
  have hcontext : e.context = ⟨(p.atCheck path).tf, (w.trap p.pid).mask (p.atCheck path)⟩ := by
    rw [← hframe]
  refine ⟨fun pid => ?_, fun pid e' he' => ?_⟩
  · by_cases hpid : pid = p.pid
    · subst hpid
      simp only [setPid_same]
      refine (hf.frames p.pid).push rfl ?_ (fun hS => ?_) (hclear e he)
      · rw [hcontext]
        rfl
      · rw [hgood.mask hres hS, hcontext]
    · simp only [setPid_ne _ _ hpid]
      exact hf.frames pid
  · by_cases hpid : pid = p.pid
    · subst hpid
      simp only [setPid_same, mem_cons, or_assoc] at he'
      rcases he' with rfl | he'
      · exact hentry
      · exact hf.entries p.pid e' he'
    · simp only [setPid_ne _ _ hpid] at he'
      exact hf.entries pid e' he'

/-! ### Runs -/

variable {w' : World} {l : Label}

theorem framed_takeDown {e : Entry} (h : Framed S P w) (htop : w.topFrame p = some e) :
    Framed S P (w.takeDown p) := by
  obtain ⟨fs, hfs, -⟩ := topFrame_mem htop
  have hold := h.frames p.pid
  rw [hfs] at hold
  have hframes : (w.takeDown p).frames p.pid = fs := by
    simp [World.takeDown, htop, hfs]
  refine ⟨fun pid => ?_, fun pid e' he' => ?_⟩
  · by_cases hpid : pid = p.pid
    · rw [hpid, hframes]
      exact hold.tail
    · have hne : (w.takeDown p).frames pid = w.frames pid := setPid_ne _ _ hpid
      rw [hne]
      exact h.frames pid
  · by_cases hpid : pid = p.pid
    · rw [hpid, hframes] at he'
      refine h.entries p.pid e' (.inl ?_)
      rw [hfs]
      rcases he' with he' | he'
      · exact mem_cons_of_mem _ he'
      · simp only [World.takeDown, setPid_same, htop] at he'
        cases he'
        exact mem_cons_self
    · have h1 : (w.takeDown p).frames pid = w.frames pid := setPid_ne _ _ hpid
      have h2 : (w.takeDown p).trap pid = w.trap pid := setPid_ne _ _ hpid
      rw [h1, h2] at he'
      exact h.entries pid e' he'

theorem framed_store {a : BitVec 64} {b : BitVec 8} (h : Framed S P w)
    (hok : Normal w (.store pid a b)) : Framed S P (w.store pid a b) := by
  refine ⟨fun q => ?_, h.entries⟩
  by_cases hq : q = pid
  · subst hq
    simp only [World.store, setPid_same]
    refine (h.frames q).congr fun e he i hi => wordAt_congr (fun c hc => ?_) hi
    have hne : c ≠ a := by
      rintro rfl
      exact absurd (hok e he) (by omega)
    exact Function.update_of_ne hne _ _
  · simp only [World.store, setPid_ne _ _ hq]
    exact h.frames q

theorem Inv.step (h : Inv S P w) (hok : Ok S P w l) (hstep : Step w l w') : Inv S P w' := by
  obtain ⟨hs, hf⟩ := h
  obtain ⟨hnormal, hclear, hplain, hstop⟩ := hok
  cases hstep with
  | @base l b hallow hstep =>
    refine ⟨?_, hf.step l b⟩
    rw [step_k]
    exact settled_base hs hallow hstep
  | enter hp hstep =>
    exact ⟨settled_enter hs hp (kern_step hstep), Framed.setBase (hf.setTrap (.inl rfl)) _⟩
  | @sigreturn p b hp hbegins hstep =>
    obtain ⟨e, he⟩ := Option.isSome_iff_exists.mp (hnormal p hp)
    exact ⟨settled_sigreturn hs hf hp hbegins he (kern_step hstep),
      Framed.setBase (framed_takeDown hf he) b⟩
  | @sigsuspend p mask b hp hbegins hstep =>
    refine ⟨settled_sigsuspend hs hp hbegins (kern_step hstep), ?_⟩
    exact Framed.setBase (w := w.suspend p mask) (hf.setTrap (.inr rfl)) b
  | @wait4 p pid options ustatus r b hp hwaits hstep hpass =>
    refine ⟨settled_wait4 hs hp hwaits (kern_step hstep) hpass, ?_⟩
    exact Framed.setBase (w := w.waited p pid options ustatus r) (hf.setTrap (.inr rfl)) b
  | @ret p path copied b hp hleaves hstep =>
    refine ⟨?_, Framed.setBase ?_ b⟩
    · have hret := settled_ret hs hf hp hleaves (fun hS => hstop hS p hp) (kern_step hstep)
      rw [← leave_trap w p path copied] at hret
      exact hret
    · exact framed_ret hs hf hp (kern_step hstep).1 hleaves (hclear p hp) fun hP => hplain hP p hp
  | store => exact ⟨hs, framed_store hf hnormal⟩

theorem Inv.boot (hpid : 0 < pid) (entry sp : BitVec 64) : Inv S P (bootWorld pid entry sp) where
  settled := by
    refine ⟨Sound.boot hpid entry sp, fun p hp => ?_⟩
    have hsig := (boot_sigOk pid entry sp).all p hp
    obtain rfl := mem_singleton.mp hp
    exact ⟨rfl, hsig, fun _ => .outside id fun _ => rfl⟩
  framed := ⟨fun _ => .nil _, fun pid e he => by
    rcases he with he | he
    · exact absurd he not_mem_nil
    · exact absurd he nofun⟩

theorem Inv.reaches {entry sp : BitVec 64} (hpid : 0 < pid)
    (h : Reaches Step (Ok S P) (bootWorld pid entry sp) w) : Inv S P w :=
  h.invariant (Inv.boot hpid entry sp) fun _ _ _ hi hok hstep => hi.step hok hstep

end Sbunix.Signal
