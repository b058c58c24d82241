import Sbunix.Lib.Count
import Sbunix.Proc.TableSpec

/-!
# Counting descriptors

The reference count of an open file against the descriptor slots that point at
it. In the middle of a call the two differ by a balance, which each operation
on files and slots moves by one; a call ends where it began.
-/

namespace Sbunix.Proc

open List Lib.Kern Lib

/-- The number of slots from `i` on, `n` of them, that point at `f`. -/
def slotsAt (ofile : ℕ → Option ℕ) (f i n : ℕ) : ℕ :=
  (List.range' i n).countP fun fd => ofile fd = some f

/-- The number of descriptor slots of `p` that point at `f`. -/
def Pcb.slots (f : ℕ) (p : Pcb) : ℕ := slotsAt p.ofile f 0 NOFILE

/-- The number of descriptor slots over all processes that point at `f`. -/
def refs (k : Kernel) (f : ℕ) : ℕ := (k.procs.map (Pcb.slots f)).sum

/-- A close-on-exec bit is set only for an open descriptor, unless the process is
a zombie. -/
def CloexecOk (p : Pcb) : Prop :=
  p.state ≠ .zombie → ∀ fd, p.cloexecMask.getLsbD fd = true → (p.ofile fd).isSome = true

def points (o : Option ℕ) : ℕ → ℤ := fun f => if o = some f then 1 else 0

@[simp] theorem points_none : points none = 0 := rfl

theorem slotsAt_succ (ofile : ℕ → Option ℕ) (f i n : ℕ) :
    (slotsAt ofile f i (n + 1) : ℤ) = points (ofile i) f + slotsAt ofile f (i + 1) n := by
  unfold slotsAt points
  rw [range'_succ, countP_cons]
  by_cases h : ofile i = some f
  · simp [h]
    omega
  · simp [h]

variable {fd : ℕ}

theorem slotsAt_setAt_lt (ofile : ℕ → Option ℕ) (v : Option ℕ) (f : ℕ) {i : ℕ} (n : ℕ)
    (h : fd < i) :
    slotsAt (setAt ofile fd v) f i n = slotsAt ofile f i n := by
  refine countP_congr fun j hj => ?_
  have := (mem_range'_1.mp hj).1
  rw [setAt_ne _ _ (by omega)]

theorem slotsAt_setAt (ofile : ℕ → Option ℕ) (v : Option ℕ) (f : ℕ) {i n : ℕ} (h1 : i ≤ fd)
    (h2 : fd < i + n) :
    (slotsAt (setAt ofile fd v) f i n : ℤ) + points (ofile fd) f = slotsAt ofile f i n +
    points v f := by
  induction n generalizing i with
  | zero => omega
  | succ n ih =>
    rw [slotsAt_succ, slotsAt_succ]
    by_cases he : fd = i
    · subst he
      rw [slotsAt_setAt_lt _ _ _ _ (Nat.lt_add_one fd), setAt_same]
      omega
    · have := ih (i := i + 1) (by omega) (by omega)
      rw [setAt_ne _ _ (Ne.symm he)]
      omega

theorem slots_setFd (p : Pcb) (v : Option ℕ) (f : ℕ) (h : fd < NOFILE) :
    ((p.setFd fd v).slots f : ℤ) + points (p.ofile fd) f = p.slots f + points v f :=
  slotsAt_setAt p.ofile v f (Nat.zero_le fd) (by omega)

/-! ### The invariant -/

/-- The counts are right up to the balance `b`, and the close-on-exec bits are
right for every process but `x`. -/
structure FdInv (b : ℕ → ℤ) (x : Option ℤ) (k : Kernel) : Prop extends Table k where
  balance : ∀ f, ((k.ftable f).refcnt : ℤ) = refs k f + b f
  free : ∀ f, (k.ftable f).type = .none → (k.ftable f).refcnt = 0
  cloexec : ∀ p ∈ k.procs, some p.pid ≠ x → CloexecOk p

/-- The process has the same descriptors. -/
structure SameFd (p q : Pcb) : Prop where
  pid : q.pid = p.pid
  ofile : q.ofile = p.ofile
  mask : q.cloexecMask = p.cloexecMask
  zombie : p.state = .zombie → q.state = .zombie
  used : p.state ≠ .unused → q.state ≠ .unused

variable {S : ℕ → Prop} {u : Unit}

namespace SameFd

variable {p q : Pcb}

theorem refl (p : Pcb) : SameFd p p := ⟨rfl, rfl, rfl, id, id⟩

theorem of_state (hpid : q.pid = p.pid) (hofile : q.ofile = p.ofile)
    (hmask : q.cloexecMask = p.cloexecMask) (hstate : q.state = p.state) : SameFd p q :=
  ⟨hpid, hofile, hmask, fun h => hstate.trans h, fun h => hstate.trans_ne h⟩

theorem of_quiet (h : Quiet True p q) : SameFd p q :=
  ⟨h.pid, (h.fds trivial).1, (h.fds trivial).2, h.state.zombie.mpr,
    fun hu he => hu (h.state.unused.mp he)⟩

theorem of_sent (h : Sent S p q) : SameFd p q := by
  have hw : Woken p.state q.state := h.state
  have hofile : q.ofile = p.ofile := by rw [h.frame]
  have hmask : q.cloexecMask = p.cloexecMask := by rw [h.frame]
  exact ⟨h.pid, hofile, hmask, hw.zombie.mpr, fun hu he => hu (hw.unused.mp he)⟩

theorem slots (h : SameFd p q) (f : ℕ) : q.slots f = p.slots f := by
  unfold Pcb.slots
  rw [h.ofile]

theorem cloexec (h : SameFd p q) (hp : CloexecOk p) : CloexecOk q := by
  intro hz fd hb
  rw [h.ofile]
  rw [h.mask] at hb
  exact hp (fun he => hz (h.zombie he)) fd hb

end SameFd

variable {b d : ℕ → ℤ} {x : Option ℤ} {k k' : Kernel} {pid : ℤ} {p : Pcb}

theorem refs_same (h : List.Forall₂ SameFd k.procs k'.procs) (f : ℕ) : refs k' f = refs k f := by
  unfold refs
  generalize k.procs = l, k'.procs = l' at h
  induction h with
  | nil => rfl
  | cons hd _ ih => rw [map_cons, map_cons, sum_cons, sum_cons, ih, hd.slots f]

theorem FdInv.transport (h : FdInv b x k) (hprocs : List.Forall₂ SameFd k.procs k'.procs)
    (hcount : ∀ f, ((k'.ftable f).refcnt : ℤ) = (k.ftable f).refcnt + d f)
    (hfree : ∀ f, (k'.ftable f).type = .none → (k'.ftable f).refcnt = 0) : FdInv (b + d) x k' where
  toTable := h.toTable.forall₂ (fun _ _ hs => ⟨hs.pid, hs.used⟩) hprocs
  balance f := by
    rw [hcount f, h.balance f, refs_same hprocs f, Pi.add_apply]
    ring
  free := hfree
  cloexec q hq hx := by
    obtain ⟨p, hp, hs⟩ := forall₂_mem hprocs hq
    exact hs.cloexec (h.cloexec p hp (hs.pid ▸ hx))

theorem FdInv.same (h : FdInv b x k) (hprocs : List.Forall₂ SameFd k.procs k'.procs)
    (hfiles : k'.ftable = k.ftable) : FdInv b x k' := by
  have := h.transport (d := 0) hprocs (fun f => by rw [hfiles]; simp) (fun f hf => by
    rw [hfiles] at hf ⊢
    exact h.free f hf)
  rwa [add_zero] at this

theorem FdInv.quiet (h : FdInv b x k) (hq : QuietAll True k k') : FdInv b x k' :=
  h.same (hq.procs.imp fun _ _ => SameFd.of_quiet) (hq.files trivial).1

theorem FdInv.sends (h : FdInv b x k) (hs : Sends S k k') : FdInv b x k' :=
  h.same (hs.procs.imp fun _ _ => SameFd.of_sent) (by rw [hs.frame])

variable {g : Pcb → Pcb} {f i rf wf : ℕ} {r : ℤ}

theorem forall₂_modify {R : Pcb → Pcb → Prop} (hrefl : ∀ q, R q q)
    (hg : ∀ q ∈ k.procs, q.pid = pid → R q (g q)) :
    List.Forall₂ R k.procs (k.modify pid g).procs := by
  refine forall₂_map_right_iff.mpr (forall₂_same.mpr fun q hq => ?_)
  split
  · next h => exact hg q hq h
  · exact hrefl q

theorem FdInv.modify_same (h : FdInv b x k) (hg : ∀ q, SameFd q (g q)) :
    FdInv b x (k.modify pid g) :=
  h.same (forall₂_modify SameFd.refl fun q _ _ => hg q) rfl

section

variable (h : FdInv b x k) (hp : k.find pid = some p) (hpid : ∀ q, (g q).pid = q.pid)
  (hused : ∀ q, q.state ≠ .unused → (g q).state ≠ .unused)

include h hp hpid hused

theorem FdInv.modify {b' : ℕ → ℤ} (hx : some pid = x ∨ CloexecOk (g p))
    (hb : ∀ f, b' f + ((g p).slots f : ℤ) = b f + (p.slots f : ℤ)) :
    FdInv b' x (k.modify pid g) := by
  obtain ⟨hmem, rfl⟩ := Kernel.find_mem hp
  refine ⟨h.toTable.modify fun q => ⟨hpid q, hused q⟩, fun f => ?_, h.free, ?_⟩
  · have hsum := sum_map_replace (Pcb.slots f) g h.nodup hmem
    have hrefs : refs (k.modify p.pid g) f + p.slots f = refs k f + (g p).slots f := hsum
    have hcount : (((k.modify p.pid g).ftable f).refcnt : ℤ) = refs k f + b f := h.balance f
    have := hb f
    omega
  · intro q hq hqx
    obtain ⟨r, hr, rfl⟩ := Kernel.mem_modify.mp hq
    by_cases hrp : r.pid = p.pid
    · obtain rfl := h.toTable.eq_of_pid hr hmem hrp
      rw [if_pos rfl] at hqx ⊢
      rw [hpid] at hqx
      exact hx.resolve_left hqx
    · rw [if_neg hrp] at hqx ⊢
      exact h.cloexec r hr hqx

theorem FdInv.setBits
    (hofile : (g p).ofile = p.ofile) (hok : CloexecOk (g p)) : FdInv b x (k.modify pid g) := by
  refine h.modify hp hpid hused (.inr hok) fun f => ?_
  unfold Pcb.slots
  rw [hofile]

end

theorem CloexecOk.setFd_some (h : CloexecOk p) (fd f : ℕ) : CloexecOk (p.setFd fd (some f)) := by
  intro hz j hj
  change (setAt p.ofile fd (some f) j).isSome = true
  by_cases he : j = fd
  · rw [he, setAt_same]
    rfl
  · rw [setAt_ne _ _ he]
    exact h hz j hj

theorem FdInv.setFd {v : Option ℕ} (h : FdInv b x k)
    (hp : k.find pid = some p) (hfd : fd < NOFILE) (hpid : ∀ q, (g q).pid = q.pid)
    (hused : ∀ q, q.state ≠ .unused → (g q).state ≠ .unused)
    (hofile : (g p).ofile = setAt p.ofile fd v) (hx : some pid = x ∨ CloexecOk (g p)) :
    FdInv (b + points (p.ofile fd) - points v) x (k.modify pid g) := by
  refine h.modify hp hpid hused hx fun f => ?_
  have hslots : (g p).slots f = (p.setFd fd v).slots f := by
    unfold Pcb.slots
    rw [hofile]
    rfl
  have := slots_setFd p v f hfd
  rw [hslots]
  simp only [Pi.add_apply, Pi.sub_apply]
  omega

/-! ### Files -/

theorem FdInv.setFile (h : FdInv b x k) (hw : List.Forall₂ SameFd k.procs k'.procs) {y : File}
    (hfiles : k'.ftable = setAt k.ftable i y) (hfree : y.type = .none → y.refcnt = 0)
    (hcount : ∀ f, points (some i) f * ((y.refcnt : ℤ) - (k.ftable i).refcnt) = d f) :
    FdInv (b + d) x k' := by
  refine h.transport hw (fun f => ?_) fun f hf => ?_
  · rw [hfiles, ← hcount f]
    unfold points
    by_cases he : f = i
    · subst he
      simp
    · rw [setAt_ne _ _ he, if_neg fun h => he (Option.some.inj h).symm]
      ring
  · rw [hfiles] at hf ⊢
    by_cases he : f = i
    · subst he
      rw [setAt_same] at hf ⊢
      exact hfree hf
    · rw [setAt_ne _ _ he] at hf ⊢
      exact h.free f hf

theorem same_refl (l : List Pcb) :
    List.Forall₂ SameFd l l := forall₂_same.mpr fun p _ => SameFd.refl p

theorem firstBelow_some {P : ℕ → Bool} {n : ℕ} (h : firstBelow P n = some i) :
    i < n ∧ P i = true ∧ ∀ j < i, P j = false := by
  unfold firstBelow at h
  refine ⟨mem_range.mp (mem_of_find?_eq_some h), find?_some h, fun j hj => ?_⟩
  have := (find?_range_eq_some.mp h).2.2 j hj
  simpa using this

theorem filealloc_fd {r : Option ℕ} (h : FdInv b x k) (he : filealloc k = (some r, k')) :
    FdInv (b + points r) x k' := by
  unfold filealloc at he
  split at he
  · cases he
    rw [points_none, add_zero]
    exact h
  next i hi =>
  cases he
  have hnone : (k.ftable i).type = .none := by simpa using (firstBelow_some hi).2.1
  refine h.setFile (same_refl _) rfl nofun fun f => ?_
  rw [h.free i hnone]
  simp

theorem filedup_fd (h : FdInv b x k) (he : filedup f k = (some u, k')) :
    FdInv (b + points (some f)) x k' := by
  unfold filedup at he
  split at he
  · cases he
  next hlt =>
  cases he
  refine h.setFile (same_refl _) rfl (fun hnone => ?_) fun g => by push_cast; ring
  exact absurd (h.free f hnone) (by omega)

theorem pipeClose_same (k : Kernel) (i : ℕ) (w : Bool) :
    List.Forall₂ SameFd k.procs (pipeClose k i w).procs ∧ (pipeClose k i w).ftable = k.ftable :=
  ⟨(pipeClose_wakes k i w).procs.imp fun _ _ => SameFd.of_sent, rfl⟩

theorem fileclose_fd (h : FdInv b x k) (he : fileclose f k = (some u, k')) :
    FdInv (b - points (some f)) x k' := by
  have hw : List.Forall₂ SameFd k.procs k'.procs :=
    (fileclose_rel wakes_files f k u k' he).procs.imp fun _ _ => SameFd.of_sent
  unfold fileclose at he
  dsimp only at he
  split at he
  · cases he
  next hlt =>
  rw [sub_eq_add_neg]
  have hcount : ∀ y : File, y.refcnt = (k.ftable f).refcnt - 1 → ∀ g,
      points (some f) g * ((y.refcnt : ℤ) - (k.ftable f).refcnt) = (-points (some f)) g := by
    intro y hy g
    rw [hy, Nat.cast_sub (by omega), Pi.neg_apply]
    push_cast
    ring
  split at he
  · next hz =>
    cases he
    -- the entry is written twice: the count, then the type
    refine h.setFile (y := { k.ftable f with type := .none, refcnt := (k.ftable f).refcnt - 1 }) hw
      ?_
      (fun _ => hz) (hcount _ rfl)
    unfold fileRelease
    dsimp only
    have hfiles : ∀ k₀ : Kernel, k₀.ftable = setAt k.ftable f
        { k.ftable f with refcnt := (k.ftable f).refcnt - 1 } → setAt k₀.ftable f
          { k.ftable f with type := .none, refcnt := (k.ftable f).refcnt - 1 } =
        setAt k.ftable f { k.ftable f with type := .none, refcnt := (k.ftable f).refcnt - 1 } := by
      intro k₀ hk₀
      funext j
      by_cases hj : j = f
      · rw [hj, setAt_same, setAt_same]
      · rw [setAt_ne _ _ hj, setAt_ne _ _ hj, hk₀, setAt_ne _ _ hj]
    simp only [Kernel.setFile, setAt_same]
    apply hfiles
    split
    · exact (pipeClose_same _ _ _).2
    · rfl
  · next hz =>
    cases he
    exact h.setFile hw rfl (fun hnone => absurd (h.free f hnone) (by omega)) (hcount _ rfl)

/-! ### Slots -/

/-- The lowest free descriptor of `p`. -/
def LowestFree (p : Pcb) (fd : ℕ) : Prop :=
  fd < NOFILE ∧ p.ofile fd = none ∧ ∀ j < fd, (p.ofile j).isSome = true

theorem freeFd_lowest (h : freeFd p = some fd) : LowestFree p fd := by
  obtain ⟨hlt, hnone, hbelow⟩ := firstBelow_some h
  refine ⟨hlt, by simpa using hnone, fun j hj => ?_⟩
  simpa [Option.isSome_iff_ne_none] using hbelow j hj

theorem Wakes.find (h : Wakes k k') (hp : k.find pid = some p) :
    ∃ q, k'.find pid = some q ∧ SameFd p q :=
  forall₂_find SameFd.pid (h.procs.imp fun _ _ => SameFd.of_sent) hp

theorem FdInv.cloexec_find (h : FdInv b none k) (hp : k.find pid = some p) : CloexecOk p :=
  h.cloexec p (Kernel.find_mem hp).1 nofun

theorem allocFd_run {r : Option ℕ} (he : allocFd pid f k = (some r, k')) :
    (r = none ∧ k' = k) ∨ ∃ fd p, r = some fd ∧ k.find pid = some p ∧ LowestFree p fd ∧
      k' = k.modify pid fun p => p.setFd fd (some f) := by
  unfold allocFd at he
  split at he
  · cases he
    exact .inl ⟨rfl, rfl⟩
  · next fd hfd =>
    cases he
    obtain ⟨p, hp, hfree⟩ := Option.bind_eq_some_iff.mp hfd
    exact .inr ⟨fd, p, rfl, hp, freeFd_lowest hfree, rfl⟩

theorem FdInv.fill (h : FdInv (b + points (some f)) none k) (hp : k.find pid = some p)
    (hfree : LowestFree p fd) : FdInv b none (k.modify pid fun p => p.setFd fd (some f)) := by
  have := h.setFd (v := some f) (g := fun p => p.setFd fd (some f)) hp hfree.1 (fun _ => rfl)
    (fun _ => id) rfl (.inr ((h.cloexec_find hp).setFd_some fd f))
  rwa [hfree.2.1, points_none, add_zero, add_sub_cancel_right] at this

/-! ### Close-on-exec bits -/

theorem bit_getLsbD {j : ℕ} (hj : j < 64) : (1#64 <<< fd).getLsbD j = decide (j = fd) :=
  sigBit_getLsbD hj

theorem CloexecOk.clearCloexec (h : CloexecOk p) (fd : ℕ) : CloexecOk (p.clearCloexec fd) := by
  intro hz j hj
  refine h hz j ?_
  simp only [Pcb.clearCloexec, BitVec.getLsbD_and, Bool.and_eq_true] at hj
  exact hj.1

theorem CloexecOk.setCloexec (h : CloexecOk p) (ho : (p.ofile fd).isSome = true) :
    CloexecOk (p.setCloexec fd) := by
  intro hz j hj
  simp only [Pcb.setCloexec, BitVec.getLsbD_or, Bool.or_eq_true] at hj
  rcases hj with hj | hj
  · exact h hz j hj
  · rw [bit_getLsbD (BitVec.lt_of_getLsbD hj)] at hj
    exact of_decide_eq_true hj ▸ ho

theorem CloexecOk.closed (h : CloexecOk p) (fd : ℕ) (v : Option ℕ) :
    CloexecOk ((p.setFd fd v).clearCloexec fd) := by
  intro hz j hj
  change (p.cloexecMask &&& ~~~sigBit fd).getLsbD j = true at hj
  rw [dropBit_getLsbD _ _ (BitVec.lt_of_getLsbD hj), Bool.and_eq_true] at hj
  have hne : j ≠ fd := by simpa using hj.2
  change (setAt p.ofile fd v j).isSome = true
  rw [setAt_ne _ _ hne]
  exact h hz j hj.1

/-! ### The calls -/

theorem openFd_some {fd : ℤ} (h : openFd k fd = some (p, f)) :
    k.currentProc = some p ∧ fd.toNat < NOFILE ∧ p.ofile fd.toNat = some f := by
  unfold openFd at h
  split at h
  · cases h
  next q hq =>
  split at h
  · cases h
  next hrange =>
  obtain ⟨g, hg, heq⟩ := Option.map_eq_some_iff.mp h
  cases heq
  refine ⟨hq, ?_, hg⟩
  unfold NOFILE at *
  omega

theorem LowestFree.same {q : Pcb} (h : LowestFree q fd) (hs : SameFd p q) : LowestFree p fd := by
  unfold LowestFree at *
  rwa [hs.ofile] at h

/-- The end of a call that makes a descriptor: the file gets the lowest free slot, or is given back.
-/
theorem install_run {post : ℕ → Kern Kernel ℤ} (he : (do
      match ← allocFd pid f with
      | none => do
        fileclose f
        pure (-EMFILE)
      | some fd => post fd) k = (some r, k')) :
    (r < 0 ∧ fileclose f k = (some (), k')) ∨ ∃ fd p, k.find pid = some p ∧ LowestFree p fd ∧
      post fd (k.modify pid fun p => p.setFd fd (some f)) = (some r, k') := by
  rw [bind_eq_some] at he
  obtain ⟨fd, k₁, hfd, he⟩ := he
  rcases allocFd_run hfd with ⟨rfl, rfl⟩ | ⟨fd, p, rfl, hp, hfree, rfl⟩
  · dsimp only at he
    obtain ⟨⟨⟩, k₂, hclose, he⟩ := bind_eq_some.mp he
    cases he
    exact .inl ⟨by decide, hclose⟩
  · exact .inr ⟨fd, p, hp, hfree, he⟩

section

variable (h : FdInv 0 none k)
include h

theorem doOpen_spec {res : Except ℤ Unit} {flags : BitVec 32}
    (he : doOpen res flags k = (some r, k')) :
    FdInv 0 none k' ∧ (res = .ok () → 0 ≤ r → ∀ p, k.currentProc = some p → ∃ fd : ℕ, r = fd ∧
      LowestFree p fd) := by
  unfold doOpen at he
  rw [get_bind] at he
  rcases hp : k.currentProc with _ | p
  · simp only [hp] at he
    cases he
    exact ⟨h, fun _ _ _ hp' => absurd hp' (by simp)⟩
  simp only [hp] at he
  rw [Kern.ite_apply] at he
  split at he
  · cases he
    exact ⟨h, fun _ hr => absurd hr (by decide)⟩
  rcases res with rc | ⟨⟩
  · cases he
    exact ⟨h, nofun⟩
  dsimp only at he
  obtain ⟨f, k₁, halloc, he⟩ := bind_eq_some.mp he
  have h1 := filealloc_fd h halloc
  rcases f with _ | f
  · cases he
    exact ⟨by simpa using h1, fun _ hr => absurd hr (by decide)⟩
  dsimp only at he
  rcases install_run he with ⟨hr, hclose⟩ | ⟨fd, q, hq, hfree, he⟩
  · exact ⟨by simpa using fileclose_fd h1 hclose, fun _ h0 => absurd h0 hr.not_ge⟩
  have h2 := h1.fill hq hfree
  obtain ⟨q', hq', hsame⟩ := (filealloc_rel wakes_files k _ k₁ halloc).find (currentProc_find hp)
  cases hq.symm.trans hq'
  have hlow : ∀ p', some p = some p' → LowestFree p' fd := by
    rintro _ ⟨⟩
    exact hfree.same hsame
  rw [Kern.ite_apply] at he
  split at he
  · rw [modify_bind] at he
    cases he
    have hp₂ := modify_find (g := fun p => p.setFd fd (some f)) (fun _ => rfl) hq
    exact ⟨h2.setBits hp₂ (fun _ => rfl) (fun _ => id) rfl
      ((h2.cloexec_find hp₂).setCloexec (by simp [Pcb.setFd])),
        fun _ _ p' hp' => ⟨fd, rfl, hlow p' hp'⟩⟩
  · cases he
    exact ⟨h2, fun _ _ p' hp' => ⟨fd, rfl, hlow p' hp'⟩⟩

theorem sysClose_fd {fd : ℤ} (he : sysClose fd k = (some r, k')) :
    FdInv 0 none k' := by
  unfold sysClose at he
  rw [get_bind] at he
  rcases hfd : openFd k fd with _ | ⟨p, f⟩
  · simp only [hfd] at he
    cases he
    exact h
  simp only [hfd] at he
  obtain ⟨hp, hlt, hf⟩ := openFd_some hfd
  obtain ⟨⟨⟩, k₁, hclose, he⟩ := bind_eq_some.mp he
  rw [modify_bind] at he
  cases he
  obtain ⟨p₁, hp₁, hsame⟩ := (fileclose_rel wakes_files f k _ k₁ hclose).find (currentProc_find hp)
  have h1 := fileclose_fd h hclose
  have h2 := h1.setFd (v := none) (g :=
    fun p => (p.setFd fd.toNat none).clearCloexec fd.toNat) hp₁ hlt
    (fun _ => rfl) (fun _ => id) rfl (.inr ((h1.cloexec_find hp₁).closed _ _))
  rw [hsame.ofile, hf] at h2
  simpa using h2

theorem sysDup_spec {fd : ℤ} (he : sysDup fd k = (some r, k')) :
    FdInv 0 none k' ∧ (0 ≤ r → ∀ p, k.currentProc = some p → ∃ fd' : ℕ, r = fd' ∧
      LowestFree p fd') := by
  unfold sysDup at he
  rw [get_bind] at he
  rcases hfd : openFd k fd with _ | ⟨p, f⟩
  · simp only [hfd] at he
    cases he
    exact ⟨h, fun hr => absurd hr (by decide)⟩
  simp only [hfd] at he
  have hp := (openFd_some hfd).1
  rw [Kern.ite_apply] at he
  split at he
  · cases he
    exact ⟨h, fun hr => absurd hr (by decide)⟩
  obtain ⟨⟨⟩, k₁, hdup, he⟩ := bind_eq_some.mp he
  have h1 := filedup_fd h hdup
  rcases install_run he with ⟨hr, hclose⟩ | ⟨fd', q, hq, hfree, he⟩
  · exact ⟨by simpa using fileclose_fd h1 hclose, fun h0 => absurd h0 hr.not_ge⟩
  have h2 := h1.fill hq hfree
  rw [modify_bind] at he
  cases he
  have hp₂ := modify_find (g := fun p => p.setFd fd' (some f)) (fun _ => rfl) hq
  refine ⟨h2.setBits hp₂ (fun _ => rfl) (fun _ => id) rfl ((h2.cloexec_find hp₂).clearCloexec _),
    fun _ p' hp' => ?_⟩
  cases hp.symm.trans hp'
  obtain ⟨q', hq', hsame⟩ := (filedup_rel wakes_files f k _ k₁ hdup).find (currentProc_find hp)
  cases hq.symm.trans hq'
  exact ⟨fd', rfl, hfree.same hsame⟩

theorem dup2Onto_fd {newfd : ℕ} (hp : k.find pid = some p)
    (hlt : newfd < NOFILE) (he : dup2Onto pid f (p.ofile newfd) newfd k = (some r, k')) :
    FdInv 0 none k' := by
  unfold dup2Onto at he
  have hclose : ∃ k₁ p₁, FdInv (0 - points (p.ofile newfd)) none k₁ ∧ k₁.find pid = some p₁ ∧
      SameFd p p₁ ∧ (do
        filedup f
        Kern.modify fun k => k.modify pid fun p => (p.setFd newfd (some f)).clearCloexec newfd
        pure (newfd : ℤ)) k₁ = (some r, k') := by
    rcases ho : p.ofile newfd with _ | g
    · simp only [ho] at he
      refine ⟨k, p, ?_, hp, SameFd.refl p, he⟩
      simpa using h
    · simp only [ho] at he
      obtain ⟨⟨⟩, k₁, hclose, he⟩ := bind_eq_some.mp he
      obtain ⟨p₁, hp₁, hsame⟩ := (fileclose_rel wakes_files g k _ k₁ hclose).find hp
      exact ⟨k₁, p₁, fileclose_fd h hclose, hp₁, hsame, he⟩
  obtain ⟨k₁, p₁, h1, hp₁, hsame₁, he⟩ := hclose
  obtain ⟨⟨⟩, k₂, hdup, he⟩ := bind_eq_some.mp he
  rw [modify_bind] at he
  cases he
  obtain ⟨p₂, hp₂, hsame₂⟩ := (filedup_rel wakes_files f k₁ _ k₂ hdup).find hp₁
  have h2 := filedup_fd h1 hdup
  have h3 := h2.setFd (v := some f) (g :=
    fun p => (p.setFd newfd (some f)).clearCloexec newfd) hp₂ hlt
    (fun _ => rfl) (fun _ => id) rfl (.inr ((h2.cloexec_find hp₂).closed _ _))
  rw [hsame₂.ofile, hsame₁.ofile] at h3
  have hzero : 0 - points (p.ofile newfd) + points (some f) + points (p.ofile newfd) - points
      (some f) = 0 := by
    ring
  rwa [hzero] at h3

theorem sysDup2_fd {oldfd newfd : ℤ}
    (he : sysDup2 oldfd newfd k = (some r, k')) : FdInv 0 none k' := by
  unfold sysDup2 at he
  rw [get_bind] at he
  rcases hfd : openFd k oldfd with _ | ⟨p, f⟩
  · simp only [hfd] at he
    cases he
    exact h
  simp only [hfd] at he
  split_ifs at he with hrange
  any_goals
    cases he
    exact h
  have hlt : newfd.toNat < NOFILE := by
    unfold NOFILE at *
    omega
  exact dup2Onto_fd h (currentProc_find (openFd_some hfd).1) hlt he

theorem sysFcntlSetfd_fd {fd : ℤ} {arg : BitVec 64}
    (he : sysFcntlSetfd fd arg k = (some r, k')) : FdInv 0 none k' := by
  unfold sysFcntlSetfd at he
  rw [get_bind] at he
  rcases hfd : openFd k fd with _ | ⟨p, f⟩
  · simp only [hfd] at he
    cases he
    exact h
  simp only [hfd] at he
  obtain ⟨hp, -, hf⟩ := openFd_some hfd
  rw [modify_bind] at he
  cases he
  have hp' := currentProc_find hp
  have hok := h.cloexec_find hp'
  refine h.setBits hp' (fun q => by split <;> rfl) (fun q hq => by split <;> exact hq)
    (by split <;> rfl) ?_
  split
  · exact hok.setCloexec (by rw [hf]; rfl)
  · exact hok.clearCloexec _

end

/-! ### Pipes -/

theorem pipeOpen_fd (h : FdInv b x k) : FdInv b x (pipeOpen k i rf wf) := by
  have hset : ∀ {k : Kernel} (f : ℕ) (w : Bool), FdInv b x k →
      FdInv b x (k.setFile f { k.ftable f with type := .pipe, writable := w, pipe := i }) := by
    intro k f w h
    have hset : FdInv (b + 0) x
        (k.setFile f { k.ftable f with type := .pipe, writable := w, pipe := i }) :=
      h.setFile (same_refl _) rfl nofun fun g => by simp
    rwa [add_zero] at hset
  have h0 : FdInv b x (k.setPipe i { readopen := true, writeopen := true }) :=
    h.same (same_refl _) rfl
  exact hset wf true (hset rf false h0)

theorem pipeAlloc_fd {r : Option (ℕ × ℕ)} (h : FdInv b x k) (he : pipeAlloc k = (some r, k')) :
    FdInv (b + points (r.map Prod.fst) + points (r.map Prod.snd)) x k' := by
  unfold pipeAlloc at he
  rw [get_bind] at he
  rcases hpool : pipePoolAlloc k with _ | i
  · simp only [hpool] at he
    cases he
    simpa using h
  simp only [hpool] at he
  obtain ⟨rf, k₁, hrf, he⟩ := bind_eq_some.mp he
  have h1 := filealloc_fd h hrf
  rcases rf with _ | rf
  · cases he
    simpa using h1
  dsimp only at he
  obtain ⟨wf, k₂, hwf, he⟩ := bind_eq_some.mp he
  have h2 := filealloc_fd h1 hwf
  rcases wf with _ | wf
  · dsimp only at he
    obtain ⟨⟨⟩, k₃, hclose, he⟩ := bind_eq_some.mp he
    cases he
    simpa using fileclose_fd h2 hclose
  · dsimp only at he
    rw [modify_bind] at he
    cases he
    exact pipeOpen_fd h2

variable {r : ℤ × Option (ℕ × ℕ)}

theorem closeEnds_spec {e : ℤ}
    (h : FdInv (0 + points (some rf) + points (some wf)) none k)
    (he : (do
      fileclose rf
      fileclose wf
      pure (e, none) : Kern Kernel (ℤ × Option (ℕ × ℕ))) k = (some r, k')) : FdInv 0 none k' ∧
        r.2 = none := by
  obtain ⟨⟨⟩, k₁, h1, he⟩ := bind_eq_some.mp he
  obtain ⟨⟨⟩, k₂, h2, he⟩ := bind_eq_some.mp he
  cases he
  have hzero : 0 + points (some rf) + points (some wf) - points (some rf) - points
      (some wf) = 0 := by
    ring
  exact ⟨hzero ▸ fileclose_fd (fileclose_fd h h1) h2, rfl⟩

theorem modify_modify {g' : Pcb → Pcb} (k : Kernel) (pid : ℤ) (hg : ∀ q, (g q).pid = q.pid) :
    (k.modify pid g).modify pid g' = k.modify pid fun q => g' (g q) := by
  unfold Kernel.modify
  dsimp only
  rw [map_map]
  congr 1
  refine map_congr_left fun q _ => ?_
  simp only [Function.comp_apply]
  by_cases h : q.pid = pid
  · rw [if_pos h, if_pos ((hg q).trans h), if_pos h]
  · rw [if_neg h, if_neg h, if_neg h]

theorem FdInv.modify_find (h : FdInv b x k) (hp : k.find pid = some p)
    (hg : SameFd p (g p)) : FdInv b x (k.modify pid g) := by
  obtain ⟨hmem, rfl⟩ := Kernel.find_mem hp
  refine h.same (forall₂_modify SameFd.refl fun q hq hpid => ?_) rfl
  rw [h.toTable.eq_of_pid hq hmem hpid]
  exact hg

theorem SameFd.refilled (h : p.ofile fd = none) (v : Option ℕ) :
    SameFd p ((p.setFd fd v).setFd fd none) := by
  refine SameFd.of_state rfl ?_ rfl rfl
  funext j
  simp only [Pcb.setFd, setAt]
  split_ifs with hj
  · rw [hj, h]
  · rfl

theorem SameFd.refilled_pair {fd' : ℕ} (h : p.ofile fd = none) (h' : p.ofile fd' = none)
    (v w : Option ℕ) :
    SameFd p ((((p.setFd fd v).setFd fd' w).setFd fd none).setFd fd' none) := by
  unfold Pcb.setFd
  dsimp only
  refine SameFd.of_state rfl ?_ rfl rfl
  funext j
  simp only [setAt]
  split_ifs with h1 h0
  · rw [h1, h']
  · rw [h0, h]
  · rfl

def LowestPair (p : Pcb) (r : ℤ × Option (ℕ × ℕ)) : Prop :=
  ∀ fd0 fd1, r.2 = some (fd0, fd1) → LowestFree p fd0 ∧ ∃ f, LowestFree (p.setFd fd0 (some f)) fd1

theorem LowestPair.none (h : r.2 = .none) : LowestPair p r := by
  intro fd0 fd1 hr
  cases h.symm.trans hr

theorem pipeInstall_spec {copied : Bool}
    (h : FdInv (0 + points (some rf) + points (some wf)) none k) (hp : k.find pid = some p)
    (he : pipeInstall pid rf wf copied k = (some r, k')) : FdInv 0 none k' ∧ LowestPair p r := by
  unfold pipeInstall at he
  rw [bind_eq_some] at he
  obtain ⟨fd0, k₁, hfd0, he⟩ := he
  rcases allocFd_run hfd0 with ⟨rfl, rfl⟩ | ⟨fd0, q, rfl, hq, hfree0, rfl⟩
  · exact (closeEnds_spec h he).imp_right .none
  cases hp.symm.trans hq
  dsimp only at he
  have hcomm : 0 + points (some rf) + points (some wf) = 0 + points (some wf) +
      points (some rf) := by
    ring
  have h1 : FdInv (0 + points (some wf)) none (k.modify pid fun p => p.setFd fd0 (some rf)) :=
    FdInv.fill (hcomm ▸ h) hp hfree0
  have hp₁ := modify_find (g := fun p => p.setFd fd0 (some rf)) (fun _ => rfl) hp
  obtain ⟨fd1, k₂, hfd1, he⟩ := bind_eq_some.mp he
  rcases allocFd_run hfd1 with ⟨rfl, rfl⟩ | ⟨fd1, p₁, rfl, hp₁', hfree1, rfl⟩
  · dsimp only at he
    rw [modify_bind] at he
    refine (closeEnds_spec ?_ he).imp_right .none
    rw [modify_modify (g := fun p => p.setFd fd0 (some rf)) _ _ fun _ => rfl]
    exact h.modify_find hp (SameFd.refilled hfree0.2.1 _)
  dsimp only at he
  cases hp₁.symm.trans hp₁'
  rw [Kern.ite_apply] at he
  split at he
  · cases he
    refine ⟨h1.fill hp₁ hfree1, ?_⟩
    rintro _ _ ⟨⟩
    exact ⟨hfree0, rf, hfree1⟩
  · rw [modify_bind] at he
    refine (closeEnds_spec ?_ he).imp_right .none
    have hne : fd1 ≠ fd0 := by
      rintro rfl
      have := hfree1.2.1
      simp [Pcb.setFd] at this
    have hnone : p.ofile fd1 = none := by
      have hfree : setAt p.ofile fd0 (some rf) fd1 = none := hfree1.2.1
      rwa [setAt_ne _ _ hne] at hfree
    rw [modify_modify (g := fun p => p.setFd fd0 (some rf)) _ _ fun _ => rfl,
      modify_modify (g := fun p => (p.setFd fd0 (some rf)).setFd fd1 (some wf)) _ _ fun _ => rfl]
    exact h.modify_find hp (SameFd.refilled_pair hfree0.2.1 hnone _ _)

theorem sysPipe_spec {fds : Option Bool} (h : FdInv 0 none k)
    (he : sysPipe fds k = (some r, k')) :
    FdInv 0 none k' ∧ ∀ p, k.currentProc = some p → LowestPair p r := by
  unfold sysPipe at he
  rcases fds with _ | copied
  · cases he
    exact ⟨h, fun _ _ => .none rfl⟩
  dsimp only at he
  rw [get_bind] at he
  rcases hp : k.currentProc with _ | p
  · simp only [hp] at he
    cases he
    exact ⟨h, fun _ _ => .none rfl⟩
  simp only [hp] at he
  rw [Kern.ite_apply] at he
  split at he
  · cases he
    exact ⟨h, fun _ _ => .none rfl⟩
  obtain ⟨ends, k₁, halloc, he⟩ := bind_eq_some.mp he
  have h1 := pipeAlloc_fd h halloc
  rcases ends with _ | ⟨rf, wf⟩
  · cases he
    exact ⟨by simpa using h1, fun _ _ => .none rfl⟩
  obtain ⟨q, hq, hsame⟩ := (pipeAlloc_rel wakes_files k _ k₁ halloc).find (currentProc_find hp)
  obtain ⟨h', hlow⟩ := pipeInstall_spec h1 hq he
  refine ⟨h', ?_⟩
  rintro _ ⟨⟩ fd0 fd1 hr
  obtain ⟨h0, f, h1⟩ := hlow fd0 fd1 hr
  have hset : SameFd (p.setFd fd0 (some f)) (q.setFd fd0 (some f)) :=
    ⟨hsame.pid, by simp only [Pcb.setFd, hsame.ofile], hsame.mask, hsame.zombie, hsame.used⟩
  exact ⟨h0.same hsame, f, h1.same hset⟩

end Sbunix.Proc
