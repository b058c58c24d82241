import Sbunix.Pipe.Wakeup

/-!
# Atomic writes and partial reads

A write that finds room for all its bytes stores them without sleeping, so they
are contiguous in the pipe's stream. A read sleeps with bytes in hand exactly when
its chunks empty the pipe before the request is met.
-/

namespace Sbunix.Pipe

open List Option Lib Proc

/-! ### Where the bytes of a call go -/

/-- What a call with the tag `t` adds to the streams and to the suspended writes. -/
structure Adds (t : Option Tag) (w w' : World) : Prop where
  stored : ∀ i, ∃ bs, w'.stored i = w.stored i ++ bs ∧ ∀ x ∈ bs, some x.1 = t
  io : ∀ q c j n i, w'.io q = some (.write c j n i) → w.io q = some (.write c j n i) ∨
    some c.tag = t
  calls : w'.calls = w.calls

variable {pid : ℤ} {t : Option Tag} {w w' w'' : World}

theorem Adds.refl (t : Option Tag) (w : World) : Adds t w w :=
  ⟨fun _ => ⟨[], (append_nil _).symm, nofun⟩, fun _ _ _ _ _ => .inl, rfl⟩

theorem Adds.trans (h : Adds t w w') (h' : Adds t w' w'') : Adds t w w'' where
  stored i := by
    obtain ⟨bs, e, hbs⟩ := h.stored i
    obtain ⟨bs', e', hbs'⟩ := h'.stored i
    refine ⟨bs ++ bs', by rw [e', e, append_assoc], fun x hx => ?_⟩
    rcases mem_append.mp hx with hx | hx
    · exact hbs x hx
    · exact hbs' x hx
  io q c j n i hio := by
    rcases h'.io q c j n i hio with e | e
    · exact h.io q c j n i e
    · exact .inr e
  calls := h'.calls.trans h.calls

theorem Adds.store (t : Tag) (w : World) (j : ℕ) (b : ℕ → UInt8) (a z : ℕ) (r : Ring UInt8 32) :
    Adds (some t) w (w.store j (tagged t b a z) r) where
  stored i := by
    by_cases hi : i = j
    · subst hi
      exact ⟨_, setAt_same _ _ _, fun x hx => congrArg some (tagged_tag hx)⟩
    · exact ⟨[], (setAt_ne _ _ hi).trans (append_nil _).symm, nofun⟩
  io _ _ _ _ _ := .inl
  calls := rfl

theorem Adds.setIo (w : World) (pid : ℤ) {x : Io}
    (hx : ∀ c j n i, x = .write c j n i → some c.tag = t) : Adds t w (w.setIo pid x) where
  stored _ := ⟨[], (append_nil _).symm, nofun⟩
  io q c j n i hio := by
    by_cases hq : q = pid
    · rw [hq] at hio
      simp only [World.setIo, setPid_same, Option.some.injEq] at hio
      exact .inr (hx c j n i hio)
    · simp only [World.setIo, setPid_ne _ _ hq] at hio
      exact .inl hio
  calls := rfl

theorem Adds.finish (w : World) (pid : ℤ) (value : ℤ) (bytes : List UInt8) :
    Adds t w (w.finish pid value bytes) where
  stored _ := ⟨[], (append_nil _).symm, nofun⟩
  io q c j n i hio := by
    by_cases hq : q = pid
    · rw [hq] at hio
      simp only [World.finish, setPid_same] at hio
      cases hio
    · simp only [World.finish, setPid_ne _ _ hq] at hio
      exact .inl hio
  calls := rfl

theorem Adds.of_eq (hstored : w'.stored = w.stored) (hio : w'.io = w.io)
    (hcalls : w'.calls = w.calls) :
    Adds t w w' :=
  ⟨fun _ => ⟨[], by rw [hstored, append_nil], nofun⟩, fun _ _ _ _ _ h => .inl (hio ▸ h), hcalls⟩

theorem Act.adds (h : Act pid t w w') : Adds t w w' := by
  cases h with
  | took _ => exact .of_eq rfl rfl rfl
  | @waits _ i n c _ _ =>
    have hsleep : Adds none w (w.sleepOn pid i) := .of_eq rfl rfl rfl
    exact hsleep.trans (.setIo _ pid nofun)
  | @wrote t _ j m i i' b r _ =>
    have hwake : Adds (some t) (w.store j (tagged t b i i') r)
      ((w.store j (tagged t b i i') r).wakeup j) := .of_eq rfl rfl rfl
    exact (Adds.store t w _ _ _ _ _).trans hwake
  | @fills _ j m i i' n b r c _ =>
    have hsleep : Adds (some c.tag) (w.store j (tagged c.tag b i i') r)
        (((w.store j (tagged c.tag b i i') r).wakeup j).sleepOn pid j) := .of_eq rfl rfl rfl
    refine ((Adds.store _ w _ _ _ _ _).trans hsleep).trans (.setIo _ pid ?_)
    rintro _ _ _ _ ⟨⟩
    rfl
  | @broke t _ j m i i' b r _ =>
    have hsend : Adds (some t) (w.store j (tagged t b i i') r)
      { w.store j (tagged t b i i') r with k := sendSignal w.k pid SIGPIPE } := .of_eq rfl rfl rfl
    exact (Adds.store t w _ _ _ _ _).trans hsend
  | finish value bytes => exact .finish w pid value bytes

theorem Acts.adds (h : Acts pid t w w') : Adds t w w' := by
  induction h with
  | refl => exact .refl t w
  | tail _ ha ih => exact ih.trans ha.adds

/-! ### Contiguous writes -/

/-- The bytes of every write of at most `PIPE_BUF` bytes are next to each other. -/
def Contiguous (s : List (Tag × UInt8)) : Prop :=
  ∀ (a b c : ℕ) (x y z : Tag × UInt8), a < b → b < c → s[a]? = some x → s[b]? = some y →
    s[c]? = some z →
    x.1 = z.1 → x.1.len ≤ PIPE_BUF → y.1 = x.1

theorem Contiguous.append {s bs : List (Tag × UInt8)} {t : Tag} (h : Contiguous s)
    (hbs : ∀ x ∈ bs, x.1 = t) (ht : PIPE_BUF < t.len ∨ ∀ x ∈ s, x.1 ≠ t) :
    Contiguous (s ++ bs) := by
  intro a b c x y z hab hbc hx hy hz hxz hlen
  by_cases hc : c < s.length
  · rw [getElem?_append_left (by omega)] at hx hy hz
    exact h a b c x y z hab hbc hx hy hz hxz hlen
  · rw [getElem?_append_right (by omega)] at hz
    have hzt : z.1 = t := hbs z (mem_of_getElem? hz)
    by_cases ha : a < s.length
    · rw [getElem?_append_left ha] at hx
      rcases ht with ht | ht
      · rw [hxz, hzt] at hlen
        omega
      · exact absurd (hxz.trans hzt) (ht x (mem_of_getElem? hx))
    · rw [getElem?_append_right (by omega)] at hx hy
      rw [hbs y (mem_of_getElem? hy), hbs x (mem_of_getElem? hx)]

/-- A write of at most `PIPE_BUF` bytes begins with room for all of them. -/
def Roomy (w : World) : Label → Prop
  | .write fd len _ _ => len ≤ PIPE_BUF → ∀ pid i b, w.k.current = some pid →
    w.pipeFd pid fd = some (i, b) → (w.ring i).count + len ≤ PIPESIZE
  | _ => True

/-- The streams are contiguous, their calls are past, and only large writes sleep. -/
structure Blocks (w : World) : Prop where
  contiguous : ∀ i, Contiguous (w.stored i)
  past : ∀ i, ∀ x ∈ w.stored i, x.1.call < w.calls
  large : ∀ pid c j n i, w.io pid = some (.write c j n i) → PIPE_BUF < c.len ∧ c.call < w.calls

variable {fuel n : ℕ} {b : Bool} {l : Label}

theorem Blocks.adds {t : Tag} (h : Blocks w) (ha : Adds (some t) w w') (hcall : t.call < w.calls)
    (ht : PIPE_BUF < t.len ∨ ∀ i, ∀ x ∈ w.stored i, x.1 ≠ t)
    (hio : ∀ q c j n i, w'.io q = some (.write c j n i) → PIPE_BUF < c.len ∧ c.call < w.calls) :
    Blocks w' := by
  refine ⟨fun i => ?_, fun i x hx => ?_, fun q c j n i hq => ?_⟩
  · obtain ⟨bs, e, hbs⟩ := ha.stored i
    rw [e]
    exact (h.contiguous i).append (fun x hx => Option.some.inj (hbs x hx))
      (ht.imp_right fun h => h i)
  · obtain ⟨bs, e, hbs⟩ := ha.stored i
    rw [ha.calls]
    rw [e] at hx
    rcases mem_append.mp hx with hx | hx
    · exact h.past i x hx
    · rw [Option.some.inj (hbs x hx)]
      exact hcall
  · rw [ha.calls]
    exact hio q c j n i hq

theorem Blocks.read (h : Blocks w) (ha : Adds none w w') : Blocks w' := by
  have hstored : ∀ i, w'.stored i = w.stored i := by
    intro i
    obtain ⟨bs, e, hbs⟩ := ha.stored i
    rcases bs with _ | ⟨x, bs⟩
    · rw [e, append_nil]
    · exact absurd (hbs x mem_cons_self) nofun
  refine ⟨fun i => hstored i ▸ h.contiguous i, fun i x hx => ?_, fun q c j n i hq => ?_⟩
  · rw [ha.calls]
    exact h.past i x (hstored i ▸ hx)
  · rw [ha.calls]
    rcases ha.io q c j n i hq with e | e
    · exact h.large q c j n i e
    · cases e

@[simp] theorem pipeFd_wakeup (w : World) (i : ℕ) (pid : ℤ) (fd : ℕ) :
    (w.wakeup i).pipeFd pid fd = w.pipeFd pid fd := by
  have hfind : ((w.wakeup i).k.find pid).bind (·.ofile fd) = (w.k.find pid).bind (·.ofile fd) := by
    simp only [World.wakeup, procWakeupChan, Kernel.modifyAll, Kernel.find, find?_map, bind_map]
    have hpid : ∀ p : Pcb, (if p.state = .sleeping ∧ p.sleepChan = some i then
        { p with state := .ready } else p).pid = p.pid := by
      intro p
      split <;> rfl
    have hofile : ∀ p : Pcb, (if p.state = .sleeping ∧ p.sleepChan = some i then
        { p with state := .ready } else p).ofile = p.ofile := by
      intro p
      split <;> rfl
    simp only [Function.comp_def, hpid, hofile]
  unfold World.pipeFd
  rw [hfind]
  rfl

theorem writeLoop_roomy {c : WriteCall} {j : ℕ}
    (hfd : w.pipeFd pid c.fd = some (j, b))
    (hroom : (w.ring j).count + (c.len - c.done) ≤ PIPESIZE) :
    (writeLoop pid fuel c w).io pid = none := by
  have hfinish : ∀ (w : World) (v : ℤ) (bs : List UInt8), (w.finish pid v bs).io pid = none :=
    fun w v bs => setPid_same _ _ _
  induction fuel generalizing c w with
  | zero => exact hfinish _ _ _
  | succ fuel ih =>
    unfold writeLoop
    split
    · exact hfinish _ _ _
    next hlt =>
    dsimp only
    split
    · exact hfinish _ _ _
    simp only [hfd]
    split
    · exact hfinish _ _ _
    unfold pipeWrite
    rcases hloop : storeLoop (w.k.pipes j).readopen (fun x => c.buf (c.done + x))
      (min (c.len - c.done) UIO_CHUNK - 0) 0 (w.ring j) with ⟨i', r, e⟩
    dsimp only
    have hs := storeLoop_spec (by omega) hloop
    have hstop := hs.stop
    have hcount := hs.count
    cases e with
    | all =>
      dsimp only [afterWrite]
      split
      · exact hfinish _ _ _
      split
      · exact hfinish _ _ _
      split
      · exact hfinish _ _ _
      refine ih ?_ ?_
      · rw [pipeFd_wakeup]
        exact hfd
      · have hring : ((w.store j (tagged c.tag (fun x => c.buf (c.done + x)) 0 i') r).wakeup j).ring
          j
            = r := setAt_same _ _ _
        rw [hring]
        have hall := hs.all rfl
        dsimp only
        omega
    | full =>
      obtain ⟨hfull, -, hless⟩ := hs.full rfl
      omega
    | broken =>
      dsimp only [afterWrite]
      rw [if_pos (by decide)]
      exact hfinish _ _ _

theorem Acts.io_other (h : Acts pid t w w') {q : ℤ} (hq : q ≠ pid) : w'.io q = w.io q := by
  induction h with
  | refl => rfl
  | tail _ ha ih =>
    rw [← ih]
    cases ha with
    | took _ => rfl
    | waits _ _ | fills _ | finish _ _ => exact setPid_ne _ _ hq
    | wrote _ => rfl
    | broke _ => rfl

theorem Blocks.step (h : Blocks w) (hok : Roomy w l) (hstep : Step w l w') : Blocks w' := by
  cases hstep with
  | @kern l k' _ _ =>
    refine ⟨fun i => ?_, fun i x hx => ?_, h.large⟩ <;> by_cases hi : cleared w.k l = some i
    · simp only [World.kern, hi, resetAt_same]
      intro a b c x y z _ _ hx
      simp at hx
    · simp only [World.kern, resetAt_ne _ _ hi]
      exact h.contiguous i
    · simp [World.kern, hi] at hx
    · simp only [World.kern, resetAt_ne _ _ hi] at hx
      exact h.past i x hx
  | read _ _ => exact h.read (readLoop_acts _ _ _).adds
  | @write pid fd len buf copyin hcall hfd =>
    have h0 : Blocks { w with calls := w.calls + 1 } :=
      ⟨h.contiguous, fun i x hx => (h.past i x hx).trans (Nat.lt_succ_self _),
        fun q c j n i hq => ⟨(h.large q c j n i hq).1,
          (h.large q c j n i hq).2.trans (Nat.lt_succ_self _)⟩⟩
    have hacts : Acts pid (some ⟨w.calls, len⟩) { w with calls := w.calls + 1 }
        (sysWrite pid ⟨fd, len, buf, copyin, 0, w.calls⟩ { w with calls := w.calls + 1 }) :=
      writeLoop_acts (c := ⟨fd, len, buf, copyin, 0, w.calls⟩) _ rfl _
    refine h0.adds hacts.adds (Nat.lt_succ_self _) (.inr fun i x hx he => ?_) fun q c j n i hq => ?_
    · have := h.past i x hx
      rw [he] at this
      exact absurd this (lt_irrefl _)
    · by_cases hqp : q = pid
      · subst hqp
        rcases hacts.adds.io q c j n i hq with e | e
        · exact h0.large q c j n i e
        · have htag : c.tag = ⟨w.calls, len⟩ := Option.some.inj e
          refine ⟨?_, (congrArg Tag.call htag).trans_lt (Nat.lt_succ_self _)⟩
          rw [show c.len = len from congrArg Tag.len htag]
          by_contra hle
          -- a small write that finds room does not sleep
          obtain ⟨⟨i₀, b⟩, hfd'⟩ := isSome_iff_exists.mp hfd
          have hroom := hok (by omega) q i₀ b hcall.2.1 hfd'
          have hnone : (sysWrite q ⟨fd, len, buf, copyin, 0, w.calls⟩
              { w with calls := w.calls + 1 }).io q = none := writeLoop_roomy hfd' hroom
          rw [hq] at hnone
          cases hnone
      · rw [hacts.io_other hqp] at hq
        exact h0.large q c j n i hq
  | @resumeRead p c i n _ _ _ =>
    have h0 : Blocks (w.awake p.pid) := ⟨h.contiguous, h.past, h.large⟩
    exact h0.read (resumeRead_acts _ _ _ _ _).adds
  | @resumeWrite p c j n i _ _ hio =>
    have h0 : Blocks (w.awake p.pid) := ⟨h.contiguous, h.past, h.large⟩
    obtain ⟨hlarge, hcall⟩ := h.large p.pid c j n i hio
    have hacts : Acts p.pid (some c.tag) (w.awake p.pid)
        (resumeWrite p.pid c j n i (sigHasActionable p) (w.awake p.pid)) :=
      resumeWrite_acts rfl _ _ _ _ _
    refine h0.adds hacts.adds hcall (.inl hlarge) fun q c' j' n' i' hq => ?_
    rcases hacts.adds.io q c' j' n' i' hq with e | e
    · exact h.large q c' j' n' i' e
    · have htag : c'.tag = c.tag := Option.some.inj e
      rw [show c'.len = c.len from congrArg Tag.len htag,
        show c'.call = c.call from congrArg Tag.call htag]
      exact ⟨hlarge, hcall⟩

/-- In every run in which each write of at most `PIPE_BUF` bytes finds room for all
of them, the bytes of such a write are contiguous in the stream of the pipe. -/
theorem small_writes_contiguous (pid : ℤ) (entry sp : BitVec 64) {w : World}
    (h : Reaches Step Roomy (bootWorld pid entry sp) w) (i : ℕ) : Contiguous (w.stored i) := by
  have hboot : Blocks (bootWorld pid entry sp) :=
    ⟨fun i a b c x y z _ _ hx => by simp [bootWorld] at hx, nofun, nofun⟩
  exact (h.invariant hboot fun _ _ _ hw hok hstep => hw.step hok hstep).contiguous i

/-- The condition can be checked. -/
def roomy (w : World) : Label → Bool
  | .write fd len _ _ =>
    match w.k.current with
    | none => true
    | some pid =>
      match w.pipeFd pid fd with
      | none => true
      | some (i, _) => (w.ring i).count + len ≤ PIPESIZE
  | _ => true

theorem roomy_iff (h : roomy w l = true) : Roomy w l := by
  cases l with
  | write fd len buf copyin =>
    intro _ pid i b hcur hfd
    simp only [roomy, hcur, hfd, decide_eq_true_eq] at h
    exact h
  | _ => trivial

/-- Two writes of one pipe, with a read between them. -/
theorem small_writes_contiguous_two : ∃ w,
    run roomy (pipeAndFork ++ [.write 4 3 (fun _ => 1) fun _ _ => true,
      .kern (.ret (.ecall 3 0) true), .kern (.enter fun _ => 0x10000), .read 3 2 fun _ _ => true,
      .kern (.ret (.ecall 2 0) true), .kern (.enter fun _ => 0x10000),
      .write 4 300 (fun _ => 2) fun _ _ => true]) (bootWorld 1 0x10000 0x20000) = some w ∧
    (w.stored 0).length = 303 ∧ Contiguous (w.stored 0) := by
  refine exists_end (P := fun w => (w.stored 0).length = 303) (by decide +kernel)
    fun w hw hlen => ⟨hlen, ?_⟩
  exact small_writes_contiguous 1 0x10000 0x20000 ((run_reaches hw).mono fun _ _ => roomy_iff) 0

/-- Init writes 513 bytes and sleeps; the child reads 256 of them and writes one
byte of its own before init goes on. -/
def writeInterleaved : List Label :=
  pipeAndFork ++ [.write 4 513 (fun _ => 1) fun _ _ => true, .kern (.dispatch 2),
    .kern (.enter fun _ => 0x10000), .read 3 256 fun _ _ => true, .kern (.ret (.ecall 256 0) true),
    .kern (.enter fun _ => 0x10000), .write 4 1 (fun _ => 2) fun _ _ => true,
    .kern (.ret (.ecall 1 0) true), .kern (.enter fun _ => 0x10000), .kern (.call .yield),
    .kern (.dispatch 1), .resume]

/-- The write of 513 bytes completes, and a byte of the other write is within. -/
theorem small_write_interleaved : ∃ w,
    run (fun _ _ => true) writeInterleaved (bootWorld 1 0x10000 0x20000) = some w ∧
    w.result 1 = some ⟨513, []⟩ ∧ ¬ Contiguous (w.stored 0) := by
  refine exists_end (P :=
    fun w => w.result 1 = some ⟨513, []⟩ ∧ (w.stored 0)[511]? = some (⟨0, 513⟩, 1) ∧
    (w.stored 0)[512]? = some (⟨1, 1⟩, 2) ∧ (w.stored 0)[513]? = some (⟨0, 513⟩, 1))
    (by decide +kernel) ?_
  rintro w - ⟨hres, h1, h2, h3⟩
  refine ⟨hres, fun hc => ?_⟩
  exact absurd (hc 511 512 513 _ _ _ (by decide) (by decide) h1 h2 h3 rfl (by decide)) (by decide)

/-! ### Partial reads -/

/-- A request of `len` bytes is not left unmet by whole chunks that empty the pipe. -/
def fits (w : World) (i len : ℕ) : Prop :=
  ¬ (0 < (w.ring i).count ∧ (w.ring i).count % UIO_CHUNK = 0 ∧ (w.ring i).count < len ∧
    (w.k.pipes i).writeopen = true)

/-- Every read goes to memory that can be written, and fits what the pipe holds when
it begins. A read of more than a chunk that slept goes on with less than a chunk. -/
def ReadsFit (w : World) : Label → Prop
  | .read fd len copyout => (∀ off n, copyout off n = true) ∧
    ∀ pid i b, w.k.current = some pid → w.pipeFd pid fd = some (i, b) → fits w i len
  | .resume => ∀ pid c i n, w.k.current = some pid → w.io pid = some (.read c i n) →
    c.len ≤ UIO_CHUNK ∨ (w.ring i).count < UIO_CHUNK
  | _ => True

/-- How `sys_read` on pipe `i` ends: the call is over and returns all it has taken,
or it sleeps and has taken nothing. -/
structure ReadEnd (pid : ℤ) (i : ℕ) (c : ReadCall) (bs : List UInt8) (w w' : World) : Prop where
  taken : w'.taken i = w.taken i ++ bs
  others : ∀ j, j ≠ i → w'.taken j = w.taken j
  ends : w'.io pid = none ∧
      (c.got ++ bs ≠ [] → w'.result pid = some ⟨(c.got ++ bs).length, c.got ++ bs⟩) ∨
    c.got ++ bs = [] ∧ w'.io pid = some (.read c i (min c.len UIO_CHUNK))

variable {i : ℕ} {c : ReadCall}

theorem ReadEnd.finish {v : ℤ} (hv : c.got ≠ [] → v = c.got.length) :
    ReadEnd pid i c [] w (w.finish pid v c.got) where
  taken := (append_nil _).symm
  others _ _ := rfl
  ends := by
    refine .inl ⟨setPid_same _ _ _, fun hne => ?_⟩
    rw [append_nil] at hne ⊢
    rw [← hv hne]
    exact setPid_same _ _ _

theorem ReadCall.failed_eq {r : ℤ} (h : c.got ≠ []) : c.failed r = c.got.length :=
  if_pos (length_pos_iff.mpr h)

theorem afterRead_end {next : ReadCall → World → World} (hcopy : ∀ off m, c.copyout off m = true)
    (hwait : (w.ring i).count = 0 → (w.k.pipes i).writeopen = true →
      c.got = [] ∧ n = min c.len UIO_CHUNK)
    (hnext : ∀ bs r, bs ≠ [] → bs.length = n → r.count + n = (w.ring i).count →
      ∃ bs', ReadEnd pid i { c with got := c.got ++ bs } bs' ((w.take i bs r).wakeup i)
        (next { c with got := c.got ++ bs } ((w.take i bs r).wakeup i))) :
    ∃ bs, ReadEnd pid i c bs w (afterRead next pid c i n (pipeRead pid i n w)) := by
  unfold pipeRead
  split
  · next hsleep =>
    obtain ⟨hgot, rfl⟩ := hwait ((Ring.count_eq_zero _).mpr hsleep.1) hsleep.2
    refine ⟨[], (append_nil _).symm, fun _ _ => rfl, .inr ⟨?_, setPid_same _ _ _⟩⟩
    rw [hgot, append_nil]
  rcases hloop : takeLoop n (w.ring i) with ⟨bs, r⟩
  obtain ⟨-, hcount, hlen⟩ := takeLoop_spec _ hloop
  have htaken : ((w.take i bs r).wakeup i).taken i = w.taken i ++ bs := setAt_same _ _ _
  have hothers : ∀ j, j ≠ i → ((w.take i bs r).wakeup i).taken j = w.taken j :=
    fun j hj => setAt_ne _ _ hj
  dsimp only [afterRead]
  split
  · next hbs =>
    subst hbs
    have h : ReadEnd pid i c [] ((w.take i [] r).wakeup i)
      (((w.take i [] r).wakeup i).finish pid c.got.length c.got) := .finish fun _ => rfl
    exact ⟨[], h.taken.trans (by rw [htaken, append_nil]), fun j hj => hothers j hj, h.ends⟩
  next hbs =>
  rw [hcopy, if_pos rfl]
  split
  · exact ⟨bs, htaken, hothers, .inl ⟨setPid_same _ _ _, fun _ => setPid_same _ _ _⟩⟩
  next hfull =>
  obtain ⟨bs', h'⟩ := hnext bs r hbs (by omega) (by omega)
  refine ⟨bs ++ bs', ?_, fun j hj => (h'.others j hj).trans (hothers j hj), ?_⟩
  · rw [h'.taken, htaken, append_assoc]
  · rw [← append_assoc]
    refine h'.ends.imp_right fun h => ?_
    -- a full chunk is not empty
    have hnil : c.got ++ bs ++ bs' = [] := h.1
    simp only [append_eq_nil_iff] at hnil
    exact absurd hnil.1.2 hbs

theorem chunk_fits {count len : ℕ} {opened : Bool}
    (hfit : ¬ (0 < count ∧ count % UIO_CHUNK = 0 ∧ count < len ∧ opened = true))
    (hn : n = min len UIO_CHUNK) (hpos : 0 < len) (hle : n ≤ count) :
    ¬ (0 < count - n ∧ (count - n) % UIO_CHUNK = 0 ∧ count - n < len - n ∧ opened = true) ∧
    (0 < count - n ∨ len - n = 0 ∨ opened = false) := by
  cases opened <;> simp only [UIO_CHUNK] at * <;> simp only [and_true, and_false, not_false_eq_true,
    or_true, Bool.true_eq_false, or_false, Bool.false_eq_true] at *
  omega

theorem readLoop_end (hcopy : ∀ off n, c.copyout off n = true)
    (hfd : w.pipeFd pid c.fd = some (i, b)) (hfuel : c.len - c.got.length ≤ fuel)
    (hfit : fits w i (c.len - c.got.length))
    (hmore : c.got ≠ [] → 0 < (w.ring i).count ∨ c.len - c.got.length = 0 ∨
      (w.k.pipes i).writeopen = false) :
    ∃ bs, ReadEnd pid i c bs w (readLoop pid fuel c w) := by
  induction fuel generalizing c w with
  | zero => exact ⟨[], .finish fun _ => rfl⟩
  | succ fuel ih =>
    unfold readLoop
    split
    · exact ⟨[], .finish fun _ => rfl⟩
    next hlt =>
    dsimp only
    simp only [hfd]
    split
    · exact ⟨[], .finish ReadCall.failed_eq⟩
    refine afterRead_end hcopy ?_ fun bs r hbs hlen hcount => ?_
    · intro hempty hopen
      -- nothing is in hand, or there would be more to take
      have hgot : c.got = [] := by
        by_contra hne
        rcases hmore hne with h | h | h
        · omega
        · omega
        · cases h.symm.trans hopen
      exact ⟨hgot, by rw [hgot, length_nil, Nat.sub_zero]⟩
    have hring : ((w.take i bs r).wakeup i).ring i = r := setAt_same _ _ _
    obtain ⟨hfit', hmore'⟩ := chunk_fits hfit rfl (by omega)
      (show min (c.len - c.got.length) UIO_CHUNK ≤ (w.ring i).count by omega)
    have hrest : c.len - (c.got ++ bs).length
        = c.len - c.got.length - min (c.len - c.got.length) UIO_CHUNK := by
      rw [length_append]
      omega
    have hrcount : r.count = (w.ring i).count - min (c.len - c.got.length) UIO_CHUNK := by omega
    refine ih hcopy (by rw [pipeFd_wakeup]; exact hfd) ?_ ?_ fun _ => ?_
    · have := length_pos_iff.mpr hbs
      dsimp only
      omega
    · unfold fits
      rw [hring, hrcount]
      dsimp only
      rw [hrest]
      exact hfit'
    · rw [hring, hrcount]
      dsimp only
      rw [hrest]
      exact hmore'

theorem readLoop_done (h : c.len ≤ c.got.length) :
    readLoop pid fuel c w = w.finish pid c.got.length c.got := by
  cases fuel with
  | zero => rfl
  | succ fuel => exact if_pos h

theorem resumeRead_end {actionable : Bool} (hcopy : ∀ off n, c.copyout off n = true)
    (hgot : c.got = []) (hn : n = min c.len UIO_CHUNK)
    (hfit : c.len ≤ UIO_CHUNK ∨ (w.ring i).count < UIO_CHUNK) :
    ∃ bs, ReadEnd pid i c bs w (resumeRead pid c i n actionable w) := by
  unfold resumeRead
  split
  · exact ⟨[], .finish fun h => absurd hgot h⟩
  refine afterRead_end hcopy (fun _ _ => ⟨hgot, hn⟩) fun bs r _ hlen hcount => ⟨[], ?_⟩
  have hover : c.len ≤ (c.got ++ bs).length := by
    rw [hgot, nil_append]
    omega
  rw [readLoop_done (c := { c with got := c.got ++ bs }) hover]
  exact .finish (c := { c with got := c.got ++ bs }) fun _ => rfl

def EmptyHanded (w : World) : Prop :=
  ∀ pid c i n, w.io pid = some (.read c i n) →
    c.got = [] ∧ (∀ off m, c.copyout off m = true) ∧ n = min c.len UIO_CHUNK

theorem EmptyHanded.read {w' : World} {bs : List UInt8} (h : EmptyHanded w)
    (hcopy : ∀ off n, c.copyout off n = true) (hgot : c.got = []) (hend : ReadEnd pid i c bs w w')
    (hothers : ∀ q, q ≠ pid → w'.io q = w.io q) : EmptyHanded w' := by
  intro q c' j n hio
  by_cases hq : q = pid
  · subst hq
    rcases hend.ends with ⟨hnone, -⟩ | ⟨-, hsome⟩
    · rw [hnone] at hio
      cases hio
    · rw [hsome] at hio
      cases hio
      exact ⟨hgot, hcopy, rfl⟩
  · exact h q c' j n (hothers q hq ▸ hio)

theorem Acts.write_taken {t : Tag} (h : Acts pid (some t) w w') : w'.taken = w.taken := by
  refine h.invariant (I := fun w' => w'.taken = w.taken) rfl fun w₁ w₂ h₁ ha => ?_
  cases ha <;> exact h₁

theorem EmptyHanded.write {t : Tag} (h : EmptyHanded w) (ha : Acts pid (some t) w w') :
    EmptyHanded w' := by
  refine ha.invariant h fun w₁ w₂ h₁ ha => ?_
  cases ha with
  | wrote _ | broke _ => exact h₁
  | fills _ =>
    intro q c i n hio
    by_cases hq : q = pid
    · simp [World.setIo, hq] at hio
    · exact h₁ q c i n ((setPid_ne _ _ hq).symm.trans hio)
  | finish _ _ =>
    intro q c i n hio
    by_cases hq : q = pid
    · simp [World.finish, hq] at hio
    · exact h₁ q c i n ((setPid_ne _ _ hq).symm.trans hio)

/-- The calling process ends its step with all it took from the pipe, or took nothing. -/
def Returns (pid : ℤ) (w w' : World) : Prop :=
  ∀ i bs, bs ≠ [] → w'.taken i = w.taken i ++ bs →
    w'.io pid = none ∧ w'.result pid = some ⟨bs.length, bs⟩

theorem Returns.of_taken (h : w'.taken = w.taken) : Returns pid w w' := by
  intro i bs hbs he
  rw [h] at he
  exact absurd (self_eq_append_right.mp he) hbs

theorem ReadEnd.returns {i : ℕ} {c : ReadCall} {bs : List UInt8} (h : ReadEnd pid i c bs w w')
    (hgot : c.got = []) : Returns pid w w' := by
  intro j bs' hbs' he
  have hj : j = i := by
    by_contra hne
    rw [h.others j hne] at he
    exact hbs' (self_eq_append_right.mp he)
  subst hj
  obtain rfl : bs = bs' := append_cancel_left (h.taken.symm.trans he)
  have hends := h.ends
  rw [hgot, nil_append] at hends
  rcases hends with ⟨hio, hres⟩ | ⟨hnil, -⟩
  · exact ⟨hio, hres hbs'⟩
  · exact absurd hnil hbs'

theorem kern_returns (l : Proc.Label) (k' : Kernel) : Returns pid w (w.kern l k') := by
  intro i bs hbs he
  by_cases hi : cleared w.k l = some i
  · simp only [World.kern, hi, resetAt_same] at he
    exact absurd (append_eq_nil_iff.mp he.symm).2 hbs
  · simp only [World.kern, resetAt_ne _ _ hi] at he
    exact absurd (self_eq_append_right.mp he) hbs

theorem EmptyHanded.step (h : EmptyHanded w) (hok : ReadsFit w l) (hstep : Step w l w') :
    EmptyHanded w' ∧ ∀ pid, w.k.current = some pid → Returns pid w w' := by
  cases hstep with
  | @kern l k' _ _ => exact ⟨h, fun pid _ => kern_returns l k'⟩
  | @read pid fd len copyout hcall hfd =>
    obtain ⟨⟨i, b⟩, hfd⟩ := isSome_iff_exists.mp hfd
    obtain ⟨bs, hend⟩ := readLoop_end (c := ⟨fd, len, copyout, []⟩) hok.1 hfd (Nat.sub_le _ _)
      (hok.2 pid i b hcall.2.1 hfd) (absurd rfl)
    refine ⟨h.read hok.1 rfl hend fun q hq => (readLoop_acts _ _ _).io_other hq, fun q hq => ?_⟩
    cases hcall.2.1.symm.trans hq
    exact hend.returns rfl
  | @write pid fd len buf copyin hcall hfd =>
    have hacts : Acts pid (some ⟨w.calls, len⟩) { w with calls := w.calls + 1 }
        (sysWrite pid ⟨fd, len, buf, copyin, 0, w.calls⟩ { w with calls := w.calls + 1 }) :=
      writeLoop_acts (c := ⟨fd, len, buf, copyin, 0, w.calls⟩) _ rfl _
    exact ⟨EmptyHanded.write (w := { w with calls := w.calls + 1 }) h hacts,
      fun q _ => .of_taken hacts.write_taken⟩
  | @resumeRead p c i n hruns hp hio =>
    have hcurrent := (currentProc_mem hp).2
    obtain ⟨hgot, hcopy, hn⟩ := h p.pid c i n hio
    have h0 : EmptyHanded (w.awake p.pid) := h
    obtain ⟨bs, hend⟩ : ∃ bs, ReadEnd p.pid i c bs (w.awake p.pid)
        (resumeRead p.pid c i n (sigHasActionable p) (w.awake p.pid)) :=
      resumeRead_end hcopy hgot hn (hok p.pid c i n hcurrent hio)
    refine ⟨h0.read hcopy hgot hend fun q hq => (resumeRead_acts _ _ _ _ _).io_other hq,
      fun q hq => ?_⟩
    cases hcurrent.symm.trans hq
    exact hend.returns hgot
  | @resumeWrite p c j n i hruns hp hio =>
    have hacts : Acts p.pid (some c.tag) (w.awake p.pid)
        (resumeWrite p.pid c j n i (sigHasActionable p) (w.awake p.pid)) :=
      resumeWrite_acts rfl _ _ _ _ _
    exact ⟨EmptyHanded.write (w := w.awake p.pid) h hacts, fun q _ => .of_taken hacts.write_taken⟩

/-- In every run in which each read fits, nobody sleeps in a read with bytes in
hand, and a step that takes bytes from a pipe is the last one of the read, which
returns these bytes. -/
theorem partial_reads_return (pid : ℤ) (entry sp : BitVec 64) {w : World}
    (h : Reaches Step ReadsFit (bootWorld pid entry sp) w) :
    (∀ q c i n, w.io q = some (.read c i n) → c.got = []) ∧
    ∀ l w', ReadsFit w l → Step w l w' → ∀ q, w.k.current = some q →
      ∀ i bs, bs ≠ [] → w'.taken i = w.taken i ++ bs →
        w'.io q = none ∧ w'.result q = some ⟨bs.length, bs⟩ := by
  have hboot : EmptyHanded (bootWorld pid entry sp) := nofun
  have hinv : EmptyHanded w := h.invariant hboot fun _ _ _ h hok hstep => (h.step hok hstep).1
  exact ⟨fun q c i n hio => (hinv q c i n hio).1, fun l w' hok hstep => (hinv.step hok hstep).2⟩

def noRead (_ : World) : Label → Bool
  | .kern _ => true
  | .write _ _ _ _ => true
  | _ => false

theorem noRead_fits (h : noRead w l = true) : ReadsFit w l := by
  cases l with
  | kern _ | write _ _ _ _ => trivial
  | read _ _ _ | resume => cases h

/-- Init writes as many bytes as `n` says, and is back in the kernel. -/
def pipeHolding (n : ℕ) : List Label :=
  pipeAndFork ++ [.write 4 n (fun _ => 7) fun _ _ => true, .kern (.ret (.ecall n 0) true),
    .kern (.enter fun _ => 0x10000)]

/-- A read of 300 bytes from a pipe that holds three returns them. -/
theorem partial_reads_return_three : ∃ w w',
    run noRead (pipeHolding 3) (bootWorld 1 0x10000 0x20000) = some w ∧
    exec w (.read 3 300 fun _ _ => true) = some w' ∧
    w'.taken 0 = [7, 7, 7] ∧ w'.io 1 = none ∧ w'.result 1 = some ⟨3, [7, 7, 7]⟩ := by
  have hrun : (run noRead (pipeHolding 3) (bootWorld 1 0x10000 0x20000)).any (fun w =>
      w.k.current = some 1 ∧ w.pipeFd 1 3 = some (0, false) ∧ (w.ring 0).count = 3 ∧
        w.taken 0 = [] ∧
      (exec w (.read 3 300 fun _ _ => true)).any (fun w' => w'.taken 0 = [7, 7, 7])) = true := by
    decide +kernel
  obtain ⟨w, hw, hend⟩ := (any_eq_true _ _).mp hrun
  obtain ⟨hcurrent, hfd, hcount, hnone, hexec⟩ := of_decide_eq_true hend
  obtain ⟨w', hw', htaken⟩ := (any_eq_true _ _).mp hexec
  have htaken' : w'.taken 0 = [7, 7, 7] := of_decide_eq_true htaken
  have hfits : ReadsFit w (.read 3 300 fun _ _ => true) := by
    refine ⟨fun _ _ => rfl, fun pid i b hpid hi => ?_⟩
    rw [hcurrent] at hpid
    cases hpid
    rw [hfd] at hi
    cases hi
    rintro ⟨-, hmod, -⟩
    rw [hcount] at hmod
    cases hmod
  have hall := (partial_reads_return 1 0x10000 0x20000
    ((run_reaches hw).mono fun _ _ => noRead_fits)).2 _ w' hfits (exec_step hw') 1 hcurrent 0
  have hback := hall [7, 7, 7] nofun (by rw [htaken', hnone]; rfl)
  exact ⟨w, w', hw, hw', htaken', hback⟩

/-- A read of 300 bytes takes the 256 that the pipe holds, and sleeps. -/
theorem partial_read_sleeps : ∃ w c i n,
    run (fun _ _ => true) (pipeHolding 256 ++ [.read 3 300 fun _ _ => true])
      (bootWorld 1 0x10000 0x20000) = some w ∧
    (∃ p ∈ w.k.procs, p.pid = 1 ∧ p.state = .sleeping) ∧ w.io 1 = some (.read c i n) ∧
    c.got.length = 256 := by
  have hrun : (run (fun _ _ => true) (pipeHolding 256 ++ [.read 3 300 fun _ _ => true])
      (bootWorld 1 0x10000 0x20000)).any (fun w =>
        (∃ p ∈ w.k.procs, p.pid = 1 ∧ p.state = .sleeping) ∧
          (w.io 1).bind Io.got = some 256) = true := by
    decide +kernel
  obtain ⟨w, hw, hend⟩ := (any_eq_true _ _).mp hrun
  obtain ⟨hsleeps, hio⟩ := of_decide_eq_true hend
  obtain ⟨⟨c, i, n⟩ | ⟨c, j, n, i⟩, hread, hgot⟩ := bind_eq_some_iff.mp hio
  · exact ⟨w, c, i, n, hw, hsleeps, hread, Option.some.inj hgot⟩
  · cases hgot

end Sbunix.Pipe
