import Sbunix.Pipe.Model

/-!
# Calls on pipes as sequences of acts

The copy loops of `pipe_read` and `pipe_write` move bytes between the ring's
queue and the caller. A call is a sequence of acts, each of which leaves the
pipe in a state another process may see.
-/

namespace Sbunix.Pipe

open List Lib Proc

/-! ### The copy loops -/

theorem pipesize_dvd : PIPESIZE ∣ 2 ^ 32 := by decide

theorem pipesize_lt : PIPESIZE < 2 ^ 32 := by decide

def contents (r : Ring UInt8 32) : List UInt8 := r.contents PIPESIZE

variable {r : Ring UInt8 32} {b : ℕ → UInt8} {i : ℕ} {w : World}
  {r' : Ring UInt8 32} {bs : List UInt8} {readopen : Bool} {e : StoreEnd}
  {next : WriteCall → World → World} {fuel : ℕ} {w' : World}

theorem takeLoop_spec (n : ℕ)
    (h : takeLoop n r = (bs, r')) :
    contents r = bs ++ contents r' ∧ r'.count + bs.length = r.count ∧
      bs.length = min n r.count := by
  induction n generalizing r r' bs with
  | zero =>
    cases h
    simp
  | succ n ih =>
    unfold takeLoop at h
    split at h
    · next he =>
      cases h
      simp [(Ring.count_eq_zero _).mpr he]
    · next he =>
      have hpos : 0 < r.count := Nat.pos_of_ne_zero fun h0 => he ((Ring.count_eq_zero _).mp h0)
      rcases hrest : takeLoop n r.pop with ⟨bs₁, r₁⟩
      rw [hrest] at h
      cases h
      obtain ⟨h1, h2, h3⟩ := ih hrest
      have hpop := Ring.count_pop hpos
      refine ⟨?_, ?_, ?_⟩
      · rw [contents, Ring.contents_pop pipesize_dvd hpos, cons_append]
        exact congrArg _ h1
      · rw [length_cons]
        omega
      · rw [length_cons]
        omega

theorem ring_full_iff : r.nwrite = r.nread + BitVec.ofNat 32 PIPESIZE ↔ r.count = PIPESIZE :=
  (Ring.count_eq_size pipesize_lt).symm

/-- What the store loop does to the ring's queue, and why it ends. -/
structure Stored (readopen : Bool) (b : ℕ → UInt8) (m i : ℕ) (r : Ring UInt8 32) (i' : ℕ)
    (r' : Ring UInt8 32) (e : StoreEnd) : Prop where
  queue : contents r' = contents r ++ (List.range' i (i' - i)).map b
  count : r'.count = r.count + (i' - i)
  bound : r'.count ≤ PIPESIZE
  start : i ≤ i'
  stop : i' ≤ i + m
  all : e = .all → i' = i + m
  full : e = .full → r'.count = PIPESIZE ∧ readopen = true ∧ i' < i + m
  broken : e = .broken → readopen = false ∧ i' = i ∧ r' = r

theorem storeLoop_spec {m i' : ℕ}
    (hr : r.count ≤ PIPESIZE) (h : storeLoop readopen b m i r = (i', r', e)) :
    Stored readopen b m i r i' r' e := by
  induction m generalizing i r with
  | zero =>
    cases h
    exact ⟨by simp, by simp, hr, le_rfl, le_rfl, fun _ => rfl, nofun, nofun⟩
  | succ m ih =>
    unfold storeLoop at h
    split at h
    · next hfull =>
      have hcount := ring_full_iff.mp hfull
      cases readopen <;> cases h
      · exact ⟨by simp, by simp, hr, le_rfl, by omega, nofun, nofun, fun _ => ⟨rfl, rfl, rfl⟩⟩
      · exact ⟨by simp, by simp, hr, le_rfl, by omega, nofun,
          fun _ => ⟨hcount, rfl, by omega⟩, nofun⟩
    next hfull =>
    have hroom : r.count < PIPESIZE := lt_of_le_of_ne hr fun he => hfull (ring_full_iff.mpr he)
    split at h
    · next hopen =>
      have hlt : r.count + 1 < 2 ^ 32 := by
        have := pipesize_lt
        omega
      have hcount : (r.push PIPESIZE (b i)).count = r.count + 1 := Ring.count_push (b i) hlt
      obtain hs := ih (by omega) h
      have hstart := hs.start
      have hrange : i' - i = (i' - (i + 1)) + 1 := by omega
      refine ⟨?_, ?_, hs.bound, by omega, ?_, ?_, ?_, ?_⟩
      · rw [hs.queue, contents, Ring.contents_push pipesize_dvd pipesize_lt hroom, hrange,
          range'_succ, map_cons, append_assoc]
        rfl
      · rw [hs.count, hcount]
        omega
      · have := hs.stop
        omega
      · intro he
        have := hs.all he
        omega
      · intro he
        obtain ⟨h1, h2, h3⟩ := hs.full he
        exact ⟨h1, h2, by omega⟩
      · intro he
        have := (hs.broken he).1
        rw [hopen] at this
        cases this
    · next hopen =>
      cases h
      exact ⟨by simp, by simp, hr, le_rfl, by omega, nofun, nofun, fun _ =>
        ⟨by simpa using hopen, rfl, rfl⟩⟩

@[simp] theorem tagged_map_snd (t : Tag) (b : ℕ → UInt8) (a z : ℕ) :
    (tagged t b a z).map Prod.snd = (List.range' a (z - a)).map b := by
  simp [tagged, Function.comp_def]

theorem tagged_tag {t : Tag} {a z : ℕ} {x : Tag × UInt8} (h : x ∈ tagged t b a z) : x.1 = t := by
  obtain ⟨i, -, rfl⟩ := mem_map.mp h
  rfl

/-! ### Acts -/

/-- The acts a call of `pid` on a pipe is made of; the tag is that of the bytes a
write stores, and a read has none. -/
inductive Act (pid : ℤ) : Option Tag → World → World → Prop
  | took {w : World} {i n : ℕ} {bs : List UInt8} {r : Ring UInt8 32} :
    takeLoop n (w.ring i) = (bs, r) → Act pid none w ((w.take i bs r).wakeup i)
  | waits {w : World} {i n : ℕ} {c : ReadCall} : (w.ring i).nread = (w.ring i).nwrite →
    (w.k.pipes i).writeopen = true → Act pid none w ((w.sleepOn pid i).setIo pid (.read c i n))
  | wrote {t : Tag} {w : World} {j m i i' : ℕ} {b : ℕ → UInt8} {r : Ring UInt8 32} :
    storeLoop (w.k.pipes j).readopen b m i (w.ring j) = (i', r, .all) →
    Act pid (some t) w ((w.store j (tagged t b i i') r).wakeup j)
  | fills {w : World} {j m i i' n : ℕ} {b : ℕ → UInt8} {r : Ring UInt8 32} {c : WriteCall} :
    storeLoop (w.k.pipes j).readopen b m i (w.ring j) = (i', r, .full) →
    Act pid (some c.tag) w
      (((((w.store j (tagged c.tag b i i') r).wakeup j).sleepOn pid j).setIo pid
      (.write c j n i')))
  | broke {t : Tag} {w : World} {j m i i' : ℕ} {b : ℕ → UInt8} {r : Ring UInt8 32} :
    storeLoop (w.k.pipes j).readopen b m i (w.ring j) = (i', r, .broken) →
    Act pid (some t) w { w.store j (tagged t b i i') r with k := sendSignal w.k pid SIGPIPE }
  | finish {t : Option Tag} {w : World} (value : ℤ) (bytes : List UInt8) :
    Act pid t w (w.finish pid value bytes)

def Acts (pid : ℤ) (t : Option Tag) : World → World → Prop := Relation.ReflTransGen (Act pid t)

variable {pid : ℤ} {t : Option Tag}

theorem Acts.one (h : Act pid t w w') : Acts pid t w w' := Relation.ReflTransGen.single h

theorem Acts.trans {w'' : World} (h : Acts pid t w w') (h' : Acts pid t w' w'') :
    Acts pid t w w'' :=
  Relation.ReflTransGen.trans h h'

theorem Acts.invariant {I : World → Prop} (h : Acts pid t w w') (hw : I w)
    (hact : ∀ w w', I w → Act pid t w w' → I w') : I w' := by
  induction h with
  | refl => exact hw
  | tail _ ha ih => exact hact _ _ ih ha

theorem afterRead_acts {next : ReadCall → World → World} (hnext : ∀ c w, Acts pid none w (next c w))
    (c : ReadCall) (i n : ℕ) (w : World) :
    Acts pid none w (afterRead next pid c i n (pipeRead pid i n w)) := by
  unfold pipeRead
  split
  · next h => exact .one (.waits h.1 h.2)
  rcases hloop : takeLoop n (w.ring i) with ⟨bs, r⟩
  have htook : Acts pid none w ((w.take i bs r).wakeup i) := .one (.took hloop)
  dsimp only [afterRead]
  split
  · exact htook.trans (.one (.finish _ _))
  split
  · split
    · exact htook.trans (.one (.finish _ _))
    · exact htook.trans (hnext _ _)
  · exact htook.trans (.one (.finish _ _))

theorem readLoop_acts (fuel : ℕ) (c : ReadCall) (w : World) :
    Acts pid none w (readLoop pid fuel c w) := by
  induction fuel generalizing c w with
  | zero => exact .one (.finish _ _)
  | succ fuel ih =>
    unfold readLoop
    split
    · exact .one (.finish _ _)
    dsimp only
    split
    · exact .one (.finish _ _)
    split
    · exact .one (.finish _ _)
    · exact afterRead_acts ih c _ _ w

theorem afterWrite_ok (c : WriteCall) (j n : ℕ) (v : ℤ)
    (hnext : ∀ c', c'.tag = c.tag → ∀ w, Acts pid t w (next c' w)) (w : World) :
    Acts pid t w (afterWrite next pid c j n (.ok v, w)) := by
  dsimp only [afterWrite]
  split
  · exact .one (.finish _ _)
  split
  · exact .one (.finish _ _)
  split
  · exact .one (.finish _ _)
  · exact hnext { c with done := c.done + v.toNat } rfl w

variable {c : WriteCall}

theorem afterWrite_acts (hc : some c.tag = t)
    (hnext : ∀ c', some c'.tag = t → ∀ w, Acts pid t w (next c' w)) (j n i : ℕ) (b : ℕ → UInt8)
    (w : World) : Acts pid t w (afterWrite next pid c j n (pipeWrite pid c.tag j b n i w)) := by
  subst hc
  unfold pipeWrite
  rcases hloop : storeLoop (w.k.pipes j).readopen b (n - i) i (w.ring j) with ⟨i', r, e⟩
  dsimp only
  cases e with
  | all =>
    exact (Acts.one (.wrote hloop)).trans
      (afterWrite_ok c j n _ (fun c' hc' => hnext c' (congrArg _ hc')) _)
  | full => exact .one (.fills hloop)
  | broken =>
    exact (Acts.one (.broke hloop)).trans
      (afterWrite_ok c j n _ (fun c' hc' => hnext c' (congrArg _ hc')) _)

theorem writeLoop_acts (fuel : ℕ) (hc : some c.tag = t) (w : World) :
    Acts pid t w (writeLoop pid fuel c w) := by
  induction fuel generalizing c w with
  | zero => exact .one (.finish _ _)
  | succ fuel ih =>
    unfold writeLoop
    split
    · exact .one (.finish _ _)
    dsimp only
    split
    · exact .one (.finish _ _)
    split
    · exact .one (.finish _ _)
    split
    · exact .one (.finish _ _)
    · exact afterWrite_acts hc (fun c' hc' w => ih hc' w) _ _ _ _ w

theorem resumeRead_acts (c : ReadCall) (i n : ℕ) (actionable : Bool) (w : World) :
    Acts pid none w (resumeRead pid c i n actionable w) := by
  unfold resumeRead
  split
  · exact .one (.finish _ _)
  · exact afterRead_acts (fun c w => readLoop_acts _ c w) c i n w

theorem resumeWrite_acts (hc : some c.tag = t) (j n i : ℕ) (actionable : Bool) (w : World) :
    Acts pid t w (resumeWrite pid c j n i actionable w) := by
  unfold resumeWrite
  have hnext : ∀ c' : WriteCall, some c'.tag = t → ∀ w, Acts pid t w (writeLoop pid c.len c' w) :=
    fun c' hc' w => writeLoop_acts _ hc' w
  split
  · exact afterWrite_ok c j n _ (fun c' hc' => hnext c' ((congrArg _ hc').trans hc)) w
  · exact afterWrite_acts hc hnext j n i _ w

/-! ### First in, first out -/

/-- What came out, followed by what the ring holds, is what went in. -/
structure Fifo (w : World) : Prop where
  order : ∀ i, (w.stored i).map Prod.snd = w.taken i ++ contents (w.ring i)
  bound : ∀ i, (w.ring i).count ≤ PIPESIZE

theorem Fifo.take (h : Fifo w) {n : ℕ}
    (hloop : takeLoop n (w.ring i) = (bs, r)) : Fifo (w.take i bs r) := by
  obtain ⟨h1, h2, -⟩ := takeLoop_spec n hloop
  refine ⟨fun j => ?_, fun j => ?_⟩
  · by_cases hj : j = i
    · subst hj
      simp only [World.take, setAt_same]
      rw [h.order j, h1, append_assoc]
    · simp only [World.take, setAt_ne _ _ hj]
      exact h.order j
  · by_cases hj : j = i
    · subst hj
      simp only [World.take, setAt_same]
      have := h.bound j
      omega
    · simp only [World.take, setAt_ne _ _ hj]
      exact h.bound j

theorem Fifo.store (h : Fifo w) {t : Tag} {j m i' : ℕ}
    (hloop : storeLoop readopen b m i (w.ring j) = (i', r, e)) :
    Fifo (w.store j (tagged t b i i') r) := by
  have hs := storeLoop_spec (h.bound j) hloop
  refine ⟨fun x => ?_, fun x => ?_⟩
  · by_cases hx : x = j
    · subst hx
      simp only [World.store, setAt_same]
      rw [map_append, tagged_map_snd, h.order x, hs.queue, append_assoc]
    · simp only [World.store, setAt_ne _ _ hx]
      exact h.order x
  · by_cases hx : x = j
    · subst hx
      simp only [World.store, setAt_same]
      exact hs.bound
    · simp only [World.store, setAt_ne _ _ hx]
      exact h.bound x

theorem Fifo.act {pid : ℤ} {t : Option Tag} (h : Fifo w) (ha : Act pid t w w') : Fifo w' := by
  cases ha with
  | took hloop =>
    have h' := h.take hloop
    exact ⟨h'.order, h'.bound⟩
  | waits _ _ | finish value bytes => exact ⟨h.order, h.bound⟩
  | @wrote t _ _ _ _ _ _ _ hloop | @broke t _ _ _ _ _ _ _ hloop =>
    have h' := h.store (t := t) hloop
    exact ⟨h'.order, h'.bound⟩
  | @fills _ _ _ _ _ _ _ _ c hloop =>
    have h' := h.store (t := c.tag) hloop
    exact ⟨h'.order, h'.bound⟩

theorem emptyRing_count : emptyRing.count = 0 := (Ring.count_eq_zero _).mpr rfl

theorem emptyRing_contents : contents emptyRing = [] := Ring.contents_eq_nil emptyRing_count

theorem Fifo.kern (h : Fifo w) (l : Proc.Label) (k' : Kernel) : Fifo (w.kern l k') := by
  refine ⟨fun i => ?_, fun i => ?_⟩ <;> by_cases hi : cleared w.k l = some i
  · simp only [World.kern, hi, resetAt_same, map_nil, nil_append]
    exact emptyRing_contents.symm
  · simp only [World.kern, resetAt_ne _ _ hi]
    exact h.order i
  · simp only [World.kern, hi, resetAt_same, emptyRing_count]
    exact Nat.zero_le _
  · simp only [World.kern, resetAt_ne _ _ hi]
    exact h.bound i

theorem Fifo.step {l : Label} (h : Fifo w) (hstep : Step w l w') : Fifo w' := by
  have hacts : ∀ {pid : ℤ} {t : Option Tag} {w₀ w₁ : World}, Fifo w₀ → Acts pid t w₀ w₁ → Fifo w₁ :=
    fun h ha => ha.invariant h fun _ _ => Fifo.act
  cases hstep with
  | kern _ _ => exact h.kern _ _
  | read _ _ => exact hacts (t := none) h (readLoop_acts _ _ _)
  | write _ _ =>
    have h0 : Fifo { w with calls := w.calls + 1 } := ⟨h.order, h.bound⟩
    exact hacts h0 (writeLoop_acts _ rfl _)
  | @resumeRead p _ _ _ _ _ _ =>
    have h0 : Fifo (w.awake p.pid) := ⟨h.order, h.bound⟩
    exact hacts (t := none) h0 (resumeRead_acts _ _ _ _ _)
  | @resumeWrite p _ _ _ _ _ _ _ =>
    have h0 : Fifo (w.awake p.pid) := ⟨h.order, h.bound⟩
    exact hacts h0 (resumeWrite_acts rfl _ _ _ _ _)

theorem Fifo.boot (pid : ℤ) (entry sp : BitVec 64) : Fifo (bootWorld pid entry sp) where
  order i := by simp [bootWorld, emptyRing_contents]
  bound i := emptyRing_count.trans_le (Nat.zero_le _)

/-- In every state of every run, for every pipe: the bytes that reads returned are
a prefix of the bytes accepted from writers, the rest is what the ring holds, and
the ring holds at most 512 bytes. -/
theorem pipe_fifo (pid : ℤ) (entry sp : BitVec 64) {w : World}
    (h : Reaches Step (fun _ _ => True) (bootWorld pid entry sp) w) (i : ℕ) :
    w.taken i <+: (w.stored i).map Prod.snd ∧
    (w.stored i).map Prod.snd = w.taken i ++ contents (w.ring i) ∧
    (contents (w.ring i)).length ≤ PIPESIZE := by
  have hf : Fifo w := h.invariant (Fifo.boot pid entry sp) fun _ _ _ hf _ hstep => hf.step hstep
  refine ⟨⟨contents (w.ring i), (hf.order i).symm⟩, hf.order i, ?_⟩
  rw [contents, Ring.contents_length]
  exact hf.bound i

/-- Init opens a pipe (descriptors 3 and 4), forks, and enters the kernel again. -/
def pipeAndFork : List Label :=
  [.kern (.dispatch 1), .kern (.enter fun _ => 0x10000), .kern (.call (.pipe (some true))),
    .kern (.ret (.ecall 0 0) true), .kern (.enter fun _ => 0x10000), .kern (.call (.fork .ok)),
    .kern (.ret (.ecall 2 0) true), .kern (.enter fun _ => 0x10000)]

/-- Init writes three bytes and reads two of them back. -/
theorem pipe_fifo_three_bytes : ∃ w,
    run (fun _ _ => true)
      (pipeAndFork ++ [.write 4 3 (fun x => UInt8.ofNat (10 + x)) fun _ _ => true,
      .kern (.ret (.ecall 3 0) true), .kern (.enter fun _ => 0x10000), .read 3 2 fun _ _ => true])
      (bootWorld 1 0x10000 0x20000) = some w ∧
    w.taken 0 = [10, 11] ∧ [10, 11] <+: (w.stored 0).map Prod.snd ∧
    (w.stored 0).map Prod.snd = [10, 11] ++ contents (w.ring 0) := by
  refine exists_end (P := fun w => w.taken 0 = [10, 11]) (by decide +kernel) fun w hw htaken => ?_
  have hfifo := pipe_fifo 1 0x10000 0x20000 ((run_reaches hw).mono fun _ _ _ => trivial) 0
  rw [htaken] at hfifo
  exact ⟨htaken, hfifo.1, hfifo.2.1⟩

end Sbunix.Pipe
