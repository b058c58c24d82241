import Sbunix.Pcache.Interleaved

/-!
# One slot for a page, and pinned slots stay

`pcache_get` looks a page up and inserts it under one hold of the lock unless
the victim is dirty: then the lock is given up in between, and a second caller
that looks for the same page meanwhile inserts it too. Where that does not
happen a page has one slot. A slot that somebody else has pinned is never
given to another page.
-/

namespace Sbunix.Pcache

open Lib Fs List Function

variable {pgidx k : ℕ} {ks : List ℕ} {Node : Type}

def Slot.key (p : Slot Node) : Option (Node × ℕ) := p.ip.map fun x => (x, p.pgidx)

variable {p : Slot Node} {ip : Node} {u j t : ℕ} {c : Caller Node}

theorem Slot.key_eq_some : p.key = some (ip, pgidx) ↔ p.ip = some ip ∧ p.pgidx = pgidx := by
  unfold Slot.key
  cases p.ip with
  | none | some x => simp

/-- The slot a caller without the lock goes back to. -/
def Caller.slot : Caller Node → Option ℕ
  | .idle _ => none
  | .waiting _ _ k => some k
  | .evicting _ _ k => some k
  | .filling _ _ k => some k
  | .flushing _ k _ => some k

/-- Slots keep their page or lose it. -/
def Sheds (s s' : State Node) : Prop :=
  ∀ k, (s'.slots k).key = (s.slots k).key ∨ (s'.slots k).key = none

def Absent (s : State Node) (ip : Node) (pgidx : ℕ) : Prop :=
  ∀ k < PCACHE_NSLOTS, (s.slots k).key ≠ some (ip, pgidx)

/-- A caller writes back a victim for the page, without the lock. -/
def Evicting (s : State Node) (t : ℕ) (ip : Node) (pgidx : ℕ) : Prop :=
  ∃ k, s.callers t = .evicting ip pgidx k

/-- The list holds every slot, and callers go back to slots. -/
structure Listed (s : State Node) : Prop where
  lru : ∀ k, k ∈ s.lru ↔ k < PCACHE_NSLOTS
  slot : ∀ t k, (s.callers t).slot = some k → k < PCACHE_NSLOTS

structure Inv (s : State Node) : Prop extends Listed s where
  unique : ∀ j < PCACHE_NSLOTS, ∀ k < PCACHE_NSLOTS, ∀ x, (s.slots j).key = some x →
    (s.slots k).key = some x → j = k
  absent : ∀ t ip pgidx, Evicting s t ip pgidx → Absent s ip pgidx
  alone : ∀ t u ip pgidx, Evicting s t ip pgidx → Evicting s u ip pgidx → t = u

theorem inv_pcacheInit : Inv (pcacheInit : State Node) where
  lru := by simp [pcacheInit]
  slot := by simp [pcacheInit, Caller.slot]
  unique := by simp [pcacheInit, Slot.key]
  absent := by simp [pcacheInit, Evicting]
  alone := by simp [pcacheInit, Evicting]

/-- Slots may lose their page, and only caller `t` moves. -/
structure Loses (s s' : State Node) (t : ℕ) : Prop where
  lru : ∀ k, k ∈ s'.lru ↔ k ∈ s.lru
  key : ∀ k, (s'.slots k).key = (s.slots k).key ∨ (s'.slots k).key = none
  callers : ∀ u, u ≠ t → s'.callers u = s.callers u
  slot : ∀ k, (s'.callers t).slot = some k → k ∈ s.lru

variable {s s' : State Node}

theorem Absent.mono (h : Absent s ip pgidx) (hk : Sheds s s') : Absent s' ip pgidx := by
  intro k hlt
  rcases hk k with he | he
  · rw [he]
    exact h k hlt
  · simp [he]

theorem Evicting.of_ne (h : ∀ u, u ≠ t → s'.callers u = s.callers u) (hu : u ≠ t)
    (he : Evicting s' u ip pgidx) : Evicting s u ip pgidx := by
  obtain ⟨k, hk⟩ := he
  exact ⟨k, (h u hu).symm.trans hk⟩

theorem Listed.loses (h : Listed s) (hl : Loses s s' t) : Listed s' where
  lru k := (hl.lru k).trans (h.lru k)
  slot u k hk := by
    by_cases hu : u = t
    · subst hu
      exact (h.lru k).mp (hl.slot k hk)
    · rw [hl.callers u hu] at hk
      exact h.slot u k hk

/-- Losing pages is harmless as long as the caller that moves evicts for a page no slot has
and nobody else evicts for. -/
theorem Inv.loses (h : Inv s) (hl : Loses s s' t)
    (he : ∀ ip pgidx, Evicting s' t ip pgidx → Absent s ip pgidx ∧ ∀ u, u ≠ t →
      ¬ Evicting s u ip pgidx) : Inv s' where
  toListed := h.toListed.loses hl
  unique j hj k hk x hjx hkx := by
    have hj' := (hl.key j).resolve_right (by simp [hjx])
    have hk' := (hl.key k).resolve_right (by simp [hkx])
    exact h.unique j hj k hk x (hj'.symm.trans hjx) (hk'.symm.trans hkx)
  absent u ip pgidx hu := by
    by_cases hut : u = t
    · subst hut
      exact (he ip pgidx hu).1.mono hl.key
    · exact (h.absent u ip pgidx (hu.of_ne hl.callers hut)).mono hl.key
  alone u v ip pgidx hu hv := by
    by_cases hut : u = t <;> by_cases hvt : v = t
    · rw [hut, hvt]
    · subst hut
      exact absurd (hv.of_ne hl.callers hvt) ((he ip pgidx hu).2 v hvt)
    · subst hvt
      exact absurd (hu.of_ne hl.callers hut) ((he ip pgidx hv).2 u hut)
    · exact h.alone u v ip pgidx (hu.of_ne hl.callers hut) (hv.of_ne hl.callers hvt)

theorem Listed.of_callers (h : Listed s) (hlru : ∀ k, k ∈ s'.lru ↔ k ∈ s.lru)
    (hc : s'.callers = s.callers) : Listed s' where
  lru k := (hlru k).trans (h.lru k)
  slot t k hk := h.slot t k (by rwa [hc] at hk)

theorem Inv.of_callers (h : Inv s) (hlru : ∀ k, k ∈ s'.lru ↔ k ∈ s.lru) (hkey : Sheds s s')
    (hc : s'.callers = s.callers) : Inv s' := by
  refine h.loses (t := 0) ⟨hlru, hkey, fun u _ => by rw [hc], fun k hk => ?_⟩ ?_
  · rw [hc] at hk
    exact (h.lru k).mpr (h.slot 0 k hk)
  · rintro ip pgidx ⟨k, hk⟩
    rw [hc] at hk
    exact ⟨h.absent 0 ip pgidx ⟨k, hk⟩, fun u hu he => hu (h.alone u 0 ip pgidx he ⟨k, hk⟩)⟩

theorem mem_toHead (hk : k ∈ s.lru) (j : ℕ) : j ∈ (s.toHead k).lru ↔ j ∈ s.lru := by
  simp only [State.toHead, mem_cons]
  by_cases hj : j = k
  · simp [hj, hk]
  · simp [hj, mem_erase_of_ne hj]

theorem mem_toTail (hk : k ∈ s.lru) (j : ℕ) : j ∈ (s.toTail k).lru ↔ j ∈ s.lru := by
  simp only [State.toTail, mem_append, mem_singleton]
  by_cases hj : j = k
  · simp [hj, hk]
  · simp [hj, mem_erase_of_ne hj]

theorem assign_self (s : State Node) (t : ℕ) (ip : Node) (pgidx k : ℕ) :
    ((assign s t ip pgidx k).slots k).key = some (ip, pgidx) := by
  simp [assign, State.setCaller, State.toHead, State.setSlot, Slot.key]

theorem assign_other (hj : j ≠ k) : (assign s t ip pgidx k).slots j = s.slots j := by
  simp [assign, State.setCaller, State.toHead, State.setSlot, update_of_ne hj]

theorem assign_callers (hu : u ≠ t) : (assign s t ip pgidx k).callers u = s.callers u := by
  simp [assign, State.setCaller, State.toHead, State.setSlot, update_of_ne hu]

theorem assign_caller (s : State Node) (t : ℕ) (ip : Node) (pgidx k : ℕ) :
    (assign s t ip pgidx k).callers t = .filling ip pgidx k := by
  simp [assign, State.setCaller]

theorem Listed.assign (h : Listed s) (hk : k < PCACHE_NSLOTS) : Listed (assign s t ip pgidx k) where
  lru j := (mem_toHead ((h.lru k).mpr hk) j).trans (h.lru j)
  slot u j hj := by
    by_cases hu : u = t
    · subst hu
      rw [assign_caller] at hj
      obtain rfl : k = j := by simpa [Caller.slot] using hj
      exact hk
    · rw [assign_callers hu] at hj
      exact h.slot u j hj

theorem Inv.assign (h : Inv s) (hk : k < PCACHE_NSLOTS) (ha : Absent s ip pgidx)
    (hn : ∀ u, u ≠ t → ¬ Evicting s u ip pgidx) : Inv (assign s t ip pgidx k) := by
  have hcall : ∀ u, u ≠ t → (Pcache.assign s t ip pgidx k).callers u = s.callers u :=
    fun u hu => assign_callers hu
  have hne : ∀ u ip' pgidx', Evicting (Pcache.assign s t ip pgidx k) u ip' pgidx' → u ≠ t := by
    rintro u ip' pgidx' ⟨j, hj⟩ rfl
    simp [assign_caller] at hj
  refine ⟨h.toListed.assign hk, ?_, ?_, ?_⟩
  · intro i hi j hj x hix hjx
    by_cases hik : i = k <;> by_cases hjk : j = k
    · rw [hik, hjk]
    · rw [hik, assign_self] at hix
      rw [assign_other hjk, ← hix] at hjx
      exact absurd hjx (ha j hj)
    · rw [hjk, assign_self] at hjx
      rw [assign_other hik, ← hjx] at hix
      exact absurd hix (ha i hi)
    · rw [assign_other hik] at hix
      rw [assign_other hjk] at hjx
      exact h.unique i hi j hj x hix hjx
  · intro u ip' pgidx' he j hj
    have hu := hne u ip' pgidx' he
    have he' := he.of_ne hcall hu
    by_cases hjk : j = k
    · rw [hjk, assign_self]
      rintro ⟨⟩
      exact hn u hu he'
    · rw [assign_other hjk]
      exact h.absent u ip' pgidx' he' j hj
  · intro u v ip' pgidx' hu hv
    exact h.alone u v ip' pgidx' (hu.of_ne hcall (hne _ _ _ hu)) (hv.of_ne hcall (hne _ _ _ hv))

/-! ## What the parts of `pcache_get` do -/

section

theorem sheds_setSlot (hp : p.key = (s.slots k).key ∨ p.key = none) : Sheds s (s.setSlot k p) := by
  intro j
  by_cases hj : j = k
  · subst hj
    simpa [State.setSlot] using hp
  · simp [State.setSlot, update_of_ne hj]

theorem key_setSlot (hp : p.key = (s.slots k).key) (j : ℕ) :
    ((s.setSlot k p).slots j).key = (s.slots j).key := by
  by_cases hj : j = k
  · subst hj
    simpa [State.setSlot] using hp
  · simp [State.setSlot, update_of_ne hj]

theorem key_pin (s : State Node) (k j : ℕ) (d : ℤ) :
    ((s.pin k d).slots j).key = (s.slots j).key := by
  refine key_setSlot ?_ j
  rfl

theorem refcnt_pin (s : State Node) (k j : ℕ) (d : ℤ) :
    ((s.pin k d).slots j).refcnt = (s.slots j).refcnt + if j = k then d else 0 := by
  by_cases hj : j = k
  · subst hj
    simp [State.pin, State.setSlot]
  · simp [State.pin, State.setSlot, hj]

theorem Loses.setCaller (s s' : State Node) (hlru : ∀ k, k ∈ s'.lru ↔ k ∈ s.lru) (hkey : Sheds s s')
    (hc : s'.callers = s.callers) (hslot : ∀ k, c.slot = some k → k ∈ s.lru) :
    Loses s (s'.setCaller t c) t where
  lru := hlru
  key := hkey
  callers u hu := by simp [State.setCaller, update_of_ne hu, hc]
  slot k hk := hslot k (by simpa [State.setCaller] using hk)

theorem not_evicting_setCaller (hc : ∀ ip pgidx k, c ≠ .evicting ip pgidx k) :
    ¬ Evicting (s.setCaller t c) t ip pgidx := by
  rintro ⟨k, hk⟩
  exact hc ip pgidx k (by simpa [State.setCaller] using hk)

variable {wb : Node → Bool}

theorem scanDirty_victim (h : scanDirty wb s ks = .victim k) : k ∈ ks ∧ (s.slots k).refcnt = 0 := by
  induction ks with
  | nil => simp [scanDirty] at h
  | cons j ks ih =>
    unfold scanDirty at h
    split_ifs at h with h0 hd
    · exact ⟨mem_cons_of_mem _ (ih h).1, (ih h).2⟩
    · exact ⟨mem_cons_of_mem _ (ih h).1, (ih h).2⟩
    · have hjk : j = k := by
        split at h
        · simpa using h
        · split_ifs at h
          simpa using h
      subst hjk
      exact ⟨mem_cons_self, by simpa using h0⟩

theorem scanDirty_writeback (h : scanDirty wb s ks = .writeback k) : k ∈ ks := by
  induction ks with
  | nil => simp [scanDirty] at h
  | cons j ks ih =>
    unfold scanDirty at h
    split_ifs at h with h0 hd
    · exact mem_cons_of_mem _ (ih h)
    · exact mem_cons_of_mem _ (ih h)
    · split at h
      · simp at h
      · split_ifs at h
        simp only [Scan.writeback.injEq] at h
        simp [h]

/-- A search for a victim either gives up the lock or gives the page a slot without pins. -/
inductive Evicts (s : State Node) (t : ℕ) (ip : Node) (pgidx : ℕ) (s' : State Node) : Prop
  | moves : Loses s s' t → (∀ x i, Evicting s' t x i → x = ip ∧ i = pgidx) → Evicts s t ip pgidx s'
  | takes (k : ℕ) : k ∈ s.lru → (s.slots k).refcnt = 0 → s' = assign s t ip pgidx k →
      Evicts s t ip pgidx s'

theorem evictFrom_evicts (hks : ∀ k ∈ ks, k ∈ s.lru) :
    Evicts s t ip pgidx (evictFrom wb t ip pgidx ks s) := by
  unfold evictFrom
  split
  · refine .moves (.setCaller s s (fun _ => Iff.rfl) (fun _ => Or.inl rfl) rfl
      (by simp [Caller.slot])) ?_
    intro x i he
    exact absurd he (not_evicting_setCaller (by simp))
  · next k hk =>
    obtain ⟨hmem, h0⟩ := scanDirty_victim hk
    exact .takes k (hks k hmem) h0 rfl
  · next k hk =>
    refine .moves (.setCaller s (s.pin k 1) (fun _ => Iff.rfl)
      (fun j => Or.inl (key_pin s k j 1)) rfl ?_) ?_
    · intro j hj
      obtain rfl : k = j := by simpa [Caller.slot] using hj
      exact hks k (scanDirty_writeback hk)
    · rintro x i ⟨j, hj⟩
      simp only [State.setCaller, update_self, Caller.evicting.injEq] at hj
      exact ⟨hj.1.symm, hj.2.1.symm⟩

theorem mem_behind (h : j ∈ behind s k) : j ∈ s.lru := by
  have h1 := mem_of_mem_tail h
  have h2 := (dropWhile_sublist _).subset h1
  exact mem_reverse.mp h2

variable [DecidableEq Node]

theorem lookup_none (hl : ∀ k, k ∈ s.lru ↔ k < PCACHE_NSLOTS)
    (h : pcacheLookup s ip pgidx = none) : Absent s ip pgidx := by
  intro k hk he
  have := find?_eq_none.mp h k ((hl k).mpr hk)
  obtain ⟨h1, h2⟩ := Slot.key_eq_some.mp he
  simp [h1, h2] at this

theorem getSegment_cases (wb : Node → Bool) (t : ℕ) (ip : Node) (pgidx : ℕ) (hl : ∀ k, k ∈ s.lru ↔
    k < PCACHE_NSLOTS) :
    (Loses s (getSegment wb t ip pgidx s) t ∧
      ∀ x i, ¬ Evicting (getSegment wb t ip pgidx s) t x i) ∨
    (Absent s ip pgidx ∧ Evicts s t ip pgidx (getSegment wb t ip pgidx s)) := by
  unfold getSegment
  split
  · next k hk =>
    have hmem := mem_of_find?_eq_some hk
    left
    split
    · exact ⟨.setCaller s ((s.pin k 1).toHead k) (mem_toHead (s := s.pin k 1) hmem)
        (fun j => Or.inl (key_pin s k j 1)) rfl (by simp [Caller.slot]),
        fun x i => not_evicting_setCaller (by simp)⟩
    · refine ⟨.setCaller s (s.pin k 1) (fun _ => Iff.rfl) (fun j => Or.inl (key_pin s k j 1)) rfl
        ?_,
        fun x i => not_evicting_setCaller (by simp)⟩
      intro j hj
      obtain rfl : k = j := by simpa [Caller.slot] using hj
      exact hmem
  · next hnone =>
    refine Or.inr ⟨lookup_none hl hnone, ?_⟩
    split
    · next k hk =>
      have h0 := find?_some hk
      simp only [Bool.and_eq_true, beq_iff_eq] at h0
      exact .takes k (mem_reverse.mp (mem_of_find?_eq_some hk)) h0.1 rfl
    · exact evictFrom_evicts fun k hk => mem_reverse.mp hk

omit [DecidableEq Node] in
theorem Inv.evicts (h : Inv s) (ha : Absent s ip pgidx) (hn : ∀ u, u ≠ t → ¬ Evicting s u ip pgidx)
    (he : Evicts s t ip pgidx s') : Inv s' := by
  cases he with
  | moves hl hev =>
    refine h.loses hl fun x i hxi => ?_
    obtain ⟨rfl, rfl⟩ := hev x i hxi
    exact ⟨ha, hn⟩
  | takes k hk h0 he =>
    rw [he]
    exact h.assign ((h.lru k).mp hk) ha hn

omit [DecidableEq Node] in
theorem Evicts.pinned (he : Evicts s t ip pgidx s') (hp : (s.slots k).refcnt ≠ 0) :
    (s'.slots k).key = (s.slots k).key ∨ (s'.slots k).key = none := by
  cases he with
  | moves hl _ => exact hl.key k
  | takes j hj h0 he =>
    have hkj : k ≠ j := by
      rintro rfl
      exact hp h0
    rw [he, assign_other hkj]
    exact Or.inl rfl

theorem flushFrom_loses (wb : Node → Bool) (t : ℕ) (ip : Node) (busy : Bool) (s₀ s : State Node)
    {n i : ℕ} (hi : i + n ≤ PCACHE_NSLOTS)
    (hl₀ : ∀ k, k ∈ s₀.lru ↔ k < PCACHE_NSLOTS) (hlru : ∀ k, k ∈ s.lru ↔ k ∈ s₀.lru)
    (hkey : Sheds s₀ s) (hc : s.callers = s₀.callers) :
    Loses s₀ (flushFrom wb t ip n i busy s) t ∧
      ∀ x j, ¬ Evicting (flushFrom wb t ip n i busy s) t x j := by
  induction n generalizing i busy s with
  | zero =>
    exact ⟨.setCaller s₀ s hlru hkey hc (by simp [Caller.slot]),
      fun x j => not_evicting_setCaller (by simp)⟩
  | succ n ih =>
    unfold flushFrom
    split_ifs
    · exact ih _ _ (by omega) hlru hkey hc
    · exact ih _ _ (by omega) hlru hkey hc
    · refine ⟨.setCaller s₀ (s.pin i 1) hlru (fun j => ?_) hc ?_,
        fun x j => not_evicting_setCaller (by simp)⟩
      · rw [key_pin]
        exact hkey j
      · intro j hj
        obtain rfl : i = j := by simpa [Caller.slot] using hj
        exact (hl₀ i).mpr (by omega)
    · refine ih _ _ (by omega) hlru (fun j => ?_) hc
      by_cases hj : j = i
      · subst hj
        exact Or.inr (by simp [State.setSlot, Slot.drop, Slot.key])
      · simpa [State.setSlot, update_of_ne hj] using hkey j

end

/-! ## Steps and runs -/

section

variable [DecidableEq Node] {wb : Node → Bool} {a : Label Node}

/-- The pins a step gives back before anything else: those of the caller that goes on. -/
def released (s : State Node) : Label Node → ℕ → ℤ
  | .recheck t, k => if (s.callers t).slot = some k then 1 else 0
  | .writtenBack t _, k => if (s.callers t).slot = some k then 1 else 0
  | _, _ => 0

/-- Nobody looks for a page while another caller writes back a victim for it. -/
def Undisturbed (s : State Node) : Label Node → Prop
  | .get _ ip pgidx => ∀ u, ¬ Evicting s u ip pgidx
  | .recheck t => ∀ ip pgidx k, s.callers t = .waiting ip pgidx k → ∀ u, ¬ Evicting s u ip pgidx
  | _ => True

omit [DecidableEq Node] in
theorem key_writtenBack (s : State Node) (k j : ℕ) (ok : Bool) :
    ((writtenBack s k ok).slots j).key = (s.slots j).key := by
  refine key_setSlot ?_ j
  rfl

omit [DecidableEq Node] in
theorem evictResume_evicts {ok : Bool} (hk : k ∈ s.lru) :
    Evicts (writtenBack s k ok) t ip pgidx (evictResume wb t ip pgidx k ok s) := by
  unfold evictResume
  dsimp only
  split_ifs with h
  · exact .takes k hk h.1 rfl
  · exact evictFrom_evicts fun j hj => mem_behind hj

omit [DecidableEq Node] in
theorem fillResume_loses (t : ℕ) (ok : Bool) (hk : k ∈ s.lru) :
    Loses s (fillResume t k ok s) t ∧ ∀ x i, ¬ Evicting (fillResume t k ok s) t x i := by
  unfold fillResume
  dsimp only
  split
  · refine ⟨.setCaller s _ ?_ ?_ ?_ (by simp [Caller.slot]),
      fun x i => not_evicting_setCaller (by simp)⟩
    · exact fun _ => Iff.rfl
    · exact sheds_setSlot (Or.inl rfl)
    · rfl
  · refine ⟨.setCaller s _ ?_ ?_ ?_ (by simp [Caller.slot]),
      fun x i => not_evicting_setCaller (by simp)⟩
    · split
      · exact mem_toTail (s := s.setSlot k _) hk
      · exact fun _ => Iff.rfl
    · split
      · exact sheds_setSlot (Or.inr rfl)
      · exact sheds_setSlot (Or.inr rfl)
    · split <;> rfl

omit [DecidableEq Node] in
theorem pcachePut_keeps (hk : k ∈ s.lru) : (∀ j, j ∈ (pcachePut k s).lru ↔ j ∈ s.lru) ∧
    (∀ j, ((pcachePut k s).slots j).key = (s.slots j).key) ∧
    (pcachePut k s).callers = s.callers := by
  unfold pcachePut
  dsimp only
  split_ifs
  · exact ⟨mem_toHead (s := s.pin k (-1)) hk, fun j => key_pin s k j (-1), rfl⟩
  · exact ⟨fun _ => Iff.rfl, fun j => key_pin s k j (-1), rfl⟩
  · exact ⟨mem_toHead hk, fun _ => rfl, rfl⟩
  · exact ⟨fun _ => Iff.rfl, fun _ => rfl, rfl⟩

theorem sheds_invalidate {off len : ℕ} : Sheds s (pcacheInvalidateRange ip off len s) := by
  intro j
  unfold pcacheInvalidateRange
  split
  · exact Or.inl rfl
  · dsimp only
    split
    · exact Or.inr rfl
    · exact Or.inl rfl

/-- What one step does to the pages of the slots. -/
inductive Effect (s : State Node) (a : Label Node) (s' : State Node) : Prop
  /-- Caller `t` moves and slots may lose their pages. -/
  | loses (t : ℕ) : Loses s s' t → (∀ x i, ¬ Evicting s' t x i) → Effect s a s'
  /-- No caller moves. -/
  | keeps : (∀ k, k ∈ s'.lru ↔ k ∈ s.lru) →
      (∀ k, (s'.slots k).key = (s.slots k).key ∨ (s'.slots k).key = none) →
      s'.callers = s.callers → Effect s a s'
  /-- Caller `t` gives back its pin and looks for a victim, either because no slot has the
  page or because it was already looking for one. -/
  | evicts (s₁ : State Node) (t : ℕ) (ip : Node) (pgidx : ℕ) : s₁.lru = s.lru →
      (∀ k, (s₁.slots k).key = (s.slots k).key) → s₁.callers = s.callers →
      (∀ k, (s₁.slots k).refcnt = (s.slots k).refcnt - released s a k) →
      (Evicting s t ip pgidx ∨ Absent s ip pgidx ∧
        (Undisturbed s a → ∀ u, ¬ Evicting s u ip pgidx)) →
      Evicts s₁ t ip pgidx s' → Effect s a s'

theorem getSegment_effect {s₁ : State Node}
    (hl : ∀ k, k ∈ s.lru ↔ k < PCACHE_NSLOTS) (hlru : s₁.lru = s.lru)
    (hkey : ∀ k, (s₁.slots k).key = (s.slots k).key) (hc : s₁.callers = s.callers)
    (hr : ∀ k, (s₁.slots k).refcnt = (s.slots k).refcnt - released s a k)
    (hu : Undisturbed s a → ∀ u, ¬ Evicting s u ip pgidx) :
    Effect s a (getSegment wb t ip pgidx s₁) := by
  have hl₁ : ∀ k, k ∈ s₁.lru ↔ k < PCACHE_NSLOTS := by rwa [hlru]
  rcases getSegment_cases wb t ip pgidx hl₁ with
    ⟨hlo, hn⟩ | ⟨ha, he⟩
  · refine .loses t ⟨fun k => ?_, fun k => ?_, fun u hne => ?_, fun k hk => ?_⟩ hn
    · rw [hlo.lru, hlru]
    · rw [← hkey]
      exact hlo.key k
    · rw [hlo.callers u hne, hc]
    · rw [← hlru]
      exact hlo.slot k hk
  · refine .evicts s₁ t ip pgidx hlru hkey hc hr (Or.inr ⟨fun k hk => ?_, hu⟩) he
    rw [← hkey]
    exact ha k hk

theorem step_effect (h : Listed s) (hs : Step wb s a s') : Effect s a s' := by
  unfold Step step at hs
  cases a with
  | get t ip pgidx =>
    dsimp only at hs
    split at hs
    · obtain rfl := Option.some.inj hs
      exact getSegment_effect h.lru rfl (fun _ => rfl) rfl (by simp [released]) fun hu => hu
    · simp at hs
  | recheck t =>
    dsimp only at hs
    split at hs
    · next ip pgidx k hk =>
      obtain rfl := Option.some.inj hs
      refine getSegment_effect h.lru rfl (fun j => key_pin s k j (-1)) rfl (fun j => ?_)
        fun hu => hu ip pgidx k hk
      rw [refcnt_pin]
      simp only [released, hk, Caller.slot, Option.some.injEq, eq_comm (a := k)]
      split <;> ring
    · simp at hs
  | writtenBack t ok =>
    dsimp only at hs
    split at hs
    · next ip pgidx k hk =>
      obtain rfl := Option.some.inj hs
      have hlt := h.slot t k (by rw [hk]; rfl)
      refine .evicts (writtenBack s k ok) t ip pgidx rfl (fun j => key_writtenBack s k j ok) rfl
        (fun j => ?_) (Or.inl ⟨k, hk⟩) (evictResume_evicts ((h.lru k).mpr hlt))
      simp only [released, hk, Caller.slot, Option.some.injEq, eq_comm (a := k)]
      by_cases hj : j = k
      · subst hj
        simp [writtenBack, State.setSlot]
      · simp [writtenBack, State.setSlot, hj]
    · simp at hs
  | filled t ok =>
    dsimp only at hs
    split at hs
    · next k hk =>
      obtain rfl := Option.some.inj hs
      have hlt := h.slot t k (by rw [hk]; rfl)
      obtain ⟨hl, hn⟩ := fillResume_loses t ok ((h.lru k).mpr hlt)
      exact .loses t hl hn
    · simp at hs
  | put k =>
    dsimp only at hs
    split_ifs at hs with hk
    obtain rfl := Option.some.inj hs
    obtain ⟨h1, h2, h3⟩ := pcachePut_keeps (s := s) ((h.lru k).mpr hk)
    exact .keeps h1 (fun j => Or.inl (h2 j)) h3
  | flush t ip =>
    dsimp only at hs
    split at hs
    · obtain rfl := Option.some.inj hs
      obtain ⟨hl, hn⟩ := flushFrom_loses wb t ip false s s (i := 0) (Nat.zero_add _).le h.lru
        (fun _ => Iff.rfl) (fun _ => Or.inl rfl) rfl
      exact .loses t hl hn
    · simp at hs
  | flushWritten t =>
    dsimp only at hs
    split at hs
    · next ip k busy hk =>
      obtain rfl := Option.some.inj hs
      have hlt := h.slot t k (by rw [hk]; rfl)
      set s₁ := s.setSlot k { (s.slots k).drop with
        refcnt := (s.slots k).refcnt - 1, dirty := false }
      have hkey : Sheds s s₁ := sheds_setSlot (Or.inr rfl)
      obtain ⟨hl, hn⟩ := flushFrom_loses wb t ip busy s s₁
        (show k + 1 + (PCACHE_NSLOTS - (k + 1)) ≤ PCACHE_NSLOTS by omega) h.lru
        (fun _ => Iff.rfl) hkey rfl
      exact .loses t hl hn
    · simp at hs
  | invalidate ip off len =>
    obtain rfl := Option.some.inj hs
    refine .keeps ?_ sheds_invalidate ?_
    · unfold pcacheInvalidateRange
      split <;> simp
    · unfold pcacheInvalidateRange
      split <;> rfl
  | setDirty k dirty =>
    dsimp only at hs
    split_ifs at hs
    obtain rfl := Option.some.inj hs
    refine .keeps (fun _ => Iff.rfl) (fun j => Or.inl ?_) rfl
    exact key_setSlot (p := { s.slots k with dirty := dirty }) rfl j
  | setInvalid k =>
    dsimp only at hs
    split_ifs at hs
    obtain rfl := Option.some.inj hs
    refine .keeps (fun _ => Iff.rfl) (fun j => Or.inl ?_) rfl
    exact key_setSlot (p := { s.slots k with valid := false }) rfl j

theorem Listed.step (h : Listed s) (hs : Step wb s a s') : Listed s' := by
  cases step_effect h hs with
  | loses t hl _ => exact h.loses hl
  | keeps hlru _ hc => exact h.of_callers hlru hc
  | evicts s₁ t ip pgidx hlru _ hc _ _ he =>
    have h₁ : Listed s₁ := h.of_callers (fun _ => by rw [hlru]) hc
    cases he with
    | moves hl _ => exact h₁.loses hl
    | takes k hk _ he =>
      rw [he]
      exact h₁.assign ((h₁.lru k).mp hk)

theorem Inv.step (h : Inv s) (hu : Undisturbed s a) (hs : Step wb s a s') : Inv s' := by
  cases step_effect h.toListed hs with
  | loses t hl hn => exact h.loses hl fun x i hx => absurd hx (hn x i)
  | keeps hlru hkey hc => exact h.of_callers hlru hkey hc
  | evicts s₁ t ip pgidx hlru hkey hc _ hwhy he =>
    have h₁ : Inv s₁ := h.of_callers (fun _ => by rw [hlru]) (fun j => Or.inl (hkey j)) hc
    have hev : ∀ u, Evicting s₁ u ip pgidx ↔ Evicting s u ip pgidx := fun u => by
      unfold Evicting
      rw [hc]
    rcases hwhy with hmine | ⟨ha, hnone⟩
    · refine h₁.evicts (h₁.absent t ip pgidx ((hev t).mpr hmine)) (fun u hne hu' => hne ?_) he
      exact h.alone u t ip pgidx ((hev u).mp hu') hmine
    · refine h₁.evicts (fun k hk => ?_) (fun u _ hu' => hnone hu u ((hev u).mp hu')) he
      rw [hkey]
      exact ha k hk

/-- A slot with a pin besides the one the step gives back keeps its page or loses it, and
gets no other. -/
theorem pinned_keeps_key (h : Listed s) (hs : Step wb s a s')
    (hp : (s.slots k).refcnt ≠ released s a k) :
    (s'.slots k).key = (s.slots k).key ∨ (s'.slots k).key = none := by
  cases step_effect h hs with
  | loses t hl hn => exact hl.key k
  | keeps hlru hkey hc => exact hkey k
  | evicts s₁ t ip pgidx hlru hkey hc hr _ he =>
    rw [← hkey]
    refine he.pinned ?_
    rw [hr]
    omega

theorem Inv.of_reaches (hr : Reaches (Step wb) Undisturbed pcacheInit s) : Inv s :=
  hr.invariant inv_pcacheInit fun _ _ _ h hu hs => h.step hu hs

theorem Listed.of_reaches (hr : Reaches (Step wb) (fun _ _ => True) pcacheInit s) : Listed s :=
  hr.invariant inv_pcacheInit.toListed fun _ _ _ h _ hs => h.step hs

/-- In every run in which nobody looks for a page while another caller writes back a
victim for it, a page never has two slots. In every run whatsoever, no step gives a slot
to another page while somebody besides the caller that takes it has it pinned. -/
theorem page_slots_unique (wb : Node → Bool) : (∀ s, Reaches (Step wb) Undisturbed pcacheInit s →
      ∀ j < PCACHE_NSLOTS, ∀ k < PCACHE_NSLOTS, ∀ ip pgidx,
        (s.slots j).key = some (ip, pgidx) → (s.slots k).key = some (ip, pgidx) → j = k) ∧
    (∀ s, Reaches (Step wb) (fun _ _ => True) pcacheInit s →
      ∀ a s' k, Step wb s a s' → (s.slots k).refcnt ≠ released s a k → ∀ x,
        (s'.slots k).key = some x → (s.slots k).key = some x) := by
  constructor
  · intro s hr j hj k hk ip pgidx
    exact (Inv.of_reaches hr).unique j hj k hk (ip, pgidx)
  · intro s hr a s' k hs hp x hx
    rcases pinned_keeps_key (Listed.of_reaches hr) hs hp with he | he
    · rw [← he, hx]
    · simp [he] at hx

end

theorem runLabels_reaches {Node : Type} [DecidableEq Node] {wb : Node → Bool}
    {as : List (Label Node)} {s s' : State Node} (h : runLabels wb as s = some s') :
    Reaches (Step wb) (fun _ _ => True) s s' :=
  reaches_of_run (fun _ => rfl) (fun _ _ _ => (if_pos trivial).symm) id h

def fillCache : List (Label ℕ) :=
  (List.range PCACHE_NSLOTS).flatMap fun i => [.get 0 0 i, .filled 0 true]

/-! ## Runs of two callers -/

section

variable {Node : Type} [DecidableEq Node] {wb : Node → Bool} {s s' : State Node}

/-- Nobody but callers 0 and 1 is in a call. -/
def TwoCallers (s : State Node) : Prop := ∀ u, 2 ≤ u → ∃ last, s.callers u = .idle last

/-- Nobody looks for a page while one of two callers writes back a victim for it. -/
def calm (s : State Node) : Label Node → Bool
  | .get t ip pgidx => decide (t < 2) && [s.callers 0, s.callers 1].all fun
    | .evicting ip' pgidx' _ => !(ip' == ip && pgidx' == pgidx)
    | _ => true
  | .filled t _ | .writtenBack t _ => decide (t < 2)
  | .put _ | .setDirty _ _ => true
  | _ => false

theorem undisturbed_of_calm {a : Label Node} (h : TwoCallers s) (hc : calm s a = true) :
    Undisturbed s a := by
  cases a with
  | get t ip pgidx =>
    simp only [calm, Bool.and_eq_true, List.all_cons, List.all_nil, and_true] at hc
    rintro u ⟨k, hk⟩
    match u with
    | 0 => simp [hk] at hc
    | 1 => simp [hk] at hc
    | u + 2 =>
      obtain ⟨last, hl⟩ := h (u + 2) (by omega)
      rw [hl] at hk
      cases hk
  | recheck t => cases hc
  | _ => trivial

omit [DecidableEq Node] in
theorem TwoCallers.set {t : ℕ} {c : Caller Node} (h : TwoCallers s) (ht : t < 2)
    (hs : s'.callers = Function.update s.callers t c) : TwoCallers s' := fun u hu => by
  rw [hs, Function.update_of_ne (by omega)]
  exact h u hu

omit [DecidableEq Node] in
theorem TwoCallers.evictFrom {t : ℕ} (h : TwoCallers s) (ht : t < 2) (ip : Node) (pgidx : ℕ)
    (ks : List ℕ) : TwoCallers (evictFrom wb t ip pgidx ks s) := by
  unfold Pcache.evictFrom
  split
  · exact h.set ht rfl
  · exact h.set ht rfl
  · exact h.set ht rfl

theorem TwoCallers.step {a : Label Node} (h : TwoCallers s) (hc : calm s a = true)
    (hs : step wb s a = some s') : TwoCallers s' := by
  cases a with
  | get t ip pgidx =>
    have ht : t < 2 := by
      simp only [calm, Bool.and_eq_true, decide_eq_true_eq] at hc
      exact hc.1
    dsimp only [Pcache.step] at hs
    split at hs
    swap
    · cases hs
    cases hs
    unfold getSegment
    split
    · split
      · exact h.set ht rfl
      · exact h.set ht rfl
    · split
      · exact h.set ht rfl
      · exact h.evictFrom ht _ _ _
  | filled t ok =>
    have ht : t < 2 := of_decide_eq_true hc
    dsimp only [Pcache.step] at hs
    split at hs
    swap
    · cases hs
    cases hs
    unfold fillResume
    dsimp only
    split
    · exact h.set ht rfl
    · split
      · exact h.set ht rfl
      · exact h.set ht rfl
  | writtenBack t ok =>
    have ht : t < 2 := of_decide_eq_true hc
    dsimp only [Pcache.step] at hs
    split at hs
    swap
    · cases hs
    cases hs
    unfold evictResume
    dsimp only
    split
    · exact h.set ht rfl
    · exact TwoCallers.evictFrom (s := writtenBack _ _ _) h ht _ _ _
  | put k =>
    obtain ⟨-, rfl⟩ := Option.ite_none_right_eq_some.mp hs |>.imp_right Option.some.inj
    unfold pcachePut
    dsimp only
    split <;> split <;> exact h
  | setDirty k d =>
    obtain ⟨-, rfl⟩ := Option.ite_none_right_eq_some.mp hs |>.imp_right Option.some.inj
    exact h
  | _ => cases hc

/-- A run that is calm at every step. -/
def runCalm (wb : Node → Bool) : List (Label Node) → State Node → Option (State Node)
  | [], s => some s
  | a :: as, s => if calm s a = true then (step wb s a).bind (runCalm wb as) else none

theorem runCalm_reaches {as : List (Label Node)} (h : TwoCallers s)
    (hr : runCalm wb as s = some s') :
    Reaches (Step wb) Undisturbed s s' := by
  have hboth : Reaches (Step wb) (fun s a => calm s a = true) s s' :=
    reaches_of_run (fun _ => rfl) (fun _ _ _ => rfl) id hr
  clear hr
  have hstep : Reaches (Step wb) Undisturbed s s' ∧ TwoCallers s' := by
    induction hboth with
    | refl => exact ⟨.refl, h⟩
    | tail _ hc hs ih => exact ⟨.tail ih.1 (undisturbed_of_calm ih.2 hc) hs, ih.2.step hc hs⟩
  exact hstep.1

end

/-- Two slots are dirty and released. Caller 0 writes one of them back for page 0 of file 1, while
caller 1 asks for page 0 of file 2 and gets the other. -/
def evictForTwo : List (Label ℕ) :=
  fillCache ++ [.setDirty 0 true, .put 0, .setDirty 1 true, .put 1,
    .get 0 1 0, .get 1 2 0, .writtenBack 1 true, .filled 1 true, .writtenBack 0 true,
      .filled 0 true]

theorem page_slots_unique_two_callers :
    ∃ s, Reaches (Step fun _ => true) Undisturbed (pcacheInit : State ℕ) s ∧
      (s.slots 0).key = some (1, 0) ∧ (s.slots 1).key = some (2, 0) ∧
      ∀ j < PCACHE_NSLOTS, (s.slots j).key = some (1, 0) → j = 0 := by
  have h : (runCalm (fun _ => true) evictForTwo (pcacheInit : State ℕ)).any
      (fun s => decide ((s.slots 0).key = some (1, 0) ∧ (s.slots 1).key = some (2, 0))) = true := by
    decide +kernel
  obtain ⟨s, hs, hP⟩ := (Option.any_eq_true _ _).mp h
  obtain ⟨h0, h1⟩ := of_decide_eq_true hP
  have hr := runCalm_reaches (fun _ _ => ⟨none, rfl⟩) hs
  exact ⟨s, hr, h0, h1, fun j hj he =>
    (page_slots_unique fun _ : ℕ => true).1 s hr j hj 0 (by decide) 1 0 he h0⟩

/-- Two slots are dirty and released, and two callers miss on page 0 of file 1. -/
def raceForPage : List (Label ℕ) :=
  fillCache ++ [.setDirty 0 true, .put 0, .setDirty 1 true, .put 1,
    .get 0 1 0, .get 1 1 0, .writtenBack 0 true, .writtenBack 1 true]

/-- Both callers of the race give the page a slot. -/
theorem page_slots_race :
    ∃ s, Reaches (Step fun _ => true) (fun _ _ => True) (pcacheInit : State ℕ) s ∧
      (s.slots 0).key = some (1, 0) ∧ (s.slots 1).key = some (1, 0) := by
  have h : (runLabels (fun _ => true) raceForPage pcacheInit).any
      (fun s => decide ((s.slots 0).key = some (1, 0) ∧ (s.slots 1).key = some (1, 0))) = true := by
    decide +kernel
  obtain ⟨s, hs, hd⟩ := (Option.any_eq_true _ _).mp h
  exact ⟨s, runLabels_reaches hs, of_decide_eq_true hd⟩

end Sbunix.Pcache
