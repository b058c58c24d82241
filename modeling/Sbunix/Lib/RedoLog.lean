import Sbunix.Lib.Replay

/-!
# Redo logging

A redo log keeps a header address and numbered slots apart from the addresses
it protects. A transaction is committed by writing its values to the slots,
then a header that names their home addresses, then the values themselves,
then an empty header. Whatever prefix of these writes survives, the device is
either settled (the header is empty) or pending (the header and the slots
describe the whole transaction), and replaying a pending transaction settles
it, no matter how often the replay is itself cut short.
-/

namespace Sbunix.Lib

open List Function

variable {α β : Type*} [DecidableEq α]

/-- The addresses a log occupies; `dec` reads the home addresses a header names. -/
structure RedoLog (α β : Type*) where
  area : Set α
  hdr : α
  slot : ℕ → α
  cap : ℕ
  dec : β → List α
  hdr_mem : hdr ∈ area
  slot_mem : ∀ i < cap, slot i ∈ area
  slot_ne : ∀ i < cap, slot i ≠ hdr
  slot_inj : ∀ i < cap, ∀ j < cap, slot i = slot j → i = j

/-- A transaction that fits the log and writes each home address once. -/
structure RedoTxn (L : RedoLog α β) where
  n : ℕ
  home : ℕ → α
  data : ℕ → β
  n_le : n ≤ L.cap
  home_notMem : ∀ i < n, home i ∉ L.area
  home_inj : ∀ i < n, ∀ j < n, home i = home j → i = j

variable {L : RedoLog α β}

namespace RedoTxn

variable (t : RedoTxn L)

def homes : List α := (List.range t.n).map t.home

def slotWrites : List (α × β) := (List.range t.n).map fun i => (L.slot i, t.data i)

def homeWrites : List (α × β) := (List.range t.n).map fun i => (t.home i, t.data i)

/-- The contents after the transaction. -/
def post (P : α → β) : α → β := applyWrites t.homeWrites P

/-- The writes of a commit whose two headers are `h₁` and `h₀`. -/
def commitWrites (h₁ h₀ : β) : List (α × β) :=
  t.slotWrites ++ ((L.hdr, h₁) :: (t.homeWrites ++ [(L.hdr, h₀)]))

/-- The writes of a replay. -/
def replayWrites (h₀ : β) : List (α × β) := t.homeWrites ++ [(L.hdr, h₀)]

end RedoTxn

/-- No transaction is under way and the protected contents are `P`. -/
structure Settled (L : RedoLog α β) (P d : α → β) : Prop where
  hdr : L.dec (d L.hdr) = []
  home : ∀ a ∉ L.area, d a = P a

/-- The log describes `t`; each protected address holds its value before or after it. -/
structure Pending (t : RedoTxn L) (P d : α → β) : Prop where
  hdr : L.dec (d L.hdr) = t.homes
  slot : ∀ i < t.n, d (L.slot i) = t.data i
  home : ∀ a ∉ L.area, d a = P a ∨ d a = t.post P a

section

variable (t : RedoTxn L) {a : α} {i : ℕ}

omit [DecidableEq α] in
theorem mem_map_fst_homeWrites : a ∈ t.homeWrites.map Prod.fst ↔ ∃ i < t.n, t.home i = a := by
  simp [RedoTxn.homeWrites]

theorem take_succ_range_map {γ : Type*} (f : ℕ → γ) {n : ℕ} (hi : i < n) :
    ((List.range n).map f).take (i + 1) = ((List.range n).map f).take i ++ [f i] := by
  rw [take_add_one]
  simp [hi]

omit [DecidableEq α] in
theorem slotWrites_take_succ (hi : i < t.n) :
    t.slotWrites.take (i + 1) = t.slotWrites.take i ++ [(L.slot i, t.data i)] :=
  take_succ_range_map _ hi

omit [DecidableEq α] in
theorem homeWrites_take_succ (hi : i < t.n) :
    t.homeWrites.take (i + 1) = t.homeWrites.take i ++ [(t.home i, t.data i)] :=
  take_succ_range_map _ hi

omit [DecidableEq α] in
theorem slotWrites_take_n : t.slotWrites.take t.n = t.slotWrites :=
  take_of_length_le (by simp [RedoTxn.slotWrites])

omit [DecidableEq α] in
theorem homeWrites_take_n : t.homeWrites.take t.n = t.homeWrites :=
  take_of_length_le (by simp [RedoTxn.homeWrites])

theorem post_home (P : α → β) (hi : i < t.n) : t.post P (t.home i) = t.data i :=
  applyWrites_range t.home_inj P hi

theorem writesFrom_post (P : α → β) : WritesFrom (t.post P) t.homeWrites := by
  intro w hw
  simp only [RedoTxn.homeWrites, mem_map, mem_range] at hw
  obtain ⟨i, hi, rfl⟩ := hw
  exact (post_home t P hi).symm

theorem post_of_notMem (P : α → β) (h : ∀ i < t.n, t.home i ≠ a) : t.post P a = P a := by
  apply applyWrites_of_notMem
  rw [mem_map_fst_homeWrites]
  rintro ⟨i, hi, he⟩
  exact h i hi he

/-- Home writes stay out of the log. -/
theorem homeWrites_area (k : ℕ) (d : α → β) (ha : a ∈ L.area) :
    applyWrites (t.homeWrites.take k) d a = d a := by
  apply applyWrites_of_notMem
  intro hm
  have := (take_sublist k t.homeWrites).map Prod.fst |>.subset hm
  obtain ⟨i, hi, rfl⟩ := (mem_map_fst_homeWrites t).mp this
  exact t.home_notMem i hi ha

theorem slotWrites_notMem (k : ℕ) (ha : ∀ i < t.n, L.slot i ≠ a) (d : α → β) :
    applyWrites (t.slotWrites.take k) d a = d a := by
  apply applyWrites_of_notMem
  intro hm
  have := (take_sublist k t.slotWrites).map Prod.fst |>.subset hm
  simp only [RedoTxn.slotWrites, map_map, mem_map, mem_range] at this
  obtain ⟨i, hi, he⟩ := this
  exact ha i hi he

theorem slotWrites_slot (d : α → β) (hi : i < t.n) :
    applyWrites t.slotWrites d (L.slot i) = t.data i :=
  applyWrites_range
    (fun j hj k hk => L.slot_inj j (hj.trans_le t.n_le) k (hk.trans_le t.n_le)) d hi

/-- Outside the log area a commit leaves exactly the transaction's writes. -/
theorem commitWrites_notMem (h₁ h₀ : β) (d : α → β) (ha : a ∉ L.area) :
    applyWrites (t.commitWrites h₁ h₀) d a = t.post d a := by
  have hne : a ≠ L.hdr := by
    rintro rfl
    exact ha L.hdr_mem
  have hslot : applyWrites t.slotWrites d a = d a := by
    have := slotWrites_notMem t t.n (a := a) ?_ d
    · rwa [slotWrites_take_n] at this
    · rintro i hi rfl
      exact ha (L.slot_mem i (hi.trans_le t.n_le))
  have hpost := applyWrites_from (writesFrom_post t d) d a
  rw [RedoTxn.commitWrites, applyWrites_append, applyWrites_cons, applyWrites_append,
    applyWrites_cons, applyWrites_nil, update_of_ne hne,
    applyWrites_from (writesFrom_post t d), update_of_ne hne, hslot, ← hpost]
  rfl

end

variable {t : RedoTxn L} {P d : α → β}

/-- Filling slots does not commit anything. -/
theorem Settled.slots (h : Settled L P d) (t : RedoTxn L) (k : ℕ) :
    Settled L P (applyWrites (t.slotWrites.take k) d) where
  hdr := by
    rw [slotWrites_notMem t k fun i hi => L.slot_ne i (hi.trans_le t.n_le)]
    exact h.hdr
  home a ha := by
    rw [slotWrites_notMem t k, h.home a ha]
    rintro i hi rfl
    exact ha (L.slot_mem i (hi.trans_le t.n_le))

/-- The header write is the commit point. -/
theorem Settled.commit (h : Settled L P d) {h₁ : β} (h₁t : L.dec h₁ = t.homes) :
    Pending t P (update (applyWrites t.slotWrites d) L.hdr h₁) where
  hdr := by rw [update_self, h₁t]
  slot i hi := by
    rw [update_of_ne (L.slot_ne i (hi.trans_le t.n_le)), slotWrites_slot t d hi]
  home a ha := by
    have hne : a ≠ L.hdr := by
      rintro rfl
      exact ha L.hdr_mem
    have := (h.slots t t.slotWrites.length).home a ha
    rw [take_length] at this
    rw [update_of_ne hne]
    exact Or.inl this

/-- Installing any part of a pending transaction keeps it pending. -/
theorem Pending.install (h : Pending t P d) (k : ℕ) :
    Pending t P (applyWrites (t.homeWrites.take k) d) where
  hdr := by rw [homeWrites_area t k d L.hdr_mem, h.hdr]
  slot i hi := by
    rw [homeWrites_area t k d (L.slot_mem i (hi.trans_le t.n_le)), h.slot i hi]
  home a ha := by
    rw [applyWrites_from ((writesFrom_post t P).take k)]
    split
    · exact Or.inr rfl
    · exact h.home a ha

variable {h₀ : β}

/-- Clearing the header after a full installation settles the transaction. -/
theorem Pending.finish (h : Pending t P d) (hnil : L.dec h₀ = []) :
    Settled L (t.post P) (update (applyWrites t.homeWrites d) L.hdr h₀) where
  hdr := by rw [update_self, hnil]
  home a ha := by
    have hne : a ≠ L.hdr := by
      rintro rfl
      exact ha L.hdr_mem
    rw [update_of_ne hne, applyWrites_from (writesFrom_post t P)]
    split
    · rfl
    · next hm =>
      have hpost : t.post P a = P a := by
        apply post_of_notMem
        intro i hi he
        exact hm ((mem_map_fst_homeWrites t).mpr ⟨i, hi, he⟩)
      rcases h.home a ha with he | he
      · rw [he, hpost]
      · exact he

/-- A crash during a replay leaves the transaction pending or done. -/
theorem Pending.replay_take (h : Pending t P d) (hnil : L.dec h₀ = []) (k : ℕ) :
    Pending t P (applyWrites ((t.replayWrites h₀).take k) d) ∨
      Settled L (t.post P) (applyWrites ((t.replayWrites h₀).take k) d) := by
  unfold RedoTxn.replayWrites
  rcases le_or_gt k t.homeWrites.length with hk | hk
  · left
    rw [take_append_of_le_length hk]
    exact h.install k
  · right
    rw [take_of_length_le (by simp; omega), applyWrites_append]
    exact h.finish hnil

theorem Pending.replay (h : Pending t P d) (hnil : L.dec h₀ = []) :
    Settled L (t.post P) (applyWrites (t.replayWrites h₀) d) := by
  rw [RedoTxn.replayWrites, applyWrites_append]
  exact h.finish hnil

/-- A crash during a commit leaves the transaction not begun, pending or done. -/
theorem Settled.commit_take (h : Settled L P d) {h₁ : β} (h₁t : L.dec h₁ = t.homes)
    (hnil : L.dec h₀ = []) (k : ℕ) :
    Settled L P (applyWrites ((t.commitWrites h₁ h₀).take k) d) ∨
      Pending t P (applyWrites ((t.commitWrites h₁ h₀).take k) d) ∨
      Settled L (t.post P) (applyWrites ((t.commitWrites h₁ h₀).take k) d) := by
  unfold RedoTxn.commitWrites
  rcases le_or_gt k t.slotWrites.length with hk | hk
  · left
    rw [take_append_of_le_length hk]
    exact h.slots t k
  · right
    obtain ⟨j, rfl⟩ : ∃ j, k = t.slotWrites.length + (j + 1) :=
      ⟨k - t.slotWrites.length - 1, by omega⟩
    rw [take_length_add_append, take_succ_cons, applyWrites_append, applyWrites_cons]
    exact (h.commit h₁t).replay_take hnil j

end Sbunix.Lib
