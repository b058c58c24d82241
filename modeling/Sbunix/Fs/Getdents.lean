import Sbunix.Fs.Reading

/-!
# sbfs: listing a directory

`sbfs_op_getdents` behind `sys_getdents64`. The cursor is moved over an entry
before the code looks whether its record fits into the buffer, so the first
record that does not fit is left out and not returned by the next call either.
A listing is complete exactly if the records of all entries fit into the buffer
of the first call.
-/

namespace Sbunix.Fs

open Lib List Kern

/-! ## The code -/

/-- `struct dirent64`; `d_reclen` is `reclen` of the name. -/
structure Record where
  ino : ℕ
  off : ℕ
  type : ℕ
  name : Name
  deriving DecidableEq

def DIRENT64_FIXED_LEN : ℕ := 19

def reclen (name : Name) : ℕ := (DIRENT64_FIXED_LEN + name.length + 1 + 7) / 8 * 8

/-- `DT_REG`, `DT_DIR`, `DT_LNK`, and `DT_UNKNOWN` otherwise. -/
def dtype : Option IType → ℕ
  | some .dir => 4
  | some .reg => 8
  | some .lnk => 10
  | _ => 0

/-- The type of inode `inum`, looked up in the inode cache. -/
def typeOf (inum : ℕ) : Kern State ℕ := do
  let tip ← iget inum
  match tip with
  | none => pure (dtype none)
  | some y => do
    let s ← Kern.get
    inodePut y
    pure (dtype (some (s.icache y).type))

/-- The loop of `sbfs_op_getdents`: the records stored from here on, and the cursor at the end. -/
def getdentsLoop (x bufsize : ℕ) : ℕ → ℕ → ℕ → Kern State (List Record × ℕ)
  | 0, off, _ => pure ([], off)
  | fuel + 1, off, written => do
    let s ← Kern.get
    if (s.icache x).d.size ≤ off then
      pure ([], off)
    else do
      let (r, de) ← readi x off (fun _ => 0) 16
      if r ≠ 16 then
        pure ([], off)
      else if deInum de = 0 then
        getdentsLoop x bufsize fuel (off + 16) written
      else if bufsize < written + reclen (deName de) then
        pure ([], off + 16)
      else do
        let type ← typeOf (deInum de)
        let (rs, next) ← getdentsLoop x bufsize fuel (off + 16) (written + reclen (deName de))
        pure (⟨deInum de, off + 16, type, deName de⟩ :: rs, next)

def opGetdents (x off bufsize : ℕ) : Kern State (List Record × ℕ) := do
  ilock x
  let s ← Kern.get
  getdentsLoop x bufsize (nsteps (s.icache x).d.size) off 0

/-- `sys_getdents64` on an open directory: the records, and `f->off` afterwards. -/
def getdents64 (x off n : ℕ) : Kern State (List Record × ℕ) := do
  let (rs, next) ← opGetdents x off (min n 1024)
  pure (rs, if rs = [] then off else next)

/-! ## One call -/

/-- The entries of a directory: the inode number and the name of a live one, `none` for a free one.
-/
abbrev Ents := List (Option (ℕ × Name))

/-- What a call returns of the entries from its cursor on, and how far it moves the cursor. -/
def fill (b : ℕ) : Ents → ℕ → List (ℕ × Name) × ℕ
  | [], _ => ([], 0)
  | none :: es, w => ((fill b es w).1, (fill b es w).2 + 1)
  | some (i, nm) :: es, w =>
    if b < w + reclen nm then ([], 1)
    else ((i, nm) :: (fill b es (w + reclen nm)).1, (fill b es (w + reclen nm)).2 + 1)

def entries (data : ℕ → Block) (d : Dinode) : Ents := (List.range (d.size / 16)).map (entOf data d)

/-- Slot `x` holds an open directory with the entries `es`. An entry does not lead to an inode
without links, and unused slots of the inode cache have no dirty pages. -/
structure Listable (s : State) (x : ℕ) (es : Ents) : Prop where
  valid : (s.icache x).valid = true
  held : 0 < (s.icache x).refcnt
  dir : (s.icache x).d.type = .dir
  ok : DirOk s.data (s.icache x).d
  ents : entries s.data (s.icache x).d = es
  linked : ∀ c nm, some (c, nm) ∈ es → igetHit s c = none → (s.inodes c).nlink ≠ 0 ∨
    (s.inodes c).type = .free
  clean : ∀ y k, (s.icache y).refcnt = 0 → (s.pages k).ip = some (.sbfs y) →
    (s.pages k).dirty = false

variable {s' : State} {c y k : ℕ} {s : State} {x : ℕ} {es : Ents}

/-- Slots in use, the inode table and the blocks are as before, and no page has become dirty. -/
structure Unused (s s' : State) : Prop where
  slots : ∀ y, (s.icache y).refcnt ≠ 0 → s'.icache y = s.icache y
  refcnt : ∀ y, (s'.icache y).refcnt = (s.icache y).refcnt
  inodes : s'.inodes = s.inodes
  data : s'.data = s.data
  pages : ∀ y k, (s'.pages k).ip = some (.sbfs y) →
    (s.pages k).ip = some (.sbfs y) ∧ (s'.pages k).dirty = (s.pages k).dirty

theorem Unused.refl (s : State) : Unused s s :=
  ⟨fun _ _ => rfl, fun _ => rfl, rfl, rfl, fun _ _ h => ⟨h, rfl⟩⟩

theorem Unused.igetHit (h : Unused s s') (c : ℕ) : igetHit s' c = igetHit s c := by
  unfold Fs.igetHit
  congr 1
  funext y
  rw [h.refcnt y]
  by_cases hy : (s.icache y).refcnt = 0
  · simp [hy]
  · rw [h.slots y hy]

theorem Listable.unused (h : Listable s x es) (hu : Unused s s') : Listable s' x es := by
  have hx : s'.icache x = s.icache x := hu.slots x h.held.ne'
  refine ⟨hx ▸ h.valid, hx ▸ h.held, hx ▸ h.dir, ?_, ?_, fun c nm hc hmiss => ?_,
    fun y k hy hk => ?_⟩
  · rw [hx, hu.data]
    exact h.ok
  · rw [hx, hu.data]
    exact h.ents
  · rw [hu.inodes]
    exact h.linked c nm hc (hu.igetHit c ▸ hmiss)
  · obtain ⟨hk', hd⟩ := hu.pages y k hk
    rw [hd]
    exact h.clean y k (hu.refcnt y ▸ hy) hk'

theorem flush_clean {ip : Node} {n j : ℕ} (hc : ∀ k, (s.pages k).ip = some ip →
    (s.pages k).dirty = false) :
    ∃ p, Kern.loop (flushSlot ip) j n s = (some (), { s with pages := p }) ∧
      ∀ k, p k = s.pages k ∨ (p k).ip = none := by
  induction n generalizing j s with
  | zero => exact ⟨s.pages, rfl, fun _ => .inl rfl⟩
  | succ n ih =>
    obtain ⟨p, hp, hkeep⟩ : ∃ p, flushSlot ip j s = (some (), { s with pages := p }) ∧
        ∀ k, p k = s.pages k ∨ (p k).ip = none := by
      rw [flushSlot, get_bind, Kern.ite_apply]
      split
      · exact ⟨s.pages, rfl, fun _ => .inl rfl⟩
      next hip =>
      rw [Kern.ite_apply]
      split
      · exact ⟨s.pages, rfl, fun _ => .inl rfl⟩
      · rw [not_not] at hip
        rw [Kern.ite_apply, if_neg (by rw [hc j hip]; decide)]
        refine ⟨_, rfl, fun k => ?_⟩
        by_cases hk : k = j
        · subst hk
          exact .inr (by simp)
        · exact .inl (Function.update_of_ne hk _ _)
    have hc' : ∀ k, (p k).ip = some ip → (p k).dirty = false := by
      intro k hk
      rcases hkeep k with hsame | hnone
      · rw [hsame] at hk ⊢
        exact hc k hk
      · rw [hnone] at hk
        cases hk
    obtain ⟨q, hq, hkeep'⟩ := ih (s := { s with pages := p }) (j := j + 1) hc'
    refine ⟨q, by rw [Kern.loop, bind_some hp]; exact hq, fun k => ?_⟩
    rcases hkeep' k with hsame | hnone
    · rw [hsame]
      exact hkeep k
    · exact .inr hnone

theorem setInCore_apply (y : ℕ) (g : Slot → Slot) (s : State) :
    setInCore y g s = (some (), s.setSlot y (g (s.icache y))) :=
  rfl

theorem iget_hit (h : igetHit s c = some y) :
    iget c s = (some (some y), s.setSlot y ((s.icache y).withRef ((s.icache y).refcnt + 1))) := by
  rw [iget, get_bind, h]
  rfl

theorem iget_miss (hhit : igetHit s c = none) (hfree : igetFree s = some y) :
    iget c s = (some (some y), s.setSlot y ((s.icache y).fresh c (s.inodes c))) := by
  rw [iget, get_bind, hhit]
  dsimp only
  rw [hfree]
  dsimp only
  have hload : ilock y (s.setSlot y { s.icache y with
        inum := c, valid := false, dirty := false, refcnt := 1, mountChild :=
          none, mountParent := none }) =
      (some (), s.setSlot y ((s.icache y).fresh c (s.inodes c))) := by
    change (some (), _) = _
    simp [State.setSlot, Slot.fresh]
  rw [bind_some (setInCore_apply y _ s), bind_some hload]
  rfl

theorem inodePut_fresh {v : Slot} (hv : s.icache y = v.fresh c (s.inodes c))
    (hlinked : (s.inodes c).nlink ≠ 0 ∨ (s.inodes c).type = .free)
    (hclean : ∀ k, (s.pages k).ip = some (.sbfs y) → (s.pages k).dirty = false) :
    ∃ p w, inodePut y s = (some (), { s.setSlot y w with pages := p }) ∧ w.refcnt = 0 ∧
      ∀ k, p k = s.pages k ∨ (p k).ip = none := by
  obtain ⟨u, hu⟩ : ∃ u : Slot, u = (s.icache y).withRef ((s.icache y).refcnt - 1) := ⟨_, rfl⟩
  have hu0 : u.refcnt = 0 := by
    rw [hu, hv]
    rfl
  have hneeds : (u.valid && u.d.nlink == 0 && u.d.type != .free || u.dirty) = false := by
    rw [hu, hv]
    simp only [Slot.withRef, Slot.fresh, Slot.load, Bool.or_false, Bool.true_and]
    rcases hlinked with h | h
    · simp [h]
    · simp [h]
  have hput : inodePut y s = opRelease y (s.setSlot y u) := by
    rw [inodePut, bind_some (setInCore_apply y _ s), ← Slot.withRef, ← hu,
      get_bind, Kern.ite_apply, if_pos (by rw [State.setSlot_icache_self, hu0])]
  obtain ⟨u', hu'⟩ : ∃ u' : Slot, u' = { u with dirty := false, valid := false } := ⟨_, rfl⟩
  obtain ⟨p, hflush, hp⟩ :
    ∃ p, pcacheFlushInode (.sbfs y) (s.setSlot y u') =
    (some (), { s.setSlot y u' with pages := p }) ∧
      ∀ k, p k = s.pages k ∨ (p k).ip = none := flush_clean hclean
  refine ⟨p, { u' with inum := 0 }, ?_, by rw [hu']; exact hu0, hp⟩
  rw [hput, opRelease, get_bind]
  dsimp only
  have hdrop : setInCore y (fun v => { v with dirty := false, valid := false }) (s.setSlot y u) =
      (some (), s.setSlot y u') := by
    rw [setInCore_apply, State.setSlot_icache_self, ← hu']
    simp [State.setSlot]
  rw [State.setSlot_icache_self, Kern.ite_apply, if_neg (by rw [hneeds]; decide), bind_some hdrop,
    bind_some hflush, setInCore_apply]
  simp [State.setSlot]

theorem typeOf_hit (hhit : igetHit s c = some y) :
    ∃ t s', typeOf c s = (some t, s') ∧ Unused s s' := by
  obtain ⟨-, -, hy, -⟩ := firstFrom_some hhit
  have href : 0 < (s.icache y).refcnt := by
    rw [Bool.and_eq_true] at hy
    exact of_decide_eq_true hy.1
  obtain ⟨s1, hs1⟩ : ∃ s1, s1 = s.setSlot y ((s.icache y).withRef ((s.icache y).refcnt + 1)) :=
    ⟨_, rfl⟩
  have hback : (s1.icache y).withRef ((s1.icache y).refcnt - 1) = s.icache y := by
    rw [hs1, State.setSlot_icache_self]
    simp [Slot.withRef]
  have hput : inodePut y s1 = (some (), s1.setSlot y (s.icache y)) := by
    rw [inodePut, bind_some (setInCore_apply y _ s1), ← Slot.withRef, hback,
      get_bind, Kern.ite_apply,
      if_neg (by rw [State.setSlot_icache_self]; exact href.ne')]
    rfl
  have hslot : ∀ z, (s1.setSlot y (s.icache y)).icache z = s.icache z := by
    intro z
    by_cases hz : z = y
    · rw [hz, State.setSlot_icache_self]
    · rw [State.setSlot_icache_ne hz, hs1, State.setSlot_icache_ne hz]
  rw [typeOf, bind_some (iget_hit hhit), ← hs1]
  dsimp only
  rw [get_bind, bind_some hput]
  refine ⟨_, _, rfl, fun z _ => hslot z, fun z => by rw [hslot z], ?_, ?_, ?_⟩
  · rw [hs1]
    rfl
  · rw [hs1]
    rfl
  · rw [hs1]
    exact fun _ _ h => ⟨h, rfl⟩

theorem typeOf_miss (hhit : igetHit s c = none) (hfree : igetFree s = some y)
    (hlinked : (s.inodes c).nlink ≠ 0 ∨ (s.inodes c).type = .free)
    (hclean : ∀ k, (s.pages k).ip = some (.sbfs y) → (s.pages k).dirty = false) :
    ∃ t s', typeOf c s = (some t, s') ∧ Unused s s' := by
  obtain ⟨-, -, hy, -⟩ := firstFrom_some hfree
  have hy0 : (s.icache y).refcnt = 0 := by simpa using hy
  obtain ⟨s1, hs1⟩ : ∃ s1, s1 = s.setSlot y ((s.icache y).fresh c (s.inodes c)) := ⟨_, rfl⟩
  have hself : s1.icache y = (s.icache y).fresh c (s1.inodes c) := by
    rw [hs1, State.setSlot_icache_self]
    rfl
  obtain ⟨p, w, hput, hw, hp⟩ :=
    inodePut_fresh hself (by rw [hs1]; exact hlinked) (by rw [hs1]; exact hclean)
  have hslot : ∀ z, z ≠ y → (s1.setSlot y w).icache z = s.icache z := by
    intro z hz
    rw [State.setSlot_icache_ne hz, hs1, State.setSlot_icache_ne hz]
  rw [typeOf, bind_some (iget_miss hhit hfree), ← hs1]
  dsimp only
  rw [get_bind, bind_some hput]
  refine ⟨_, _, rfl, fun z hz => hslot z (by rintro rfl; exact hz hy0), fun z => ?_, ?_, ?_,
    fun z k hk => ?_⟩
  · change ((s1.setSlot y w).icache z).refcnt = _
    by_cases hz : z = y
    · subst hz
      rw [State.setSlot_icache_self, hw, hy0]
    · rw [hslot z hz]
  · rw [hs1]
    rfl
  · rw [hs1]
    rfl
  · change (p k).ip = _ at hk
    change _ ∧ (p k).dirty = _
    rcases hp k with hsame | hnone
    · rw [hsame, hs1] at hk ⊢
      exact ⟨hk, rfl⟩
    · rw [hnone] at hk
      cases hk

theorem typeOf_spec
    (hclean : ∀ y k, (s.icache y).refcnt = 0 → (s.pages k).ip = some (.sbfs y) →
    (s.pages k).dirty = false)
    (hlinked : igetHit s c = none → (s.inodes c).nlink ≠ 0 ∨ (s.inodes c).type = .free) :
    ∃ t s', typeOf c s = (some t, s') ∧ Unused s s' := by
  cases hhit : igetHit s c with
  | some y => exact typeOf_hit hhit
  | none =>
    cases hfree : igetFree s with
    | some y =>
      obtain ⟨-, -, hy, -⟩ := firstFrom_some hfree
      exact typeOf_miss hhit hfree (hlinked hhit) fun k => hclean y k (by simpa using hy)
    | none =>
      have hnone : iget c s = (some none, s) := by
        rw [iget, get_bind, hhit]
        dsimp only
        rw [hfree]
        rfl
      rw [typeOf, bind_some hnone]
      exact ⟨_, _, rfl, Unused.refl s⟩

theorem Unused.trans {s'' : State} (h : Unused s s') (h' : Unused s' s'') : Unused s s'' where
  slots := fun y hy => (h'.slots y (by rw [h.refcnt y]; exact hy)).trans (h.slots y hy)
  refcnt := fun y => (h'.refcnt y).trans (h.refcnt y)
  inodes := h'.inodes.trans h.inodes
  data := h'.data.trans h.data
  pages := fun y k hk => by
    obtain ⟨hk', hd'⟩ := h'.pages y k hk
    obtain ⟨hk'', hd⟩ := h.pages y k hk'
    exact ⟨hk'', hd'.trans hd⟩

theorem Listable.size (h : Listable s x es) : (s.icache x).d.size = 16 * es.length := by
  rw [← h.ents, entries, length_map, length_range]
  exact (Nat.mul_div_cancel' h.ok.dvd).symm

theorem Listable.drop (h : Listable s x es) (hk : k < es.length) :
    es.drop k = entOf s.data (s.icache x).d k :: es.drop (k + 1) := by
  rw [drop_eq_getElem_cons hk]
  congr 1
  simp [← h.ents, entries]

def Record.entry (r : Record) : ℕ × Name := (r.ino, r.name)

theorem getdentsLoop_spec {b : ℕ} : ∀ {fuel k w : ℕ} {s : State}, Listable s x es → k ≤ es.length →
    es.length ≤ k + fuel →
    ∃ rs s', getdentsLoop x b fuel (16 * k) w s =
      (some (rs, 16 * (k + (fill b (es.drop k) w).2)), s') ∧
      rs.map Record.entry = (fill b (es.drop k) w).1 ∧ Unused s s' := by
  intro fuel
  induction fuel with
  | zero =>
    intro k w s _ hk hfuel
    rw [drop_of_length_le (i := k) hfuel]
    exact ⟨[], s, rfl, rfl, .refl s⟩
  | succ fuel ih =>
    intro k w s h hk hfuel
    rw [getdentsLoop, get_bind, Kern.ite_apply, h.size]
    rcases hk.eq_or_lt with rfl | hlt
    · rw [if_pos le_rfl, drop_length]
      exact ⟨[], s, rfl, rfl, .refl s⟩
    have hk16 : 16 * k + 16 ≤ (s.icache x).d.size := by
      rw [h.size]
      omega
    have hde : readi x (16 * k) (fun _ => 0) 16 s = (some (16, deAt s.data (s.icache x).d k), s) :=
      readi_entry h.valid rfl h.ok hk16 fun _ => 0
    rw [if_neg (by omega), bind_some hde]
    dsimp only
    rw [Kern.ite_apply, if_neg (fun h16 => h16 rfl), Kern.ite_apply, h.drop hlt]
    by_cases hfree : deInum (deAt s.data (s.icache x).d k) = 0
    · obtain ⟨rs, s', he, hrs, hu⟩ := ih (k := k + 1) (w := w) h hlt (by omega)
      rw [if_pos hfree, show entOf s.data (s.icache x).d k = none from if_neg fun hent =>
        hent.2.2 hfree]
      refine ⟨rs, s', ?_, hrs, hu⟩
      rw [show 16 * k + 16 = 16 * (k + 1) by ring, he, fill]
      congr 4
      ring
    · have hent : entOf s.data (s.icache x).d k = some (deInum (deAt s.data (s.icache x).d k),
          deName (deAt s.data (s.icache x).d k)) := if_pos ⟨h.dir, hk16, hfree⟩
      rw [if_neg hfree, hent, Kern.ite_apply, fill]
      split
      · exact ⟨[], s, rfl, rfl, .refl s⟩
      · have hmem : some (deInum (deAt s.data (s.icache x).d k),
            deName (deAt s.data (s.icache x).d k)) ∈ es := by
          rw [← hent]
          exact mem_of_mem_drop (h.drop hlt ▸ mem_cons_self)
        obtain ⟨t, s1, ht, hu1⟩ := typeOf_spec h.clean (h.linked _ _ hmem)
        obtain ⟨rs, s', he, hrs, hu⟩ := ih (k := k + 1)
          (w := w + reclen (deName (deAt s.data (s.icache x).d k))) (h.unused hu1) hlt (by omega)
        rw [bind_some ht, show 16 * k + 16 = 16 * (k + 1) by ring, bind_some he]
        rw [Nat.add_right_comm k 1, Nat.add_assoc k]
        refine ⟨_, s', rfl, ?_, hu1.trans hu⟩
        rw [map_cons, hrs]
        rfl

theorem getdents64_spec (h : Listable s x es) (hk : k ≤ es.length) (n : ℕ) :
    ∃ rs next s', getdents64 x (16 * k) n s = (some (rs, next), s') ∧
      rs.map Record.entry = (fill (min n 1024) (es.drop k) 0).1 ∧
      (rs ≠ [] → next = 16 * (k + (fill (min n 1024) (es.drop k) 0).2)) ∧ Unused s s' := by
  have hfuel : nsteps (s.icache x).d.size = es.length := by
    have := nsteps_of_dvd h.ok.dvd
    have := h.size
    omega
  obtain ⟨rs, s', he, hrs, hu⟩ :=
    getdentsLoop_spec (b := min n 1024) (w := 0) h hk (Nat.le_add_left _ k)
  have hop : opGetdents x (16 * k) (min n 1024) s =
      (some (rs, 16 * (k + (fill (min n 1024) (es.drop k) 0).2)), s') := by
    rw [opGetdents, bind_some (ilock_of_valid h.valid), get_bind, hfuel]
    exact he
  refine ⟨rs, if rs = [] then 16 * k else _, s', ?_, hrs, fun hne => if_neg hne, hu⟩
  rw [getdents64, bind_some hop]
  rfl

/-! ## The whole listing -/

def live (es : Ents) : List (ℕ × Name) := es.filterMap id

def space (es : Ents) : ℕ := ((live es).map fun e => reclen e.2).sum

theorem space_some (i : ℕ) (nm : Name) (es : Ents) :
    space (some (i, nm) :: es) = reclen nm + space es := by
  simp [space, live]

variable {b w : ℕ}

theorem fill_le (b w : ℕ) (es : Ents) : (fill b es w).2 ≤ es.length := by
  fun_induction fill b es w with
  | case1 => exact le_rfl
  | case2 es w ih => simpa using ih
  | case3 i nm es w hfull => simp
  | case4 i nm es w hfits ih => simpa using ih

theorem fill_all (h : w + space es ≤ b) : fill b es w = (live es, es.length) := by
  fun_induction fill b es w with
  | case1 => rfl
  | case2 es w ih =>
    rw [ih h]
    rfl
  | case3 i nm es w hfull =>
    rw [space_some] at h
    omega
  | case4 i nm es w hfits ih =>
    have hrest : w + reclen nm + space es ≤ b := by
      rw [space_some] at h
      omega
    rw [ih hrest]
    rfl

theorem fill_lost (hw : w ≤ b) (h : b < w + space es) :
    (live (es.take (fill b es w).2)).length = (fill b es w).1.length + 1 := by
  fun_induction fill b es w with
  | case1 => exact absurd hw (Nat.not_le.mpr h)
  | case2 es w ih => exact ih hw h
  | case3 i nm es w hfull => rfl
  | case4 i nm es w hfits ih =>
    have hrest : b < w + reclen nm + space es := by
      rw [space_some] at h
      omega
    simpa [live] using ih (Nat.not_lt.mp hfits) hrest

theorem fill_length (b : ℕ) (es : Ents) :
    (fill b es 0).1.length ≤ (live (es.take (fill b es 0).2)).length := by
  by_cases h : space es ≤ b
  · rw [fill_all (w := 0) (by omega), take_length]
  · rw [fill_lost (Nat.zero_le _) (by omega)]
    omega

theorem live_take_drop (es : Ents) (m : ℕ) : live es = live (es.take m) ++ live (es.drop m) := by
  rw [live, live, live, ← filterMap_append, take_append_drop]

/-- `getdents64` again and again until it returns 0. Each call has the state it is made in and the
size
of its buffer; `none` if no call returned 0. -/
def listing (x : ℕ) : List (State × ℕ) → ℕ → Option (List (ℕ × Name))
  | [], _ => none
  | (s, n) :: calls, off =>
    match (getdents64 x off n s).1 with
    | none => none
    | some ([], _) => some []
    | some (r :: rs, next) => (listing x calls next).map ((r :: rs).map Record.entry ++ ·)

theorem listing_cons {s : State} (h : Listable s x es) (hk : k ≤ es.length) (n : ℕ)
    (calls : List (State × ℕ)) :
    listing x ((s, n) :: calls) (16 * k) =
      if (fill (min n 1024) (es.drop k) 0).1 = [] then some []
      else (listing x calls (16 * (k + (fill (min n 1024) (es.drop k) 0).2))).map
        ((fill (min n 1024) (es.drop k) 0).1 ++ ·) := by
  obtain ⟨rs, next, s', he, hrs, hnext, -⟩ := getdents64_spec h hk n
  rw [listing, he, ← hrs]
  cases rs with
  | nil => rfl
  | cons r rs =>
    rw [if_neg (by simp), hnext (by simp)]

theorem live_step (es : Ents) (k b : ℕ) :
    (live (es.drop k)).length = (live ((es.drop k).take (fill b (es.drop k) 0).2)).length +
      (live (es.drop (k + (fill b (es.drop k) 0).2))).length := by
  rw [live_take_drop (es.drop k) (fill b (es.drop k) 0).2, length_append, drop_drop]

theorem listing_length {calls : List (State × ℕ)} (h : ∀ c ∈ calls, Listable c.1 x es)
    (hk : k ≤ es.length) (hcalls : (live (es.drop k)).length < calls.length) :
    ∃ l, listing x calls (16 * k) = some l ∧ l.length ≤ (live (es.drop k)).length := by
  induction calls generalizing k with
  | nil => exact absurd hcalls (Nat.not_lt_zero _)
  | cons c calls ih =>
    obtain ⟨s, n⟩ := c
    have hs : Listable s x es := h (s, n) mem_cons_self
    have hstep := live_step es k (min n 1024)
    have hle := fill_length (min n 1024) (es.drop k)
    have hmove : (fill (min n 1024) (es.drop k) 0).2 ≤ es.length - k := by
      simpa using fill_le (min n 1024) 0 (es.drop k)
    rw [listing_cons hs hk]
    split
    · exact ⟨[], rfl, Nat.zero_le _⟩
    next hne =>
    have hpos := length_pos_of_ne_nil hne
    rw [length_cons] at hcalls
    obtain ⟨l, hl, hlen⟩ := ih (fun c hc => h c (mem_cons_of_mem _ hc))
      (k := k + (fill (min n 1024) (es.drop k) 0).2) (by omega) (by omega)
    refine ⟨_, by rw [hl]; rfl, ?_⟩
    rw [length_append]
    omega

/-- A directory that does not change is listed until a call returns 0, with buffers of any sizes.
Every
live entry is returned exactly once if and only if the records of all of them fit into the buffer of
the first call, of which at most 1024 bytes are used. -/
theorem listing_complete_iff {s : State} {n : ℕ} {calls : List (State × ℕ)}
    (h : ∀ c ∈ (s, n) :: calls, Listable c.1 x es) (hcalls : (live es).length ≤ calls.length) :
    ∃ l, listing x ((s, n) :: calls) 0 = some l ∧ (l.Perm (live es) ↔ space es ≤ min n 1024) := by
  have hs : Listable s x es := h (s, n) mem_cons_self
  have hrest : ∀ c ∈ calls, Listable c.1 x es := fun c hc => h c (mem_cons_of_mem _ hc)
  have hone := listing_cons hs (Nat.zero_le _) n calls
  rw [drop_zero, Nat.mul_zero, Nat.zero_add] at hone
  by_cases hfit : space es ≤ min n 1024
  · -- the first call returns all of them and leaves the cursor at the end
    have hall := fill_all (w := 0) (Nat.zero_add (space es) ▸ hfit)
    rw [hall] at hone
    by_cases hnone : live es = []
    · exact ⟨[], hone.trans (if_pos hnone), by rw [hnone]; exact iff_of_true (.refl _) hfit⟩
    · obtain ⟨l, hl, hlen⟩ := listing_length hrest le_rfl (by
        have := length_pos_of_ne_nil hnone
        rw [drop_length]
        exact this.trans_le hcalls)
      rw [drop_length] at hlen
      obtain rfl : l = [] := length_eq_zero_iff.mp (Nat.le_zero.mp hlen)
      refine ⟨live es, ?_, iff_of_true (.refl _) hfit⟩
      rw [hone, if_neg hnone, hl, Option.map_some, append_nil]
  · -- the first call moves the cursor over an entry it does not return
    have hlost := fill_lost (w := 0) (Nat.zero_le _)
      (by rw [Nat.zero_add]; exact Nat.not_le.mp hfit)
    have hstep := live_step es 0 (min n 1024)
    rw [drop_zero, Nat.zero_add] at hstep
    suffices ∃ l, listing x ((s, n) :: calls) 0 = some l ∧ l.length < (live es).length by
      obtain ⟨l, hl, hlt⟩ := this
      exact ⟨l, hl, iff_of_false (fun hp => hlt.ne hp.length_eq) hfit⟩
    rw [hone]
    split
    · exact ⟨[], rfl, by rw [length_nil]; omega⟩
    · obtain ⟨l, hl, hlen⟩ := listing_length hrest (fill_le _ _ _)
        (show (live (es.drop (fill (min n 1024) es 0).2)).length < calls.length by omega)
      refine ⟨_, by rw [hl]; rfl, ?_⟩
      rw [length_append]
      omega

def mounted : State := (attach none (mkfs 0)).2

theorem mounted_listable :
    Listable mounted rootSlot [some (SBFS_ROOTINUM, dot), some (SBFS_ROOTINUM, dotdot)] where
  valid := by decide
  held := by decide
  dir := by decide
  ok := ⟨by decide, by decide, by decide⟩
  ents := by decide
  linked := fun c nm hc hmiss => by
    obtain rfl : c = SBFS_ROOTINUM := by
      simp only [mem_cons, Option.some.injEq, Prod.mk.injEq, not_mem_nil, or_false] at hc
      exact hc.elim And.left And.left
    exact absurd hmiss (by decide)
  clean := fun _ _ _ _ => rfl

theorem listing_complete_iff_root :
    ∃ l, listing rootSlot [(mounted, 1024), (mounted, 1024), (mounted, 1024)] 0 = some l ∧
      (l.Perm [(SBFS_ROOTINUM, dot), (SBFS_ROOTINUM, dotdot)] ↔ 48 ≤ 1024) := by
  have hcalls : ∀ c ∈ (mounted, 1024) :: [(mounted, 1024), (mounted, 1024)], Listable c.1 rootSlot
      [some (SBFS_ROOTINUM, dot), some (SBFS_ROOTINUM, dotdot)] := by
    simp only [mem_cons, not_mem_nil, or_false, or_self, forall_eq]
    exact mounted_listable
  exact listing_complete_iff hcalls (by decide)

/-- With buffers of 40 bytes, the size of the longest record there is, `..` is not listed. -/
theorem listing_loses_dotdot :
    (∀ c ∈ [(mounted, 40), (mounted, 40), (mounted, 40)], Listable c.1 rootSlot
        [some (SBFS_ROOTINUM, dot), some (SBFS_ROOTINUM, dotdot)] ∧
      reclen dot ≤ c.2 ∧ reclen dotdot ≤ c.2) ∧
    ∃ l, listing rootSlot [(mounted, 40), (mounted, 40), (mounted, 40)] 0 = some l ∧
      (SBFS_ROOTINUM, dotdot) ∉ l := by
  refine ⟨?_, [(SBFS_ROOTINUM, dot)], by decide +kernel, by decide⟩
  simp only [mem_cons, not_mem_nil, or_false, or_self, forall_eq]
  exact ⟨mounted_listable, by decide⟩

end Sbunix.Fs
