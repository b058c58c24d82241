import Sbunix.Malloc.Regions

/-!
# The heap as its user sees it

The user calls the allocator with pointers it was given and has not given back,
and stores to the blocks it holds. `State.live` is the list of these blocks with
the sizes that were asked for. In every state that such calls lead to the heap
is well formed, and every call returns and leaves the other blocks alone.
-/

namespace Sbunix.Malloc

open Lib List

structure Block where
  ptr : ℕ
  req : ℕ
  deriving DecidableEq

structure State where
  heap : Heap
  live : List Block

inductive Call
  | malloc (n : ℕ)
  | calloc (nmemb size : ℕ)
  | realloc (ptr n : ℕ)
  | free (ptr : ℕ)
  | store (ptr off : ℕ) (byte : UInt8)

def Call.target : Call → ℕ
  | .malloc _ | .calloc _ _ => 0
  | .realloc ptr _ | .free ptr | .store ptr _ _ => ptr

def Call.amount : Call → ℕ
  | .malloc n | .realloc _ n => n
  | .calloc nmemb size => nmemb * size
  | .free _ | .store _ _ _ => 0

def received (live : List Block) (r n : ℕ) : List Block := if r = 0 then live else ⟨r, n⟩ :: live

def without (live : List Block) (ptr : ℕ) : List Block := live.filter (·.ptr ≠ ptr)

namespace State

def init (m : Mem) : State := ⟨⟨m, false, 0, 0, []⟩, []⟩

/-- A call: what it returns, and the state after it. -/
def call (s : State) (env : Env) : Call → Option (ℕ × State)
  | .malloc n => (s.heap.malloc n env).map fun (r, h) => (r, ⟨h, received s.live r n⟩)
  | .calloc nmemb size =>
    (s.heap.calloc nmemb size env).map fun (r, h) => (r, ⟨h, received s.live r (nmemb * size)⟩)
  | .realloc ptr n =>
    (s.heap.realloc ptr n env).map fun (r, h) =>
      -- a request that fails leaves the block
      (r, ⟨h, if n ≠ 0 ∧ r = 0 then s.live else received (without s.live ptr) r n⟩)
  | .free ptr => (s.heap.free ptr).map fun h => (0, ⟨h, without s.live ptr⟩)
  | .store ptr off byte =>
    some (0, ⟨{ s.heap with mem := Function.update s.heap.mem (ptr + off) byte }, s.live⟩)

def room (s : State) (b : Block) : ℕ := plain (s.heap.size (b.ptr - HDR_SIZE))

end State

/-- The pointer is one the user holds, and a store is inside what was asked for. -/
def Call.Rightful (s : State) : Call → Prop
  | .malloc _ | .calloc _ _ => True
  | .realloc ptr _ | .free ptr => ptr = 0 ∨ ∃ b ∈ s.live, b.ptr = ptr
  | .store ptr off _ => ∃ b ∈ s.live, b.ptr = ptr ∧ off < b.req

instance (s : State) : DecidablePred (Call.Rightful s) := fun c => by
  cases c <;> unfold Call.Rightful <;> infer_instance

/-- The user keeps to its blocks, and the kernel answers with places that are free. -/
def Admitted (s : State) (l : Call × Env) : Prop := l.2.Honest s.heap l.1.amount ∧ l.1.Rightful s

def step (s : State) (l : Call × Env) (t : State) : Prop := ∃ r, s.call l.2 l.1 = some (r, t)

/-- Chunks tile the arena, the free list is ordered and holds no neighbours, the blocks in the
arena are chunks in use, and the blocks are apart, aligned and large enough. -/
structure WellFormed (s : State) : Prop where
  tiled : s.heap.arenaInited = true → ∃ cs, Arena s.heap cs ∧ (freeAddrs cs).Pairwise (· < ·) ∧
    ∀ b ∈ s.live, b.ptr < HEAP_ARENA_END → ∃ c ∈ cs, c.used = true ∧ b.ptr = c.addr + HDR_SIZE
  aligned : ∀ b ∈ s.live, 16 ∣ b.ptr
  large : ∀ b ∈ s.live, b.req ≤ s.room b
  disjoint : s.live.Pairwise fun b c => b.ptr + s.room b ≤ c.ptr ∨ c.ptr + s.room c ≤ b.ptr

/-- `t` has the block `b` as `s` has it. -/
def Untouched (s t : State) (b : Block) : Prop :=
  b ∈ t.live ∧ t.room b = s.room b ∧ ∀ i < s.room b, t.heap.mem (b.ptr + i) = s.heap.mem (b.ptr + i)

/-- What a call does to the blocks. -/
structure Respects (s : State) (c : Call) (r : ℕ) (t : State) : Prop where
  others : ∀ b ∈ s.live, b.ptr ≠ c.target → Untouched s t b
  realloc : ∀ ptr n, c = .realloc ptr n → n ≠ 0 → ∀ b ∈ s.live, b.ptr = ptr →
    (r = 0 ∧ Untouched s t b) ∨
      (⟨r, n⟩ ∈ t.live ∧ ∀ i < min b.req n, t.heap.mem (r + i) = s.heap.mem (ptr + i))
  calloc : ∀ nmemb size, c = .calloc nmemb size → r ≠ 0 → ∀ i < nmemb * size, t.heap.mem (r + i) = 0

/-! ### The invariant -/

def Holds (h : Heap) (cs : List Chunk) (b : Block) : Prop :=
  ∃ a n, b.ptr = a + HDR_SIZE ∧ b.req ≤ n ∧ Region h cs a n

structure Inv (s : State) (cs : List Chunk) : Prop where
  order : InOrder s.heap cs
  holds : ∀ b ∈ s.live, Holds s.heap cs b
  nodup : (s.live.map Block.ptr).Nodup

variable {s t : State} {cs cs' : List Chunk} {h' : Heap} {b c : Block} {a n r ptr : ℕ} {env : Env}

theorem Inv.room (hi : Inv s cs) (hr : Region s.heap cs a n) (hb : b.ptr = a + HDR_SIZE) :
    s.room b = n := by
  rw [State.room, hb, Nat.add_sub_cancel]
  exact hi.order.plain_size hr

theorem Inv.init (m : Mem) : Inv (State.init m) [] :=
  ⟨⟨.inl ⟨rfl, rfl, rfl⟩, List.Pairwise.nil, nofun⟩, nofun, nodup_nil⟩

theorem Inv.wellFormed (hi : Inv s cs) : WellFormed s := by
  refine ⟨fun hinit => ?_, fun b hb => ?_, fun b hb => ?_, ?_⟩
  · rcases hi.order.arena with ⟨h0, -⟩ | ⟨-, ha⟩
    · rw [hinit] at h0
      cases h0
    · refine ⟨cs, ha, ha.layout.sorted, fun b hb hlt => ?_⟩
      obtain ⟨a, n, hp, -, hr⟩ := hi.holds b hb
      rcases (hi.order.region hr).2 with ⟨-, -, hc, -, -⟩ | ⟨hlow, -⟩
      · exact ⟨_, (mem_held.mp hc).1, rfl, hp⟩
      · omega
  · obtain ⟨a, n, hp, -, hr⟩ := hi.holds b hb
    have := (hi.order.region hr).1
    unfold HDR_SIZE at hp
    omega
  · obtain ⟨a, n, hp, hle, hr⟩ := hi.holds b hb
    rwa [hi.room hr hp]
  · refine (pairwise_map.mp hi.nodup).imp_of_mem fun {b c} hb hc hne => ?_
    obtain ⟨a, n, hp, -, hr⟩ := hi.holds b hb
    obtain ⟨a', n', hp', -, hr'⟩ := hi.holds c hc
    rw [hi.room hr hp, hi.room hr' hp']
    have := hi.order.regions_apart hr hr' (by rintro rfl; exact hne (hp.trans hp'.symm))
    omega

theorem Inv.kept (hi : Inv s cs) (ho : InOrder h' cs') (hb : b ∈ s.live)
    (hk : ∀ a, b.ptr = a + HDR_SIZE → Keeps s.heap cs h' cs' a) :
    Holds h' cs' b ∧ ∀ live, b ∈ live → Untouched s ⟨h', live⟩ b := by
  obtain ⟨a, n, hp, hle, hr⟩ := hi.holds b hb
  obtain ⟨hr', hbytes⟩ := hk a hp n hr
  refine ⟨⟨a, n, hp, hle, hr'⟩, fun live hmem => ⟨hmem, ?_, fun i hlt => ?_⟩⟩
  · rw [hi.room hr hp, State.room, hp, Nat.add_sub_cancel]
    exact ho.plain_size hr'
  · rw [hi.room hr hp] at hlt
    rw [hp]
    exact hbytes _ (by omega) (by omega)

theorem without_sublist (live : List Block) (p : ℕ) :
    (without live p).Sublist live := filter_sublist

theorem mem_without {live : List Block} {p : ℕ} : b ∈ without live p ↔ b ∈ live ∧ b.ptr ≠ p := by
  simp [without]

theorem Inv.gives (hi : Inv s cs) (hg : Gives s.heap cs n r h' cs') :
    Inv ⟨h', received s.live r n⟩ cs' ∧ ∀ b ∈ s.live, Untouched s ⟨h', received s.live r n⟩ b := by
  have hkept := fun b (hb : b ∈ s.live) => hi.kept hg.order hb fun a _ => hg.keeps a
  have hsub : ∀ b ∈ s.live, b ∈ received s.live r n := by
    intro b hb
    unfold received
    split
    · exact hb
    · exact mem_cons_of_mem _ hb
  refine ⟨⟨hg.order, ?_, ?_⟩, fun b hb => (hkept b hb).2 _ (hsub b hb)⟩
  · intro b hb
    unfold received at hb
    rcases hg.result with rfl | ⟨a, m, hr, hreg, hn, -, -⟩
    · rw [if_pos rfl] at hb
      exact (hkept b hb).1
    · rw [if_neg (by unfold HDR_SIZE at hr; omega)] at hb
      rcases mem_cons.mp hb with rfl | hb
      · exact ⟨a, m, hr, hn, hreg⟩
      · exact (hkept b hb).1
  · unfold received
    rcases hg.result with rfl | ⟨a, m, hr, -, -, -, hnew⟩
    · rw [if_pos rfl]
      exact hi.nodup
    · rw [if_neg (by unfold HDR_SIZE at hr; omega)]
      refine nodup_cons.mpr ⟨fun hmem => ?_, hi.nodup⟩
      obtain ⟨b, hb, hbr⟩ := mem_map.mp hmem
      obtain ⟨a', m', hp, -, hr'⟩ := hi.holds b hb
      obtain rfl : a' = a := by
        have heq : b.ptr = r := hbr
        omega
      exact hnew m' hr'

theorem Inv.ptr_ne_zero (hi : Inv s cs) (hb : b ∈ s.live) : b.ptr ≠ 0 := by
  obtain ⟨a, n, hp, -, -⟩ := hi.holds b hb
  unfold HDR_SIZE at hp
  omega

/-! ### The calls -/

/-- The call returns, keeps the invariant and respects the blocks. -/
def Answers (s : State) (l : Call × Env) : Prop :=
  ∃ r t cs', s.call l.2 l.1 = some (r, t) ∧ Inv t cs' ∧ Respects s l.1 r t

section

variable (hi : Inv s cs)

include hi

theorem malloc_answers (henv : env.Honest s.heap n) : Answers s (.malloc n, env) := by
  obtain ⟨r, h', cs', hrun, hg⟩ := malloc_gives hi.order henv
  obtain ⟨hi', hsame⟩ := hi.gives hg
  exact ⟨r, _, cs', by simp only [State.call, hrun]; rfl, hi', fun b hb _ => hsame b hb,
    nofun, nofun⟩

theorem calloc_answers {nmemb size : ℕ} (henv : env.Honest s.heap (nmemb * size)) :
    Answers s (.calloc nmemb size, env) := by
  obtain ⟨r, h', cs', hrun, hg, hzero⟩ := calloc_gives hi.order henv
  obtain ⟨hi', hsame⟩ := hi.gives hg
  refine ⟨r, _, cs', by simp only [State.call, hrun]; rfl, hi', fun b hb _ => hsame b hb, nofun, ?_⟩
  rintro _ _ ⟨⟩
  exact hzero

theorem Inv.without (ptr : ℕ) (ho : InOrder h' cs')
    (hk : ∀ a, a + HDR_SIZE ≠ ptr → Keeps s.heap cs h' cs' a) :
    Inv ⟨h', without s.live ptr⟩ cs' := by
  refine ⟨ho, fun b hb => ?_, hi.nodup.sublist ((without_sublist s.live ptr).map _)⟩
  obtain ⟨hb, hne⟩ := mem_without.mp hb
  exact (hi.kept ho hb fun a ha => hk a (ha ▸ hne)).1

theorem free_answers (hp : ptr = 0 ∨ ∃ b ∈ s.live, b.ptr = ptr) : Answers s (.free ptr, env) := by
  obtain ⟨h', cs', hrun, ho, hk⟩ : ∃ h' cs', s.heap.free ptr = some h' ∧ InOrder h' cs' ∧
      ∀ a, a + HDR_SIZE ≠ ptr → Keeps s.heap cs h' cs' a := by
    rcases hp with rfl | ⟨b, hb, rfl⟩
    · exact ⟨s.heap, cs, rfl, hi.order, fun a _ => Keeps.refl _ _ a⟩
    · obtain ⟨a, n, hp, -, hr⟩ := hi.holds b hb
      obtain ⟨h', cs', hrun, ho, hk⟩ := free_keeps hi.order hr
      rw [hp]
      exact ⟨h', cs', hrun, ho, fun a' hne => hk a' (by rintro rfl; exact hne rfl)⟩
  refine ⟨0, _, cs', by simp only [State.call, hrun]; rfl, hi.without ptr ho hk,
    fun b hb hne => ?_, nofun, nofun⟩
  exact (hi.kept ho hb fun a ha => hk a (ha ▸ hne)).2 _ (mem_without.mpr ⟨hb, hne⟩)

theorem store_answers {off : ℕ} {byte : UInt8} (hb : b ∈ s.live) (hoff : off < b.req) :
    Answers s (.store b.ptr off byte, env) := by
  obtain ⟨a, n, hp, hle, hr⟩ := hi.holds b hb
  obtain ⟨ho, hr', hk⟩ := hi.order.write hr (m := Function.update s.heap.mem (b.ptr + off) byte)
    fun i hout =>
    Function.update_of_ne (by omega) _ _
  have hother : ∀ c ∈ s.live, c.ptr ≠ b.ptr → ∀ a', c.ptr = a' + HDR_SIZE →
      Keeps s.heap cs _ cs a' :=
    fun c _ hne a' ha' => hk a' (by rintro rfl; exact hne (ha'.trans hp.symm))
  refine ⟨0, _, cs, rfl, ⟨ho, fun c hc => ?_, hi.nodup⟩, fun c hc hne => ?_, nofun, nofun⟩
  · by_cases hne : c.ptr = b.ptr
    · obtain ⟨a', n', hp', hle', hr''⟩ := hi.holds c hc
      obtain rfl : a' = a := by omega
      obtain rfl := hi.order.region_unique hr hr''
      exact ⟨a', n, hp', hle', hr'⟩
    · exact (hi.kept ho hc (hother c hc hne)).1
  · exact (hi.kept ho hc (hother c hc hne)).2 _ hc

theorem realloc_null_answers (henv : env.Honest s.heap n) : Answers s (.realloc 0 n, env) := by
  obtain ⟨r, h', cs', hrun, hg⟩ := malloc_gives hi.order henv
  obtain ⟨hi', hsame⟩ := hi.gives hg
  have hwithout : without s.live 0 = s.live :=
    filter_eq_self.mpr fun b hb => by simpa using hi.ptr_ne_zero hb
  have hlive : (if n ≠ 0 ∧ r = 0 then s.live else received (without s.live 0) r n) =
      received s.live r n := by
    rw [hwithout]
    split
    · next h0 => rw [received, if_pos h0.2]
    · rfl
  have hcall : s.call env (.realloc 0 n) = some (r, ⟨h', received s.live r n⟩) := by
    have hrealloc : s.heap.realloc 0 n env = some (r, h') := by rw [Heap.realloc, if_pos rfl, hrun]
    simp only [State.call, hrealloc, Option.map_some, hlive]
  refine ⟨r, _, cs', hcall, hi', fun b hb _ => hsame b hb, ?_, nofun⟩
  rintro ptr n ⟨⟩ - b hb hptr
  exact absurd hptr (hi.ptr_ne_zero hb)

theorem realloc_answers (hb : b ∈ s.live) (henv : env.Honest s.heap n) :
    Answers s (.realloc b.ptr n, env) := by
  obtain ⟨a, m, hp, hle, hr⟩ := hi.holds b hb
  obtain ⟨r, h', cs', hrun, ho, hk, hres⟩ := realloc_regives hi.order hr henv
  rw [← hp] at hrun
  have hother : ∀ c ∈ s.live, c.ptr ≠ b.ptr → ∀ a', c.ptr = a' + HDR_SIZE →
      Keeps s.heap cs h' cs' a' :=
    fun c _ hne a' ha' => hk a' (by rintro rfl; exact hne (ha'.trans hp.symm))
  have hwithout := hi.without b.ptr ho fun a' hne => hk a' (by rintro rfl; exact hne hp.symm)
  have hcall : s.call env (.realloc b.ptr n) =
      some (r, ⟨h', if n ≠ 0 ∧ r = 0 then s.live else received (without s.live b.ptr) r n⟩) := by
    simp only [State.call, hrun]
    rfl
  rw [Answers, hcall]
  rcases hres with ⟨hn, rfl⟩ | ⟨hn, rfl, hsame⟩ | ⟨hn, a', t, hra, hr', hnt, hnew, hbytes⟩
  · -- given back
    rw [if_neg (by simp [hn]), received, if_pos rfl]
    refine ⟨0, _, cs', rfl, hwithout, fun c hc hne => ?_, ?_, nofun⟩
    · exact (hi.kept ho hc (hother c hc hne)).2 _ (mem_without.mpr ⟨hc, hne⟩)
    · rintro _ _ ⟨⟩ hn'
      exact absurd hn hn'
  · -- no room: the block stays
    rw [if_pos ⟨hn, rfl⟩]
    have hall : ∀ c ∈ s.live, ∀ a', c.ptr = a' + HDR_SIZE → Keeps s.heap cs h' cs' a' := by
      intro c hc a' ha'
      by_cases hne : c.ptr = b.ptr
      · obtain rfl : a' = a := by omega
        exact hsame
      · exact hother c hc hne a' ha'
    refine ⟨0, _, cs', rfl, ⟨ho, fun c hc => (hi.kept ho hc (hall c hc)).1, hi.nodup⟩,
      fun c hc _ => (hi.kept ho hc (hall c hc)).2 _ hc, ?_, nofun⟩
    rintro _ _ - - c hc -
    exact .inl ⟨rfl, (hi.kept ho hc (hall c hc)).2 _ hc⟩
  · have hr0 : r ≠ 0 := by
      unfold HDR_SIZE at hra
      omega
    rw [if_neg (by simp [hr0]), received, if_neg hr0]
    refine ⟨r, _, cs', rfl, ⟨ho, ?_, ?_⟩, fun c hc hne => ?_, ?_, nofun⟩
    · intro c hc
      rcases mem_cons.mp hc with rfl | hc
      · exact ⟨a', t, hra, hnt, hr'⟩
      · exact hwithout.holds c hc
    · refine nodup_cons.mpr ⟨fun hmem => ?_, hwithout.nodup⟩
      obtain ⟨c, hc, hcr⟩ := mem_map.mp hmem
      obtain ⟨hc, hne⟩ := mem_without.mp hc
      obtain ⟨a'', m', hp', -, hr''⟩ := hi.holds c hc
      have hcr : c.ptr = r := hcr
      obtain rfl : a'' = a' := by omega
      rcases hnew with rfl | hnew
      · exact hne (hp'.trans hp.symm)
      · exact hnew m' hr''
    · exact (hi.kept ho hc (hother c hc hne)).2 _ (mem_cons_of_mem _ (mem_without.mpr ⟨hc, hne⟩))
    · rintro _ _ ⟨⟩ - c hc hcb
      refine .inr ⟨mem_cons_self, fun i hlt => ?_⟩
      -- there is one block with this pointer
      obtain ⟨a'', m', hp', hle', hr''⟩ := hi.holds c hc
      obtain rfl : a'' = a := by omega
      obtain rfl := hi.order.region_unique hr hr''
      rw [hbytes i (by omega), hp]

theorem answers {l : Call × Env} (hl : Admitted s l) : Answers s l := by
  obtain ⟨c, env⟩ := l
  obtain ⟨henv, hl⟩ := hl
  cases c with
  | malloc n => exact malloc_answers hi henv
  | calloc nmemb size => exact calloc_answers hi henv
  | free ptr => exact free_answers hi hl
  | realloc ptr n =>
    rcases hl with rfl | ⟨b, hb, rfl⟩
    · exact realloc_null_answers hi henv
    · exact realloc_answers hi hb henv
  | store ptr off byte =>
    obtain ⟨b, hb, rfl, hoff⟩ := hl
    exact store_answers hi hb hoff

end

theorem reaches_inv {m : Mem} (h : Reaches step Admitted (State.init m) s) : ∃ cs, Inv s cs := by
  refine h.invariant (I := fun s => ∃ cs, Inv s cs) ⟨[], Inv.init m⟩ ?_
  rintro s l t ⟨cs, hi⟩ hl ⟨r, hrun⟩
  obtain ⟨r', t', cs', hrun', hi', -⟩ := answers hi hl
  rw [hrun] at hrun'
  obtain ⟨rfl, rfl⟩ := Prod.mk.inj (Option.some.inj hrun')
  exact ⟨cs', hi'⟩

/-- Whatever the user has done, the heap is well formed; and whatever the user does next,
the call returns, leaves the other blocks alone, and `realloc` keeps the bytes. -/
theorem heap_well_formed {m : Mem} {s : State} (h : Reaches step Admitted (State.init m) s) :
    WellFormed s ∧ ∀ l, Admitted s l → ∃ r t, s.call l.2 l.1 = some (r, t) ∧
      Respects s l.1 r t := by
  obtain ⟨cs, hi⟩ := reaches_inv h
  refine ⟨hi.wellFormed, fun l hl => ?_⟩
  obtain ⟨r, t, -, hrun, -, hresp⟩ := answers hi hl
  exact ⟨r, t, hrun, hresp⟩

/-- Calls one after the other, with an arena and no mappings. -/
def runCalls (s : State) : List Call → Option State
  | [] => some s
  | c :: cs => if c.Rightful s then (s.call ⟨true, none⟩ c).bind fun p => runCalls p.2 cs else none

theorem runCalls_reaches {s t u : State} {cs : List Call} (h : Reaches step Admitted s t)
    (hrun : runCalls t cs = some u) : Reaches step Admitted s u := by
  induction cs generalizing t with
  | nil =>
    cases hrun
    exact h
  | cons c cs ih =>
    rw [runCalls] at hrun
    split at hrun
    · next hc =>
      obtain ⟨⟨r, t'⟩, hcall, hrest⟩ := Option.bind_eq_some_iff.mp hrun
      exact ih (h.tail (a := (c, ⟨true, none⟩)) ⟨nofun, hc⟩ ⟨r, hcall⟩) hrest
    · cases hrun

/-- Two blocks, the first given back and its place taken by a smaller one, the second enlarged. -/
theorem heap_well_formed_run : ∃ s, Reaches step Admitted (State.init fun _ => 0) s ∧
      s.live = [⟨HEAP_ARENA_BASE + 112, 100⟩, ⟨HEAP_ARENA_BASE + 16, 8⟩] ∧ WellFormed s := by
  have hrun : (runCalls (State.init fun _ => 0) [.malloc 80, .malloc 40,
    .store (HEAP_ARENA_BASE + 112) 3 7,
      .free (HEAP_ARENA_BASE + 16), .malloc 8, .realloc (HEAP_ARENA_BASE + 112) 100]).any
        (·.live = [⟨HEAP_ARENA_BASE + 112, 100⟩, ⟨HEAP_ARENA_BASE + 16, 8⟩]) = true := by
    decide +kernel
  obtain ⟨s, hs, hlive⟩ := (Option.any_eq_true _ _).mp hrun
  have hreach := runCalls_reaches .refl hs
  exact ⟨s, hreach, of_decide_eq_true hlive, (heap_well_formed hreach).1⟩

end Sbunix.Malloc
