import Sbunix.Malloc.Operations

/-!
# Blocks in the arena and blocks of their own

A region is a block a pointer was returned for: a chunk in use, or a mapping
with a header. For each function of the allocator: it returns, it keeps the
heap in order, and every region it was not called for is kept with its bytes.
-/

namespace Sbunix.Malloc

open Lib List

/-- The heap is in order: there is no arena yet, or it is cut into chunks; the mappings
are outside of it and apart. -/
structure InOrder (h : Heap) (cs : List Chunk) : Prop where
  arena : (h.arenaInited = false ∧ cs = [] ∧ h.freeList = 0) ∨ (h.arenaInited = true ∧ Arena h cs)
  apart : h.maps.Pairwise fun m n => m.1 + m.2 ≤ n.1 ∨ n.1 + n.2 ≤ m.1
  mapped : ∀ m ∈ h.maps, PAGE_SIZE ∣ m.1 ∧ HEAP_ARENA_END ≤ m.1 ∧ m.1 + m.2 ≤ MMAP_END

/-- A block of `s` bytes with its header at `a`. -/
structure Region (h : Heap) (cs : List Chunk) (a s : ℕ) : Prop where
  aligned : 16 ∣ s
  pos : 0 < s
  place : ⟨a, s, true⟩ ∈ held cs ∨ h.size a = s + 3 ∧ (a, pageRound (HDR_SIZE + s)) ∈ h.maps

/-- `h'` has the region `a` of `h`, with the same bytes. -/
def Keeps (h : Heap) (cs : List Chunk) (h' : Heap) (cs' : List Chunk) (a : ℕ) : Prop :=
  ∀ s, Region h cs a s → Region h' cs' a s ∧ ∀ i, a + HDR_SIZE ≤ i → i < a + HDR_SIZE + s →
    h'.mem i = h.mem i

variable {c : Chunk} {s : ℕ} {env : Env} {h h' : Heap} {cs cs' : List Chunk} {a b t n : ℕ}

theorem le_pageRound (n : ℕ) : n ≤ pageRound n := by
  unfold pageRound PAGE_SIZE
  omega

theorem InOrder.chunk (ho : InOrder h cs) (hc : c ∈ cs) : Arena h cs := by
  rcases ho.arena with ⟨-, rfl, -⟩ | ⟨-, ha⟩
  · cases hc
  · exact ha

theorem InOrder.inited (ho : InOrder h cs) (hc : c ∈ cs) : h.arenaInited = true := by
  rcases ho.arena with ⟨-, rfl, -⟩ | ⟨hi, -⟩
  · cases hc
  · exact hi

theorem InOrder.region (ho : InOrder h cs) (hr : Region h cs a s) :
    16 ∣ a ∧ ((HEAP_ARENA_BASE ≤ a ∧ a + HDR_SIZE + s ≤ HEAP_ARENA_END ∧ ⟨a, s, true⟩ ∈ held cs ∧
      Arena h cs ∧
        h.size a = s + 1) ∨
      (HEAP_ARENA_END ≤ a ∧ a + HDR_SIZE + s ≤ MMAP_END ∧ h.size a = s + 3 ∧
        (a, pageRound (HDR_SIZE + s)) ∈ h.maps)) := by
  rcases hr.place with hc | ⟨hs, hm⟩
  · obtain ⟨hmem, -⟩ := mem_held.mp hc
    have ha := ho.chunk hmem
    obtain ⟨h1, h2, -, -⟩ := ha.bounds hmem
    refine ⟨ha.aligned hmem, .inl ⟨h1, h2.trans ha.top, hc, ha, ?_⟩⟩
    exact ha.sizes ⟨a, s, true⟩ hmem
  · obtain ⟨h1, h2, h3⟩ := ho.mapped _ hm
    have := le_pageRound (HDR_SIZE + s)
    unfold PAGE_SIZE at h1
    exact ⟨by omega, .inr ⟨h2, by omega, hs, hm⟩⟩

theorem plain_field (hs : 16 ∣ s) : plain (s + 1) = s ∧ plain (s + 3) = s := by
  unfold plain
  omega

theorem isDirect_direct (hs : 16 ∣ s) : isDirect (s + 3) = true := by
  unfold isDirect
  rw [Nat.testBit_succ, Nat.testBit_zero]
  simp
  omega

theorem InOrder.plain_size (ho : InOrder h cs) (hr : Region h cs a s) : plain (h.size a) = s := by
  rcases (ho.region hr).2 with ⟨-, -, -, -, hs⟩ | ⟨-, -, hs, -⟩
  · rw [hs, (plain_field hr.aligned).1]
  · rw [hs, (plain_field hr.aligned).2]

theorem InOrder.region_unique (ho : InOrder h cs) (hr : Region h cs a s) (hr' : Region h cs a t) :
    s = t :=
  (ho.plain_size hr).symm.trans (ho.plain_size hr')

theorem InOrder.regions_apart (ho : InOrder h cs) (hr : Region h cs a s) (hr' : Region h cs b t)
    (hab : a ≠ b) :
    a + HDR_SIZE + s ≤ b ∨ b + HDR_SIZE + t ≤ a := by
  obtain ⟨-, hin | hout⟩ := ho.region hr
  · obtain ⟨-, hin' | hout'⟩ := ho.region hr'
    · obtain ⟨-, -, hc, ha, -⟩ := hin
      obtain ⟨-, -, hc', -, -⟩ := hin'
      rcases ha.layout.apart (mem_held.mp hc).1 (mem_held.mp hc').1 with heq | hd | hd
      · exact absurd (congrArg Chunk.addr heq) hab
      · exact .inl hd
      · exact .inr hd
    · omega
  · obtain ⟨-, hin' | hout'⟩ := ho.region hr'
    · omega
    · obtain ⟨-, -, -, hm⟩ := hout
      obtain ⟨-, -, -, hm'⟩ := hout'
      have hsym : Std.Symm fun m n : ℕ × ℕ => m.1 + m.2 ≤ n.1 ∨ n.1 + n.2 ≤ m.1 :=
        ⟨fun _ _ => Or.symm⟩
      have h1 := le_pageRound (HDR_SIZE + s)
      have h2 := le_pageRound (HDR_SIZE + t)
      have := ho.apart.forall hm hm' (fun heq => hab (congrArg Prod.fst heq))
      dsimp only at this
      omega

/-! ### Stores inside a region -/

theorem Arena.congr (ha : Arena h cs) (htop : h'.arenaTop = h.arenaTop)
    (hfree : h'.freeList = h.freeList)
    (hmem : ∀ c ∈ cs, ∀ i, c.addr ≤ i → i < c.addr + HDR_SIZE → h'.mem i = h.mem i) :
    Arena h' cs := by
  unfold HDR_SIZE at hmem
  refine ⟨htop ▸ ha.layout, htop ▸ ha.top, fun c hc => ?_, ?_, ha.parted⟩
  · rw [← ha.sizes c hc]
    exact Mem.load_congr fun i h1 h2 => hmem c hc i h1 (by omega)
  · rw [hfree]
    refine ha.links.congr fun e he => ?_
    obtain ⟨c, hc, -, rfl⟩ := mem_freeAddrs.mp he
    exact Mem.load_congr fun i h1 h2 => hmem c hc i (by omega) (by omega)

theorem InOrder.write (ho : InOrder h cs) (hr : Region h cs a s) {m : Mem}
    (hm : ∀ i, i < a + HDR_SIZE ∨ a + HDR_SIZE + s ≤ i → m i = h.mem i) :
    InOrder { h with mem := m } cs ∧ Region { h with mem := m } cs a s ∧
      ∀ b, b ≠ a → Keeps h cs { h with mem := m } cs b := by
  have hsize : ∀ b t, Region h cs b t → Region { h with mem := m } cs b t := by
    intro b t hb
    refine ⟨hb.aligned, hb.pos, hb.place.imp_right fun hp => ⟨?_, hp.2⟩⟩
    have hload : m.load b = h.mem.load b := by
      refine Mem.load_congr fun i h1 h2 => hm i ?_
      by_cases hab : a = b
      · unfold HDR_SIZE
        omega
      · have := ho.regions_apart hr hb hab
        unfold HDR_SIZE at *
        omega
    exact hload.trans hp.1
  refine ⟨⟨?_, ho.apart, ho.mapped⟩, hsize a s hr,
    fun b hab t hb => ⟨hsize b t hb, fun i h1 h2 => hm i ?_⟩⟩
  · refine ho.arena.imp_right fun ⟨hi, ha⟩ => ⟨hi, ha.congr rfl rfl fun c hc i h1 h2 => hm i ?_⟩
    have hcb := ha.bounds hc
    obtain ⟨-, hin | hout⟩ := ho.region hr
    · rcases ha.layout.apart (mem_held.mp hin.2.2.1).1 hc with rfl | hd | hd
      · exact .inl h2
      · change a + HDR_SIZE + s ≤ c.addr at hd
        omega
      · change c.addr + HDR_SIZE + c.size ≤ a at hd
        omega
    · have htop := ha.top
      unfold Chunk.stop at hcb
      omega
  · have := ho.regions_apart hr hb (Ne.symm hab)
    omega

/-! ### The functions -/

/-- A place for a new mapping of `len` bytes. -/
structure Fresh (h : Heap) (p len : ℕ) : Prop where
  aligned : PAGE_SIZE ∣ p
  low : HEAP_ARENA_END ≤ p
  high : p + pageRound len ≤ MMAP_END
  apart : ∀ m ∈ h.maps, p + pageRound len ≤ m.1 ∨ m.1 + m.2 ≤ p

/-- The kernel's answers to a request for `n` bytes are places that are free. -/
def Env.Honest (env : Env) (h : Heap) (n : ℕ) : Prop :=
  ∀ p, env.direct = some p → Fresh h p (HDR_SIZE + alignUp n ALIGN)

theorem Keeps.refl (h : Heap) (cs : List Chunk) (b : ℕ) : Keeps h cs h cs b :=
  fun _ hr => ⟨hr, fun _ _ _ => rfl⟩

theorem Keeps.trans {h'' : Heap} {cs'' : List Chunk} (h1 : Keeps h cs h' cs' b)
    (h2 : Keeps h' cs' h'' cs'' b) :
    Keeps h cs h'' cs'' b := by
  intro s hr
  obtain ⟨hr', hm⟩ := h1 s hr
  obtain ⟨hr'', hm'⟩ := h2 s hr'
  exact ⟨hr'', fun i hi hi' => (hm' i hi hi').trans (hm i hi hi')⟩

theorem InOrder.spared (ho : InOrder h cs) (hsp : Spares cs h h')
    (hheld : ∀ s, ⟨b, s, true⟩ ∈ held cs → ⟨b, s, true⟩ ∈ held cs') : Keeps h cs h' cs' b := by
  intro s hr
  obtain ⟨-, ⟨-, -, hc, -, -⟩ | ⟨hlow, -, hs, hm⟩⟩ := ho.region hr
  · exact ⟨⟨hr.aligned, hr.pos, .inl (hheld s hc)⟩,
      fun i h1 h2 => hsp.payload _ (mem_held.mp hc).1 rfl i h1 h2⟩
  · refine ⟨⟨hr.aligned, hr.pos, .inr ⟨?_, hsp.maps ▸ hm⟩⟩,
      fun i h1 h2 => hsp.outside i (.inr (by omega))⟩
    rw [← hs]
    exact Mem.load_congr fun i h1 h2 => hsp.outside i (.inr (by omega))

theorem InOrder.arena_step (ho : InOrder h cs) (hi : h.arenaInited = true) (ha : Arena h' cs')
    (hsp : Spares cs h h') : InOrder h' cs' :=
  ⟨.inr ⟨hsp.inited.trans hi, ha⟩, hsp.maps ▸ ho.apart, hsp.maps ▸ ho.mapped⟩

/-- What a request leads to: no block, or a new region. -/
structure Gives (h : Heap) (cs : List Chunk) (n r : ℕ) (h' : Heap) (cs' : List Chunk) : Prop where
  order : InOrder h' cs'
  keeps : ∀ b, Keeps h cs h' cs' b
  result : r = 0 ∨ ∃ a s, r = a + HDR_SIZE ∧ Region h' cs' a s ∧ n ≤ s ∧ alignUp n ALIGN ≤ s ∧
    ∀ t, ¬Region h cs a t

theorem Gives.nothing (ho : InOrder h cs) : Gives h cs n 0 h cs :=
  ⟨ho, fun _ _ hr => ⟨hr, fun _ _ _ => rfl⟩, .inl rfl⟩

theorem alignUp_spec (h0 : alignUp n ALIGN ≠ 0) : 16 ∣ alignUp n ALIGN ∧ n ≤ alignUp n ALIGN := by
  unfold alignUp ALIGN at *
  split at h0
  · exact absurd rfl h0
  · next hn =>
    rw [if_neg hn]
    omega

section

variable (ho : InOrder h cs)

include ho

theorem arenaInit_spec (granted : Bool) : h.arenaInit granted = none ∨
      ∃ h', h.arenaInit granted = some h' ∧ h'.arenaInited = true ∧ Arena h' cs ∧ InOrder h' cs ∧
        ∀ b, Keeps h cs h' cs b := by
  unfold Heap.arenaInit
  rcases ho.arena with ⟨hi, rfl, hfree⟩ | ⟨hi, ha⟩
  · rw [hi]
    simp only [Bool.false_eq_true, if_false]
    split
    · have harena : Arena { h with
          mem := h.mem.fill HEAP_ARENA_BASE (HEAP_ARENA_END - HEAP_ARENA_BASE) fun _ => 0
          arenaInited := true
          arenaTop := HEAP_ARENA_BASE } [] :=
        ⟨rfl, (by decide : HEAP_ARENA_BASE ≤ HEAP_ARENA_END), nofun, hfree, isChain_nil⟩
      have hmem : ∀ i, HEAP_ARENA_END ≤ i →
          h.mem.fill HEAP_ARENA_BASE (HEAP_ARENA_END - HEAP_ARENA_BASE) (fun _ => 0) i = h.mem i :=
        fun i hi => Mem.fill_of_out (.inr (by unfold HEAP_ARENA_BASE HEAP_ARENA_END at *; omega))
      refine .inr ⟨_, rfl, rfl, harena, ⟨.inr ⟨rfl, harena⟩, ho.apart, ho.mapped⟩, fun b s hr => ?_⟩
      obtain ⟨-, ⟨-, -, hc, -, -⟩ | ⟨hlow, -, hs, hm⟩⟩ := ho.region hr
      · cases hc
      · refine ⟨⟨hr.aligned, hr.pos, .inr ⟨?_, hm⟩⟩, fun i h1 h2 => hmem i (by omega)⟩
        rw [← hs]
        exact Mem.load_congr fun i h1 h2 => hmem i (by omega)
    · exact .inl rfl
  · rw [hi]
    exact .inr ⟨h, rfl, hi, ha, ho, Keeps.refl h cs⟩

theorem arenaAlloc_gives (hi : h.arenaInited = true) (ha : Arena h cs) (h0 : alignUp n ALIGN ≠ 0) :
    ∃ r h' cs', h.arenaAlloc (alignUp n ALIGN) = some (r, h') ∧ Gives h cs n r h' cs' := by
  obtain ⟨hs, hn⟩ := alignUp_spec h0
  rcases arenaAlloc_spec ha hs (Nat.pos_of_ne_zero h0) with hnone | ⟨c, h', cs', hrun, ha', hsp, hu,
    hle, hnew, hheld⟩
  · exact ⟨0, h, cs, hnone, Gives.nothing ho⟩
  · refine ⟨_, h', cs', hrun, ho.arena_step hi ha' hsp,
      fun b => ho.spared hsp fun s hc => ?_, .inr ?_⟩
    · exact (hheld _).mpr (.inr hc)
    · have hc : c ∈ held cs' := (hheld c).mpr (.inl rfl)
      obtain ⟨-, -, hcs, hcpos⟩ := ha'.bounds (mem_held.mp hc).1
      have hceta : c = ⟨c.addr, c.size, true⟩ := by rw [← hu]
      refine ⟨c.addr, c.size, rfl, ⟨hcs, hcpos, .inl (hceta ▸ hc)⟩, hn.trans hle, hle,
        fun t hr => ?_⟩
      rcases (ho.region hr).2 with ⟨-, -, hd, -, -⟩ | ⟨hlow, -⟩
      · exact hnew _ hd rfl
      · have hb := (ha'.bounds (mem_held.mp hc).1).2.1
        have htop := ha'.top
        unfold Chunk.stop HDR_SIZE at hb
        omega

theorem InOrder.map {p size : ℕ} (hf : Fresh h p (HDR_SIZE + size)) (hs : 16 ∣ size)
    (hpos : 0 < size) :
    let h' := ((h.map p (HDR_SIZE + size)).setSize p (size + 3)).setNext p 0
    InOrder h' cs ∧ (∀ b, Keeps h cs h' cs b) ∧ Region h' cs p size ∧ ∀ t, ¬Region h cs p t := by
  intro h'
  have hpage := hf.aligned
  have hlow := hf.low
  have hhigh := hf.high
  have hhdr : HDR_SIZE = 16 := rfl
  have hround : 16 + size ≤ pageRound (HDR_SIZE + size) := le_pageRound (16 + size)
  have hp16 : 16 ∣ p := Dvd.dvd.trans (by decide) hpage
  have hmaps : h'.maps = (p, pageRound (HDR_SIZE + size)) :: h.maps := rfl
  have hmem : ∀ i, i < p ∨ p + pageRound (HDR_SIZE + size) ≤ i → h'.mem i = h.mem i := by
    intro i hi
    have h1 : h'.mem i = ((h.map p (HDR_SIZE + size)).setSize p (size + 3)).mem i :=
      Mem.store_of_out (by omega)
    have h2 : ((h.map p (HDR_SIZE + size)).setSize p (size + 3)).mem i =
        (h.map p (HDR_SIZE + size)).mem i :=
      Mem.store_of_out (by omega)
    have h3 : (h.map p (HDR_SIZE + size)).mem i = h.mem i := by
      change h.mem.fill p (pageRound (HDR_SIZE + size)) (fun _ => 0) i = h.mem i
      exact Mem.fill_of_out hi
    rw [h1, h2, h3]
  -- every region of before is outside of the new mapping
  have hout : ∀ b s, Region h cs b s →
      b + HDR_SIZE + s ≤ p ∨ p + pageRound (HDR_SIZE + size) ≤ b := by
    intro b s hr
    rcases (ho.region hr).2 with ⟨-, hb, -⟩ | ⟨-, -, -, hm⟩
    · exact .inl (hb.trans hlow)
    · have h1 := hf.apart _ hm
      have h2 := le_pageRound (HDR_SIZE + s)
      dsimp only at h1
      omega
  have hsize : h'.size p = size + 3 := by
    have hlt : size + 3 < 2 ^ 64 := by
      unfold MMAP_END at hhigh
      omega
    exact (Heap.size_setNext hp16 hp16).trans (Heap.size_setSize hlt)
  refine ⟨⟨?_, ?_, ?_⟩, fun b s hr => ?_, ⟨hs, hpos, .inr ⟨hsize, hmaps ▸ mem_cons_self⟩⟩,
    fun t hr => ?_⟩
  · refine ho.arena.imp_right fun ⟨hi, ha⟩ =>
      ⟨hi, ha.congr rfl rfl fun c hc i h1 h2 => hmem i (.inl ?_)⟩
    have hb := (ha.bounds hc).2.1
    have htop := ha.top
    unfold Chunk.stop at hb
    omega
  · rw [hmaps]
    exact List.Pairwise.cons hf.apart ho.apart
  · rw [hmaps]
    intro m hm
    rcases mem_cons.mp hm with rfl | hm
    · exact ⟨hpage, hlow, hhigh⟩
    · exact ho.mapped m hm
  · have hb := hout b s hr
    refine ⟨⟨hr.aligned, hr.pos, hr.place.imp_right fun hp => ⟨?_, hmaps ▸ mem_cons_of_mem _ hp.2⟩⟩,
      fun i h1 h2 => hmem i (by omega)⟩
    rw [← hp.1]
    exact Mem.load_congr fun i h1 h2 => hmem i (by omega)
  · have := hout p t hr
    omega

theorem directAlloc_gives (henv : env.Honest h n) (h0 : alignUp n ALIGN ≠ 0) :
    ∃ r h' cs', h.directAlloc (alignUp n ALIGN) env.direct = (r, h') ∧ Gives h cs n r h' cs' := by
  obtain ⟨hs, hn⟩ := alignUp_spec h0
  unfold Heap.directAlloc
  cases hdir : env.direct with
  | none => exact ⟨0, h, cs, rfl, Gives.nothing ho⟩
  | some p =>
    obtain ⟨ho', hkeeps, hr, hnew⟩ := ho.map (henv p hdir) hs (Nat.pos_of_ne_zero h0)
    rw [direct_field_eq hs]
    exact ⟨_, _, cs, rfl, ho', hkeeps, .inr ⟨p, _, rfl, hr, hn, le_rfl, hnew⟩⟩

theorem malloc_gives (henv : env.Honest h n) :
    ∃ r h' cs', h.malloc n env = some (r, h') ∧ Gives h cs n r h' cs' := by
  have hnone : ∃ r h' cs', some (0, h) = some (r, h') ∧ Gives h cs n r h' cs' :=
    ⟨0, h, cs, rfl, Gives.nothing ho⟩
  unfold Heap.malloc
  split
  · exact hnone
  dsimp only
  split
  · exact hnone
  next h0 =>
  split
  · exact hnone
  split
  · obtain ⟨r, h', cs', hrun, hg⟩ := directAlloc_gives ho henv h0
    exact ⟨r, h', cs', congrArg some hrun, hg⟩
  · rcases arenaInit_spec ho env.arena with hinit | ⟨h₁, hinit, hi, ha, ho₁, hk⟩
    · rw [hinit]
      exact hnone
    · rw [hinit]
      obtain ⟨r, h', cs', hrun, hg⟩ := arenaAlloc_gives ho₁ hi ha h0
      refine ⟨r, h', cs', hrun, hg.order, fun b => (hk b).trans (hg.keeps b),
        hg.result.imp_right ?_⟩
      rintro ⟨a, s, hr, hreg, hn, hle, hnew⟩
      exact ⟨a, s, hr, hreg, hn, hle, fun t ht => hnew t (hk a t ht).1⟩

theorem free_keeps (hr : Region h cs a s) :
    ∃ h' cs', h.free (a + HDR_SIZE) = some h' ∧ InOrder h' cs' ∧ ∀ b, b ≠ a →
      Keeps h cs h' cs' b := by
  rcases (ho.region hr).2 with ⟨-, -, hc, ha, -⟩ | ⟨hlow, -, hs, hm⟩
  · obtain ⟨hmem, hu⟩ := mem_held.mp hc
    have hi := ho.inited hmem
    obtain ⟨h', cs', hrun, ha', hsp, hheld⟩ := free_spec ha hmem hu
    refine ⟨h', cs', hrun, ho.arena_step hi ha' hsp, fun b hb => ho.spared hsp fun t ht => ?_⟩
    exact (hheld _).mpr ⟨ht, fun heq => hb (congrArg Chunk.addr heq)⟩
  · refine ⟨{ h with maps := h.maps.erase (a, pageRound (HDR_SIZE + s)) }, cs, ?_, ⟨?_, ?_, ?_⟩,
      fun b hb t ht => ?_⟩
    · unfold Heap.free
      rw [if_neg (by unfold HDR_SIZE; omega)]
      simp only [Nat.add_sub_cancel, hs, isDirect_direct hr.aligned, if_true,
        (plain_field hr.aligned).2]
    · exact ho.arena.imp_right fun ⟨hi, ha⟩ => ⟨hi, ha.congr rfl rfl fun _ _ _ _ _ => rfl⟩
    · exact ho.apart.sublist erase_sublist
    · exact fun m hm => ho.mapped m (mem_of_mem_erase hm)
    · refine ⟨⟨ht.aligned, ht.pos, ht.place.imp_right fun hp => ⟨hp.1, ?_⟩⟩, fun _ _ _ => rfl⟩
      exact (mem_erase_of_ne fun heq => hb (congrArg Prod.fst heq)).mpr hp.2

theorem grow_keeps (hr : Region h cs a s) (hs : 16 ∣ n) (hlt : s < n) : h.grow a s n = some none ∨
      ∃ h' cs' t, h.grow a s n = some (some h') ∧ InOrder h' cs' ∧ Region h' cs' a t ∧ n ≤ t ∧
        (∀ i, a + HDR_SIZE ≤ i → i < a + HDR_SIZE + s → h'.mem i = h.mem i) ∧
        ∀ b, b ≠ a → Keeps h cs h' cs' b := by
  rcases (ho.region hr).2 with ⟨-, -, hc, ha, -⟩ | ⟨hlow, -, hfield, hm⟩
  · obtain ⟨hmem, hu⟩ := mem_held.mp hc
    have hi := ho.inited hmem
    refine (grow_spec ha hmem hu hs hlt).imp_right ?_
    rintro ⟨h', cs', t, hrun, ha', hsp, hle, hheld⟩
    have hnew : ⟨a, t, true⟩ ∈ held cs' := (hheld _).mpr (.inl rfl)
    obtain ⟨-, -, htal, htpos⟩ := ha'.bounds (mem_held.mp hnew).1
    refine ⟨h', cs', t, hrun, ho.arena_step hi ha' hsp, ⟨htal, htpos, .inl hnew⟩, hle, ?_,
      fun b hb => ?_⟩
    · exact fun i h1 h2 => hsp.payload _ hmem hu i h1 h2
    · refine ho.spared hsp fun t ht =>
        (hheld _).mpr (.inr ⟨ht, fun heq => hb (congrArg Chunk.addr heq)⟩)
  · left
    unfold Heap.grow
    rw [hfield, if_pos (isDirect_direct hr.aligned)]

end

/-- What `realloc` of the region `a` with `s` bytes leads to: the block is gone, or it is
left as it was, or there is a region with its bytes. -/
structure Regives (h : Heap) (cs : List Chunk) (a s n r : ℕ) (h' : Heap) (cs' : List Chunk) :
    Prop where
  order : InOrder h' cs'
  others : ∀ b, b ≠ a → Keeps h cs h' cs' b
  result : (n = 0 ∧ r = 0) ∨ (n ≠ 0 ∧ r = 0 ∧ Keeps h cs h' cs' a) ∨
    (n ≠ 0 ∧ ∃ a' t, r = a' + HDR_SIZE ∧ Region h' cs' a' t ∧ n ≤ t ∧
    (a' = a ∨ ∀ u, ¬Region h cs a' u) ∧
      ∀ i, i < s → h'.mem (r + i) = h.mem (a + HDR_SIZE + i))

theorem move_regives (ho : InOrder h cs) (hr : Region h cs a s) (henv : env.Honest h n) (hn : n ≠ 0)
    (hlt : s < alignUp n ALIGN) :
    ∃ r h' cs', h.move (a + HDR_SIZE) s n env = some (r, h') ∧ Regives h cs a s n r h' cs' := by
  obtain ⟨r, h₁, cs₁, hrun, ho₁, hk₁, hres⟩ := malloc_gives ho henv
  unfold Heap.move
  rw [hrun]
  dsimp only
  rcases hres with rfl | ⟨a', t, rfl, hr', hnt, hle, hnew⟩
  · rw [if_pos rfl]
    exact ⟨0, h₁, cs₁, rfl, ho₁, fun b _ => hk₁ b, .inr (.inl ⟨hn, rfl, hk₁ a⟩)⟩
  · rw [if_neg (by unfold HDR_SIZE; omega)]
    have hne : a ≠ a' := by
      rintro rfl
      exact hnew s hr
    obtain ⟨hr₁, hb₁⟩ := hk₁ a s hr
    obtain ⟨ho₂, hr₂', hk₂⟩ :=
      ho₁.write hr' (m := h₁.mem.fill (a' + HDR_SIZE) s fun i => h₁.mem (a + HDR_SIZE + i))
      fun i hi => Mem.fill_of_out (by omega)
    obtain ⟨hr₂, -⟩ := hk₂ a hne s hr₁
    obtain ⟨h₃, cs₃, hfree, ho₃, hk₃⟩ := free_keeps ho₂ hr₂
    obtain ⟨hr₃, hb₃⟩ := hk₃ a' (Ne.symm hne) t hr₂'
    refine ⟨a' + HDR_SIZE, h₃, cs₃, by rw [hfree]; rfl, ho₃,
      fun b hb => ?_, .inr (.inr ⟨hn, a', t, rfl, hr₃, ?_,
      .inr hnew, fun i hi => ?_⟩)⟩
    · by_cases hba : b = a'
      · subst hba
        exact fun u hu => absurd hu (hnew u)
      · exact (hk₁ b).trans ((hk₂ b hba).trans (hk₃ b hb))
    · exact hnt
    · rw [hb₃ _ (by omega) (by omega), ← hb₁ _ (by omega) (by omega)]
      change h₁.mem.fill (a' + HDR_SIZE) s (fun i => h₁.mem (a + HDR_SIZE + i)) _ = _
      rw [Mem.fill_at hi]

theorem realloc_regives (ho : InOrder h cs) (hr : Region h cs a s) (henv : env.Honest h n) :
    ∃ r h' cs', h.realloc (a + HDR_SIZE) n env = some (r, h') ∧ Regives h cs a s n r h' cs' := by
  unfold Heap.realloc
  rw [if_neg (by unfold HDR_SIZE; omega)]
  split
  · next hn =>
    obtain ⟨h', cs', hfree, ho', hk⟩ := free_keeps ho hr
    exact ⟨0, h', cs', by rw [hfree]; rfl, ho', hk, .inl ⟨hn, rfl⟩⟩
  next hn =>
  simp only [Nat.add_sub_cancel, ho.plain_size hr]
  split
  · exact ⟨0, h, cs, rfl, ho, fun b _ => Keeps.refl h cs b,
      .inr (.inl ⟨hn, rfl, Keeps.refl h cs a⟩)⟩
  next h0 =>
  obtain ⟨hal, hle⟩ := alignUp_spec h0
  split
  · next hfit =>
    exact ⟨_, h, cs, rfl, ho, fun b _ => Keeps.refl h cs b,
      .inr (.inr ⟨hn, a, s, rfl, hr, hle.trans hfit, .inl rfl, fun _ _ => rfl⟩)⟩
  next hlt =>
  rcases grow_keeps ho hr hal (not_le.mp hlt) with hgrow | ⟨h', cs', t, hgrow, ho', hr', ht, hb, hk⟩
  · rw [hgrow]
    exact move_regives ho hr henv hn (not_le.mp hlt)
  · rw [hgrow]
    exact ⟨_, h', cs', rfl, ho', hk, .inr (.inr ⟨hn, a, t, rfl, hr', hle.trans ht, .inl rfl,
      fun i hi => hb _ (by omega) (by omega)⟩)⟩

theorem calloc_gives (ho : InOrder h cs) {nmemb size : ℕ} (henv : env.Honest h (nmemb * size)) :
    ∃ r h' cs', h.calloc nmemb size env = some (r, h') ∧ Gives h cs (nmemb * size) r h' cs' ∧
      (r ≠ 0 → ∀ i < nmemb * size, h'.mem (r + i) = 0) := by
  unfold Heap.calloc
  dsimp only
  split
  · exact ⟨0, h, cs, rfl, Gives.nothing ho, fun hne => absurd rfl hne⟩
  next hover =>
  have htotal : nmemb * size % 2 ^ 64 = nmemb * size := by
    rcases Nat.eq_zero_or_pos nmemb with rfl | hpos
    · simp
    · have hdiv : nmemb * size % 2 ^ 64 / nmemb = size := by
        by_contra hne
        exact hover ⟨by omega, hne⟩
      have h1 : nmemb * (nmemb * size % 2 ^ 64 / nmemb) ≤ nmemb * size % 2 ^ 64 :=
        Nat.mul_div_le _ _
      have h2 := Nat.mod_le (nmemb * size) (2 ^ 64)
      rw [hdiv] at h1
      omega
  rw [htotal]
  obtain ⟨r, h₁, cs₁, hrun, hg⟩ := malloc_gives ho henv
  rw [hrun]
  dsimp only
  rcases hg.result with rfl | ⟨a, s, rfl, hr, hn, hle, hnew⟩
  · exact ⟨0, h₁, cs₁, rfl, hg, fun hne => absurd rfl hne⟩
  · rw [if_neg (by unfold HDR_SIZE; omega)]
    obtain ⟨ho₂, hr₂, hk₂⟩ :=
      hg.order.write hr (m := h₁.mem.fill (a + HDR_SIZE) (nmemb * size) fun _ => 0)
      fun i hi => Mem.fill_of_out (by omega)
    refine ⟨_, _, cs₁, rfl, ⟨ho₂, fun b => ?_, .inr ⟨a, s, rfl, hr₂, hn, hle, hnew⟩⟩,
      fun _ i hi => ?_⟩
    · by_cases hba : b = a
      · subst hba
        exact fun u hu => absurd hu (hnew u)
      · exact (hg.keeps b).trans (hk₂ b hba)
    · change h₁.mem.fill (a + HDR_SIZE) (nmemb * size) (fun _ => 0) _ = _
      rw [Mem.fill_at hi]

end Sbunix.Malloc
