import Sbunix.Malloc.Arena

/-!
# What the allocator does to the chunks

Each operation on the arena as a change of the list of chunks: a free chunk is
taken whole or split, the arena grows by one, a chunk becomes free and merges
with its neighbours, a chunk grows in place. All of them replace the chunks
between `a` and `b` and leave what is before and behind.
-/

namespace Sbunix.Malloc

open Lib List Function

/-- The arena cut at `a` and `b`; `r` and `q` are the links at the cuts. -/
structure Cut (h : Heap) (pre mid post : List Chunk) (a b r q : ℕ) : Prop where
  before : Layout HEAP_ARENA_BASE pre a
  between : Layout a mid b
  behind : Layout b post h.arenaTop
  linksBefore : Links h h.freeList (freeAddrs pre) r
  linksBetween : Links h r (freeAddrs mid) q
  linksBehind : Links h q (freeAddrs post) 0

variable {e : ℕ} {l : List ℕ} {g : ℕ → ℕ} {d : Chunk} {h₁ : Heap}
  {h h' : Heap} {cs pre mid mid' post : List Chunk} {a b b' r r' q : ℕ} {c : Chunk}

theorem Arena.cut (ha : Arena h (pre ++ mid ++ post)) : ∃ a b r q, Cut h pre mid post a b r q := by
  obtain ⟨b, hlay, hbehind⟩ := Layout.append.mp ha.layout
  obtain ⟨a, hbefore, hbetween⟩ := Layout.append.mp hlay
  have hl := ha.links
  rw [freeAddrs_append, freeAddrs_append] at hl
  obtain ⟨q, hl, hlb⟩ := Seg.append.mp hl
  obtain ⟨r, hla, hlm⟩ := Seg.append.mp hl
  exact ⟨a, b, r, q, hbefore, hbetween, hbehind, hla, hlm, hlb⟩

theorem Cut.node (hc : Cut h pre mid post a b r q) (he : e ∈ freeAddrs pre) :
    16 ∣ e ∧ HEAP_ARENA_BASE ≤ e ∧ e + HDR_SIZE ≤ a := by
  obtain ⟨d, hd, -, rfl⟩ := mem_freeAddrs.mp he
  obtain ⟨h1, h2, -, -⟩ := hc.before.mem hd
  refine ⟨hc.before.aligned (by decide) hd, h1, ?_⟩
  unfold Chunk.stop at h2
  omega

theorem lastOr_mem : lastOr l = 0 ∨ lastOr l ∈ l := by
  rcases eq_nil_or_concat l with rfl | ⟨l₀, a, rfl⟩
  · exact .inl rfl
  · exact .inr (by simp [lastOr])

section

variable (hc : Cut h pre mid post a b r q)
include hc

theorem Cut.last (ha : Arena h (pre ++ mid ++ post)) :
    (lastOr (freeAddrs pre) = 0 ∨ Header (pre ++ mid ++ post) (lastOr (freeAddrs pre))) ∧
      lastOr (freeAddrs pre) < a := by
  rcases lastOr_mem (l := freeAddrs pre) with h0 | hm
  · have := hc.before.le
    unfold HEAP_ARENA_BASE at this
    exact ⟨.inl h0, by omega⟩
  · have := (hc.node hm).2.2
    unfold HDR_SIZE at this
    refine ⟨.inr (ha.node ?_), by omega⟩
    rw [freeAddrs_append, freeAddrs_append]
    simp [hm]

theorem Cut.node_ne (he : e ∈ freeAddrs pre) : e ≠ 0 := by
  have := (hc.node he).2.1
  unfold HEAP_ARENA_BASE at this
  omega

theorem Cut.link_last : h.link (lastOr (freeAddrs pre)) = r := by
  have hl := hc.linksBefore
  have hne : ∀ e ∈ freeAddrs pre, e ≠ 0 := fun e => hc.node_ne
  rcases eq_nil_or_concat (freeAddrs pre) with h0 | ⟨l₀, e, h0⟩
  · rw [h0] at hl ⊢
    exact hl
  · rw [concat_eq_append] at h0
    rw [h0] at hl hne ⊢
    obtain ⟨x, -, rfl, hx⟩ := Seg.append.mp hl
    rw [show lastOr (l₀ ++ [x]) = x by simp [lastOr], Heap.link_of_ne (hne x (by simp))]
    exact hx

theorem Cut.behind_bounds (hd : d ∈ post) : b ≤ d.addr ∧ d.addr < h.arenaTop := by
  obtain ⟨h1, h2, -, -⟩ := hc.behind.mem hd
  unfold Chunk.stop HDR_SIZE at h2
  omega

/-- New chunks between the cuts. Outside of them the headers are as before, but for
the link that leads to them. -/
theorem Cut.replace (ha : Arena h (pre ++ mid ++ post))
    (hlayout : Layout a mid' b') (hbehind : Layout b' post h'.arenaTop)
    (htop : h'.arenaTop ≤ HEAP_ARENA_END)
    (hsize : ∀ e, 16 ∣ e → e < a ∨ b ≤ e ∧ e < h.arenaTop → h'.size e = h.size e)
    (hmid : ∀ c ∈ mid', h'.size c.addr = c.field)
    (hlast : h'.link (lastOr (freeAddrs pre)) = r')
    (hlink : ∀ e, 16 ∣ e → e < a ∨ b ≤ e ∧ e < h.arenaTop → e ≠ lastOr (freeAddrs pre) →
    h'.link e = h.link e)
    (hlinks : Links h' r' (freeAddrs mid') q) (hparted : (pre ++ mid' ++ post).IsChain Parted) :
    Arena h' (pre ++ mid' ++ post) := by
  have hbase := hc.before.le
  have hab := hc.between.le
  unfold HEAP_ARENA_BASE at hbase
  refine ⟨Layout.append.mpr ⟨b', Layout.append.mpr ⟨a, hc.before, hlayout⟩, hbehind⟩, htop, ?_,
    ?_, hparted⟩
  · intro c hcm
    have hb16 : 16 ∣ b := hc.between.aligned_top (hc.before.aligned_top (by decide))
    rcases mem_append.mp hcm with hcm | hpost
    · rcases mem_append.mp hcm with hpre | hm
      · obtain ⟨h1, h2, -, -⟩ := hc.before.mem hpre
        unfold Chunk.stop HDR_SIZE at h2
        rw [hsize _ (hc.before.aligned (by decide) hpre) (by omega)]
        exact ha.sizes c (by simp [hpre])
      · exact hmid c hm
    · rw [hsize _ (hc.behind.aligned hb16 hpost) (.inr (hc.behind_bounds hpost))]
      exact ha.sizes c (by simp [hpost])
  · have hb16 : 16 ∣ b := hc.between.aligned_top (hc.before.aligned_top (by decide))
    rw [freeAddrs_append, freeAddrs_append]
    refine Seg.append.mpr ⟨q, Seg.append.mpr ⟨r', ?_, hlinks⟩, ?_⟩
    · refine hc.linksBefore.redirect (fun e => hc.node_ne) ?_ hlast fun e he hne => ?_
      · exact hc.before.sorted.imp fun hlt => by omega
      · refine hlink e ?_ (.inl ?_) hne
        · rcases he with rfl | he
          · exact dvd_zero 16
          · exact (hc.node he).1
        · rcases he with rfl | he
          · omega
          · have := (hc.node he).2.2
            unfold HDR_SIZE at this
            omega
    · refine hc.linksBehind.congr fun e he => ?_
      obtain ⟨d, hd, -, rfl⟩ := mem_freeAddrs.mp he
      have h1 := hc.behind_bounds hd
      have hl := (hc.last ha).2
      have h2 := hlink d.addr (hc.behind.aligned hb16 hd) (.inr h1) (by omega)
      rwa [Heap.link_of_ne (by omega), Heap.link_of_ne (by omega)] at h2

end

theorem parted_replace (h : (pre ++ mid ++ post).IsChain Parted) (hmid : mid'.IsChain Parted)
    (hne : mid' ≠ [])
    (hhead : ∀ x ∈ pre.getLast?, ∀ y ∈ mid'.head?, Parted x y)
    (hlast : ∀ x ∈ mid'.getLast?, ∀ y ∈ post.head?, Parted x y) :
    (pre ++ mid' ++ post).IsChain Parted := by
  rw [isChain_append, isChain_append] at h
  obtain ⟨⟨hpre, -, -⟩, hpost, -⟩ := h
  rw [isChain_append, isChain_append]
  refine ⟨⟨hpre, hmid, hhead⟩, hpost, fun x hx => hlast x ?_⟩
  rwa [getLast?_append_of_ne_nil _ hne] at hx

theorem parted_around (h : (pre ++ mid ++ post).IsChain Parted) (hne : mid ≠ []) :
    (∀ x ∈ pre.getLast?, ∀ y ∈ mid.head?, Parted x y) ∧
    ∀ x ∈ mid.getLast?, ∀ y ∈ post.head?, Parted x y := by
  rw [isChain_append, isChain_append] at h
  refine ⟨h.1.2.2, fun x hx => h.2.2 x ?_⟩
  rwa [getLast?_append_of_ne_nil _ hne]

theorem parted_used (h : (pre ++ mid ++ post).IsChain Parted) (hu : c.used = true) :
    (pre ++ [c] ++ post).IsChain Parted := by
  refine parted_replace h (isChain_singleton c) (cons_ne_nil c []) ?_ ?_
  · rintro x - y ⟨⟩
    exact .inr hu
  · rintro x ⟨⟩ y -
    exact .inl hu

theorem parted_split {e : Chunk} (h : (pre ++ mid ++ post).IsChain Parted) (hu : c.used = true)
    (he : e.used = false) (hlast : mid.getLast? = some e) :
    (pre ++ [c, d] ++ post).IsChain Parted := by
  have hne : mid ≠ [] := by
    rintro rfl
    cases hlast
  refine parted_replace h (by simp [Parted, hu]) (cons_ne_nil _ _) ?_ ?_
  · rintro x - y ⟨⟩
    exact .inr hu
  · rintro x ⟨⟩ y hy
    exact ((parted_around h hne).2 e hlast y hy).imp_left (by simp [he])

theorem Cut.free_links (hc : Cut h pre [c] post a b r q) (hf : c.used = false) :
    r = c.addr ∧ h.link c.addr = q := by
  have hl := hc.linksBetween
  rw [freeAddrs_cons_free hf] at hl
  obtain ⟨rfl, hq⟩ := hl
  refine ⟨rfl, ?_⟩
  have hbase := hc.before.le
  have hlow := (hc.between.mem mem_cons_self).1
  unfold HEAP_ARENA_BASE at hbase
  rw [Heap.link_of_ne (by omega)]
  exact hq

theorem Arena.size_free (ha : Arena h cs) (hc : c ∈ cs) (hf : c.used = false) :
    h.size c.addr = c.size := by
  rw [ha.sizes c hc, Chunk.field, hf]
  rfl

/-- As `Links`, with the links `g`. -/
def Follows (g : ℕ → ℕ) : ℕ → List ℕ → ℕ → Prop
  | p, [], q => p = q
  | p, e :: l, q => p = e ∧ Follows g (g e) l q

theorem Follows.links {p : ℕ} (hf : Follows g p l q)
    (hlink : ∀ e ∈ l, h.next e = g e) : Links h p l q := by
  induction l generalizing p with
  | nil => exact hf
  | cons e l ih =>
    obtain ⟨rfl, hf⟩ := hf
    refine ⟨rfl, ?_⟩
    have hp : h.mem.load (p + 8) = g p := hlink p mem_cons_self
    rw [hp]
    exact ih hf fun e he => hlink e (mem_cons_of_mem _ he)

variable {f : ℕ → ℕ} {tail post' : List Chunk}

/-- The same for known stores; `h₀` is the heap before them, with a new top if the last chunk
changes. -/
theorem Cut.rewrite {h₀ : Heap} (hc : Cut h pre mid post a b r q)
    (ha : Arena h (pre ++ mid ++ post)) (hw : Wrote cs h₀ h' f g)
    (hlayout : Layout a mid' b') (hbehind : Layout b' post h₀.arenaTop)
    (htop : h₀.arenaTop ≤ HEAP_ARENA_END)
    (hsize : ∀ e, e < a ∨ b ≤ e ∧ e < h.arenaTop → f e = h.size e)
    (hmid : ∀ c ∈ mid', f c.addr = c.field)
    (hlink : ∀ e, e < a ∨ b ≤ e ∧ e < h.arenaTop → e ≠ lastOr (freeAddrs pre) → g e = h.link e)
    (hlinks : Follows g (g (lastOr (freeAddrs pre))) (freeAddrs mid') q)
    (hparted : (pre ++ mid' ++ post).IsChain Parted) : Arena h' (pre ++ mid' ++ post) := by
  have ha16 : 16 ∣ a := hc.before.aligned_top (by decide)
  have hbase := hc.before.le
  unfold HEAP_ARENA_BASE at hbase
  have hlast : 16 ∣ lastOr (freeAddrs pre) := by
    rcases (hc.last ha).1 with h0 | hl
    · exact h0 ▸ dvd_zero 16
    · exact hl.aligned
  refine hc.replace ha hlayout (hw.top ▸ hbehind) (hw.top ▸ htop) (fun e he hout => ?_)
    (fun d hd => ?_)
    (hw.link _ hlast) (fun e he hout hne => ?_) (hlinks.links fun e he => ?_) hparted
  · rw [hw.size e he, hsize e hout]
  · rw [hw.size _ (hlayout.aligned ha16 hd), hmid d hd]
  · rw [hw.link e he, hlink e hout hne]
  · obtain ⟨d, hd, -, rfl⟩ := mem_freeAddrs.mp he
    have hlow := (hlayout.mem hd).1
    rw [← hw.link _ (hlayout.aligned ha16 hd), Heap.link_of_ne (by omega)]

def held (cs : List Chunk) : List Chunk := cs.filter (·.used)

theorem mem_held {cs : List Chunk} : d ∈ held cs ↔ d ∈ cs ∧ d.used = true := mem_filter

theorem mem_held_around {pre mid post : List Chunk} :
    d ∈ held (pre ++ mid ++ post) ↔ d ∈ held mid ∨ d ∈ held (pre ++ post) := by
  simp only [mem_held, mem_append]
  tauto

/-! ### Taking a free chunk -/

variable {size prev best : ℕ}

theorem Wrote.mark {h' : Heap} (hw : Wrote cs h h' f g) (hb : Header cs best)
    (hs : 16 ∣ f best) (hlt : f best + 1 < 2 ^ 64) :
    Wrote cs h ((h'.setSize best (withUsed (h'.size best))).setNext best 0)
      (update f best (f best + 1)) (update g best 0) := by
  rw [hw.size best hb.aligned, withUsed_eq hs]
  exact (hw.setSize hb hlt).setNext hb (by decide)

theorem takeBest_split_wrote (hb : Header cs best) (hrest : Header cs (best + HDR_SIZE + size))
    (hprev : prev = 0 ∨ Header cs prev) (hs : 16 ∣ size) (hpos : 0 < size)
    (hfit : size + HDR_SIZE + ALIGN ≤ h.size best) :
    Wrote cs h (h.takeBest size best prev)
      (update (update (update h.size (best + HDR_SIZE + size) (h.size best - size - HDR_SIZE))
        best size) best
        (size + 1))
      (update (update (update h.link (best + HDR_SIZE + size) (h.link best)) prev
        (best + HDR_SIZE + size))
        best 0) := by
  have hlt := h.size_lt best
  have hhigh := hrest.high
  unfold Heap.takeBest
  rw [if_pos hfit]
  unfold HDR_SIZE ALIGN HEAP_ARENA_END at *
  have w1 := (Wrote.refl cs h).setSize (v := h.size best - size - 16) hrest (by omega)
  have hnext : (h.setSize (best + 16 + size) (h.size best - size - 16)).next best =
      h.link best := by
    rw [← Heap.link_of_ne hb.ne_zero, w1.link best hb.aligned]
  have w2 := w1.setNext hrest (hnext ▸ Heap.next_lt _ best)
  have w3 := w2.setSize (v := size) hb (by omega)
  have w4 := w3.relink (v := best + 16 + size) hprev (by omega)
  have w5 := w4.mark hb (by rwa [update_self]) (by rw [update_self]; omega)
  rw [update_self] at w5
  dsimp only
  rw [hnext]
  exact w5

theorem takeBest_whole_wrote (hb : Header cs best) (hprev : prev = 0 ∨ Header cs prev)
    (hs : 16 ∣ h.size best) (hfit : ¬size + HDR_SIZE + ALIGN ≤ h.size best) :
    Wrote cs h (h.takeBest size best prev) (update h.size best (h.size best + 1))
      (update (update h.link prev (h.link best)) best 0) := by
  have hlt := h.size_lt best
  unfold Heap.takeBest
  rw [if_neg hfit]
  have w1 := (Wrote.refl cs h).relink (v := h.next best) hprev (Heap.next_lt _ best)
  have w2 := w1.mark hb hs (by omega)
  rw [Heap.link_of_ne hb.ne_zero]
  exact w2

theorem takeBest_split (ha : Arena h (pre ++ [c] ++ post)) (hf : c.used = false) (hs : 16 ∣ size)
    (hpos : 0 < size) (hfit : size + HDR_SIZE + ALIGN ≤ c.size) :
    Arena (h.takeBest size c.addr (lastOr (freeAddrs pre)))
        (pre ++ [⟨c.addr, size, true⟩,
          ⟨c.addr + HDR_SIZE + size, c.size - size - HDR_SIZE, false⟩] ++ post) ∧
      Spares (pre ++ [c] ++ post) h (h.takeBest size c.addr (lastOr (freeAddrs pre))) := by
  obtain ⟨a, b, r, q, hcut⟩ := ha.cut
  have hc : c ∈ pre ++ [c] ++ post := by simp
  obtain ⟨rfl, hcs, hcpos, rfl⟩ := hcut.between
  obtain ⟨hl, hla⟩ := hcut.last ha
  obtain ⟨-, hq⟩ := hcut.free_links hf
  have hca := ha.aligned hc
  have hfield := ha.size_free hc hf
  have hrest : Header (pre ++ [c] ++ post) (c.addr + HDR_SIZE + size) := by
    refine ha.header_inside hc hf ?_ ?_ ?_ <;> unfold Chunk.stop HDR_SIZE ALIGN at * <;> omega
  have hw := takeBest_split_wrote (ha.header hc) hrest hl hs hpos (hfield ▸ hfit)
  refine ⟨hcut.rewrite ha hw ?_ hcut.behind ha.top ?_ ?_ ?_ ?_ ?_, hw.spares⟩
  · simp only [Layout, Chunk.stop, true_and]
    unfold HDR_SIZE ALIGN at *
    omega
  · intro e he
    simp only [update_apply]
    unfold Chunk.stop HDR_SIZE ALIGN at *
    grind
  · simp only [mem_cons, not_mem_nil, or_false, forall_eq_or_imp, forall_eq, update_apply,
      Chunk.field]
    unfold HDR_SIZE
    grind
  · intro e he hne
    simp only [update_apply]
    unfold Chunk.stop HDR_SIZE ALIGN at *
    grind
  · have hfree : freeAddrs [⟨c.addr, size, true⟩,
      ⟨c.addr + HDR_SIZE + size, c.size - size - HDR_SIZE, false⟩] =
      [c.addr + HDR_SIZE + size] := rfl
    rw [hfree]
    simp only [Follows, update_apply]
    unfold HDR_SIZE
    grind
  · exact parted_split ha.parted rfl hf rfl

theorem takeBest_whole (ha : Arena h (pre ++ [c] ++ post)) (hf : c.used = false)
    (hfit : ¬size + HDR_SIZE + ALIGN ≤ c.size) :
    Arena (h.takeBest size c.addr (lastOr (freeAddrs pre)))
      (pre ++ [⟨c.addr, c.size, true⟩] ++ post) ∧
      Spares (pre ++ [c] ++ post) h (h.takeBest size c.addr (lastOr (freeAddrs pre))) := by
  obtain ⟨a, b, r, q, hcut⟩ := ha.cut
  have hc : c ∈ pre ++ [c] ++ post := by simp
  obtain ⟨rfl, hcs, hcpos, rfl⟩ := hcut.between
  obtain ⟨hl, hla⟩ := hcut.last ha
  obtain ⟨-, hq⟩ := hcut.free_links hf
  have hfield := ha.size_free hc hf
  have hw := takeBest_whole_wrote (ha.header hc) hl (hfield ▸ hcs) (hfield ▸ hfit)
  refine ⟨hcut.rewrite ha hw ⟨rfl, hcs, hcpos, rfl⟩ hcut.behind ha.top ?_ ?_ ?_ ?_ ?_, hw.spares⟩
  · intro e he
    simp only [update_apply]
    unfold Chunk.stop HDR_SIZE at *
    grind
  · simp only [mem_singleton, forall_eq, update_self, Chunk.field, hfield]
    rfl
  · intro e he hne
    simp only [update_apply]
    unfold Chunk.stop HDR_SIZE at *
    grind
  · have hfree : freeAddrs [⟨c.addr, c.size, true⟩] = [] := rfl
    rw [hfree]
    simp only [Follows, update_apply]
    grind
  · exact parted_used ha.parted rfl

theorem bump (ha : Arena h cs) (hs : 16 ∣ size) (hpos : 0 < size)
    (hfit : ¬HEAP_ARENA_END - h.arenaTop < HDR_SIZE + size) :
    let h₀ := { h with arenaTop := h.arenaTop + (HDR_SIZE + size) }
    Arena ((h₀.setSize h.arenaTop (withUsed size)).setNext h.arenaTop 0)
        (cs ++ [⟨h.arenaTop, size, true⟩]) ∧
      Spares cs h ((h₀.setSize h.arenaTop (withUsed size)).setNext h.arenaTop 0) := by
  intro h₀
  have ha' : Arena h (cs ++ [] ++ []) := by simpa using ha
  obtain ⟨a, b, r, q, hcut⟩ := ha'.cut
  obtain rfl : a = b := hcut.between
  obtain rfl : a = h.arenaTop := hcut.behind
  obtain ⟨hl, hla⟩ := hcut.last ha'
  have htop := ha.top
  have hbase := hcut.before.le
  have htop16 : 16 ∣ h.arenaTop := hcut.before.aligned_top (by decide)
  have hhead : Header cs h.arenaTop :=
    ⟨htop16, hbase, by omega, fun c hc _ => .inr (ha.bounds hc).2.1⟩
  have hw := ((Wrote.refl cs h₀).setSize (v := withUsed size) hhead
    (by rw [withUsed_eq hs]; unfold HEAP_ARENA_END at *; omega)).setNext (v := 0) hhead (by decide)
  refine ⟨?_, hw.spares.payload, hw.spares.outside, hw.spares.maps, hw.spares.inited⟩
  have hlayout : Layout h.arenaTop [⟨h.arenaTop, size, true⟩] (h.arenaTop + (HDR_SIZE + size)) :=
    ⟨rfl, hs, hpos, by simp only [Layout, Chunk.stop]; omega⟩
  have := hcut.rewrite ha' hw hlayout rfl (by simp only [h₀]; omega) ?_ ?_ ?_ ?_ ?_
  · simpa using this
  · intro e he
    simp only [update_apply, h₀]
    grind [Heap.size]
  · simp only [mem_singleton, forall_eq, update_self, Chunk.field, withUsed_eq hs]
    rfl
  · intro e he hne
    simp only [update_apply, h₀]
    grind [Heap.link, Heap.next]
  · have hq : r = q := hcut.linksBetween
    have hlast := hcut.link_last
    change update h.link h.arenaTop 0 _ = q
    rw [update_of_ne (by omega), hlast, hq]
  · exact parted_used ha'.parted rfl

theorem arenaAlloc_spec (ha : Arena h cs) (hs : 16 ∣ size) (hpos : 0 < size) :
    h.arenaAlloc size = some (0, h) ∨
      ∃ c h' cs', h.arenaAlloc size = some (c.addr + HDR_SIZE, h') ∧ Arena h' cs' ∧ Spares cs h h' ∧
        c.used = true ∧ size ≤ c.size ∧ (∀ d ∈ held cs, d.addr ≠ c.addr) ∧
        ∀ d, d ∈ held cs' ↔ d = c ∨ d ∈ held cs := by
  obtain ⟨best, prev, hfind, hbest⟩ := findBest_spec ha.links
    (fun a hm => (ha.node hm).ne_zero) ha.rounds size 0 0 0
  unfold Heap.arenaAlloc
  simp only [hfind]
  rcases hbest with ⟨rfl, rfl⟩ | ⟨l₁, l₂, hl, hle, rfl⟩
  · rw [if_neg (by simp)]
    split
    · exact .inl rfl
    · next hfit =>
      obtain ⟨ha', hsp⟩ := bump ha hs hpos hfit
      refine .inr ⟨⟨h.arenaTop, size, true⟩, _, _, rfl, ha', hsp, rfl, le_rfl, fun d hd => ?_,
        fun d => ?_⟩
      · have := (ha.bounds (mem_held.mp hd).1).2.1
        unfold Chunk.stop HDR_SIZE at this
        have hlt : d.addr < h.arenaTop := by omega
        exact hlt.ne
      · simp [held, or_comm]
  · obtain ⟨pre, c, post, rfl, hf, rfl, rfl, rfl⟩ := freeAddrs_split hl
    rw [append_cons] at *
    have hc : c ∈ pre ++ [c] ++ post := by simp
    rw [if_pos (ha.header hc).ne_zero]
    rw [ha.size_free hc hf] at hle
    have hnone : held [c] = [] := by simp [held, hf]
    have hnew : ∀ d ∈ held (pre ++ [c] ++ post), d.addr ≠ c.addr := by
      intro d hd heq
      obtain ⟨hd, hdu⟩ := mem_held.mp hd
      rcases ha.layout.apart hd hc with rfl | h1 | h1
      · rw [hf] at hdu
        cases hdu
      · unfold Chunk.stop HDR_SIZE at h1
        omega
      · unfold Chunk.stop HDR_SIZE at h1
        omega
    by_cases hfit : size + HDR_SIZE + ALIGN ≤ c.size
    · obtain ⟨ha', hsp⟩ := takeBest_split ha hf hs hpos hfit
      refine .inr ⟨⟨c.addr, size, true⟩, _, _, rfl, ha', hsp, rfl, le_rfl, hnew, fun d => ?_⟩
      rw [mem_held_around, mem_held_around, hnone]
      simp [held]
    · obtain ⟨ha', hsp⟩ := takeBest_whole ha hf hfit
      refine .inr ⟨⟨c.addr, c.size, true⟩, _, _, rfl, ha', hsp, rfl, hle, hnew, fun d => ?_⟩
      rw [mem_held_around, mem_held_around, hnone]
      simp [held]

/-! ### Giving a chunk back -/

variable {s : ℕ}

theorem Links.head {l : List ℕ} (hl : Links h q l 0) : l.head?.getD 0 = q := by
  cases l with
  | nil => exact Eq.symm hl
  | cons a l => exact hl.1.symm

/-- The list goes on with the chunk at the cut if that is free, and with a later one if not. -/
theorem Cut.meets (hc : Cut h pre mid (d :: post) a b r q) (hf : d.used = false) : q = b := by
  have hl := hc.linksBehind
  rw [freeAddrs_cons_free hf] at hl
  exact hl.1.trans hc.behind.1

theorem Cut.not_meets (hc : Cut h pre mid post a b r q)
    (hguard : ∀ y ∈ post.head?, y.used = true) : q = 0 ∨ b < q := by
  cases post with
  | nil => exact .inl hc.linksBehind
  | cons d post =>
    have hl := hc.linksBehind.head
    rw [freeAddrs_cons_used (hguard d rfl)] at hl
    obtain ⟨rfl, -, -, hrest⟩ := hc.behind
    cases hfree : freeAddrs post with
    | nil =>
      rw [hfree] at hl
      exact .inl hl.symm
    | cons e l =>
      rw [hfree] at hl
      obtain ⟨f, hf, -, hfe⟩ := mem_freeAddrs.mp (hfree ▸ mem_cons_self : e ∈ freeAddrs post)
      have hlow := (hrest.mem hf).1
      have heq : e = q := hl
      unfold Chunk.stop HDR_SIZE at hlow
      exact .inr (by omega)

theorem Cut.link_lt (hc : Cut h pre mid post a b r q)
    (htop : h.arenaTop ≤ HEAP_ARENA_END) : q < 2 ^ 64 := by
  have hl := hc.linksBehind.head
  cases hfree : freeAddrs post with
  | nil =>
    rw [hfree] at hl
    have hq : 0 = q := hl
    omega
  | cons e l =>
    rw [hfree] at hl
    obtain ⟨f, hf, -, hfe⟩ := mem_freeAddrs.mp (hfree ▸ mem_cons_self : e ∈ freeAddrs post)
    have hlt := (hc.behind_bounds hf).2
    have hq : e = q := hl
    unfold HEAP_ARENA_END at htop
    omega

/-- What `free` has done after the first merge: `c` and the free chunk behind it are one chunk
of size `s`, which is not on the list yet. -/
structure Merged (cs pre : List Chunk) (c : Chunk) (post : List Chunk) (h h' : Heap)
    (tail post' : List Chunk) (s r q : ℕ) : Prop where
  split : post = tail ++ post'
  free : held tail = []
  cut : Cut h pre (c :: tail) post' c.addr (c.addr + HDR_SIZE + s) r q
  aligned : 16 ∣ s
  pos : 0 < s
  guard : ∀ y ∈ post'.head?, y.used = true
  wrote : Wrote cs h h' (update h.size c.addr s) (update h.link c.addr q)

theorem mergeNext_spec (ha : Arena h (pre ++ [c] ++ post)) (hu : c.used = true) :
    ∃ tail post' s r q, Merged (pre ++ [c] ++ post) pre c post h
      ((h.setSize c.addr c.size).mergeNext c.addr ((freeAddrs post).head?.getD 0)) tail
        post' s r q := by
  have hc : c ∈ pre ++ [c] ++ post := by simp
  have hhead := ha.header hc
  have hbounds := ha.bounds hc
  have htop := ha.top
  obtain ⟨a, b, r, q, hcut⟩ := ha.cut
  obtain ⟨rfl, hcs, hcpos, rfl⟩ := hcut.between
  have hlt : c.size < 2 ^ 64 := by
    unfold Chunk.stop HEAP_ARENA_END at *
    omega
  have w0 := (Wrote.refl (pre ++ [c] ++ post) h).setSize hhead hlt
  have hsize : (h.setSize c.addr c.size).size c.addr = c.size := Heap.size_setSize hlt
  rw [hcut.linksBehind.head]
  by_cases hguard : ∀ y ∈ post.head?, y.used = true
  · -- nothing to merge with
    refine ⟨[], post, c.size, r, q, rfl, rfl, hcut, hcs, hcpos, hguard, ?_⟩
    have hq := hcut.not_meets hguard
    have hmeet : ¬(q ≠ 0 ∧ c.addr + HDR_SIZE + (h.setSize c.addr c.size).size c.addr = q) := by
      rw [hsize]
      unfold Chunk.stop at hq
      omega
    rw [Heap.mergeNext, if_neg hmeet]
    exact w0.setNext hhead (hcut.link_lt htop)
  · obtain ⟨d, post', rfl, hd⟩ : ∃ d post', post = d :: post' ∧ d.used = false := by
      cases post with
      | nil => simp at hguard
      | cons d post' => exact ⟨d, post', rfl, by simpa using hguard⟩
    obtain rfl := hcut.meets hd
    have hmeet : c.stop ≠ 0 ∧ c.addr + HDR_SIZE + (h.setSize c.addr c.size).size c.addr =
        c.stop := by
      rw [hsize]
      exact ⟨by unfold Chunk.stop HDR_SIZE; omega, rfl⟩
    have ha' : Arena h (pre ++ [c, d] ++ post') := by simpa using ha
    have hdm : d ∈ pre ++ [c, d] ++ post' := by simp
    have hdb := ha'.bounds hdm
    obtain ⟨a, b, r, q, hcut'⟩ := ha'.cut
    obtain ⟨rfl, -, -, hda, hds, hdpos, rfl⟩ := hcut'.between
    have hq : h.link d.addr = q := by
      have hl := hcut'.linksBetween
      rw [freeAddrs_cons_used hu, freeAddrs_cons_free hd] at hl
      rw [Heap.link_of_ne (ha'.header hdm).ne_zero]
      exact hl.2
    have hne : d.addr ≠ c.addr := by
      unfold Chunk.stop HDR_SIZE at hda
      omega
    have hstop : d.stop = c.addr + HDR_SIZE + (c.size + (HDR_SIZE + d.size)) := by
      unfold Chunk.stop at *
      omega
    rw [hstop] at hcut'
    refine ⟨[d], post', c.size + (HDR_SIZE + d.size), r, q, rfl, by
      simp [held, hd], hcut', ?_, ?_, ?_, ?_⟩
    · unfold HDR_SIZE
      omega
    · omega
    · exact fun y hy => ((parted_around ha'.parted (cons_ne_nil _ _)).2 d rfl y hy).resolve_left
        (by simp [hd])
    · have hdsize : (h.setSize c.addr c.size).size d.addr = d.size := by
        rw [w0.size _ (ha'.aligned hdm), update_of_ne hne, ha'.size_free hdm hd]
      rw [Heap.mergeNext, if_pos hmeet, hsize, ← hda, hdsize]
      have w1 := w0.setSize (v := c.size + (HDR_SIZE + d.size)) hhead
        (by unfold Chunk.stop HEAP_ARENA_END at *; omega)
      have hnext := w1.link d.addr (ha'.aligned hdm)
      rw [Heap.link_of_ne (ha'.header hdm).ne_zero, hq] at hnext
      dsimp only
      rw [hnext]
      have w2 := w1.setNext hhead (hcut'.link_lt htop)
      rwa [update_idem] at w2

theorem Cut.extend (hc : Cut h (pre ++ [d]) mid post a b r q)
    (hf : d.used = false) : Cut h pre (d :: mid) post d.addr b d.addr q ∧ d.stop = a := by
  obtain ⟨x, hpre, rfl, hds, hdpos, rfl⟩ := Layout.append.mp hc.before
  have hl := hc.linksBefore
  rw [freeAddrs_append, freeAddrs_cons_free hf] at hl
  obtain ⟨x, hlpre, rfl, hlast⟩ := Seg.append.mp hl
  refine ⟨⟨hpre, ⟨rfl, hds, hdpos, hc.between⟩, hc.behind, hlpre, ?_, hc.linksBehind⟩, rfl⟩
  have hlast : h.mem.load (d.addr + 8) = r := hlast
  rw [freeAddrs_cons_free hf]
  exact ⟨rfl, hlast ▸ hc.linksBetween⟩

theorem lastOr_append_free (pre : List Chunk) (hf : d.used = false) :
    lastOr (freeAddrs (pre ++ [d])) = d.addr := by
  rw [freeAddrs_append, freeAddrs_cons_free hf]
  simp [lastOr, freeAddrs]

theorem mergePrev_free (ha : Arena h ((pre ++ [d]) ++ [c] ++ post)) (hd : d.used = false)
    (hm : Merged ((pre ++ [d]) ++ [c] ++ post) (pre ++ [d]) c post h h₁ tail post' s r q) :
    Arena (h₁.mergePrev c.addr d.addr)
      (pre ++ [⟨d.addr, d.size + (HDR_SIZE + s), false⟩] ++ post') ∧
      Spares ((pre ++ [d]) ++ [c] ++ post) h (h₁.mergePrev c.addr d.addr) := by
  have hcm : c ∈ (pre ++ [d]) ++ [c] ++ post := by simp
  have hdm : d ∈ (pre ++ [d]) ++ [c] ++ post := by simp
  obtain ⟨hcut, hmeet⟩ := hm.cut.extend hd
  have ha' : Arena h (pre ++ (d :: c :: tail) ++ post') := by
    have := ha
    rw [hm.split] at this
    simpa using this
  have hw := hm.wrote
  have hcb := ha.bounds hcm
  have htop := ha.top
  have hlow := hm.cut.behind.le
  obtain ⟨-, hla⟩ := hcut.last ha'
  have hlast := hcut.link_last
  obtain ⟨-, hds, hdpos, -⟩ := hcut.between
  have hne : d.addr ≠ c.addr := by
    unfold Chunk.stop HDR_SIZE at hmeet
    omega
  have hsd : h₁.size d.addr = d.size := by
    rw [hw.size _ (ha.aligned hdm), update_of_ne hne, ha.size_free hdm hd]
  have hsc : h₁.size c.addr = s := by rw [hw.size _ (ha.aligned hcm), update_self]
  have hcond : d.addr ≠ 0 ∧ d.addr + HDR_SIZE + h₁.size d.addr = c.addr :=
    ⟨(ha.header hdm).ne_zero, hsd ▸ hmeet⟩
  have w1 := hw.setSize (v := d.size + (HDR_SIZE + s)) (ha.header hdm)
    (by unfold Chunk.stop HEAP_ARENA_END at *; omega)
  have hnext := w1.link c.addr (ha.aligned hcm)
  rw [Heap.link_of_ne (ha.header hcm).ne_zero, update_self] at hnext
  have w2 := w1.setNext (ha.header hdm) (hcut.link_lt htop)
  rw [Heap.mergePrev, if_pos hcond, hsd, hsc]
  dsimp only
  rw [hnext]
  refine ⟨hcut.rewrite ha' w2 ?_ hm.cut.behind htop ?_ ?_ ?_ ?_ ?_, w2.spares⟩
  · have haligned := hm.aligned
    simp only [Layout, Chunk.stop, true_and]
    unfold Chunk.stop HDR_SIZE at *
    omega
  · intro e he
    simp only [update_apply]
    unfold Chunk.stop HDR_SIZE at *
    grind
  · simp only [mem_singleton, forall_eq, update_self, Chunk.field]
    rfl
  · intro e he hne
    simp only [update_apply]
    unfold Chunk.stop HDR_SIZE at *
    grind
  · rw [freeAddrs_cons_free rfl]
    refine ⟨?_, update_self _ _ _⟩
    rw [update_of_ne (by omega), update_of_ne (by unfold Chunk.stop at hmeet; omega), hlast]
  · refine parted_replace ha'.parted (isChain_singleton _) (cons_ne_nil _ _) ?_ ?_
    · rintro x hx y -
      exact .inl (((parted_around ha'.parted (cons_ne_nil _ _)).1 x hx d rfl).resolve_right
        (by simp [hd]))
    · rintro x - y hy
      exact .inr (hm.guard y hy)

theorem Cut.prev_apart (hc : Cut h pre mid post a b r q)
    (hguard : ∀ x ∈ pre.getLast?, x.used = true) (hd : d ∈ pre) (hf : d.used = false) :
    d.stop < a := by
  rcases eq_nil_or_concat pre with rfl | ⟨p, x, rfl⟩
  · cases hd
  · rw [concat_eq_append] at *
    have hx : x.used = true := hguard x (by simp)
    obtain ⟨b, hp, rfl, hxs, hxpos, rfl⟩ := Layout.append.mp hc.before
    rcases mem_append.mp hd with hd | hd
    · have := (hp.mem hd).2.1
      unfold Chunk.stop HDR_SIZE at *
      omega
    · rw [mem_singleton] at hd
      rw [hd, hx] at hf
      cases hf

theorem mergePrev_used
    (ha : Arena h (pre ++ [c] ++ post)) (hguard : ∀ x ∈ pre.getLast?, x.used = true)
    (hm : Merged (pre ++ [c] ++ post) pre c post h h₁ tail post' s r q) :
    Arena (h₁.mergePrev c.addr (lastOr (freeAddrs pre))) (pre ++ [⟨c.addr, s, false⟩] ++ post') ∧
      Spares (pre ++ [c] ++ post) h (h₁.mergePrev c.addr (lastOr (freeAddrs pre))) := by
  have hcm : c ∈ pre ++ [c] ++ post := by simp
  have hcut := hm.cut
  have ha' : Arena h (pre ++ (c :: tail) ++ post') := by
    have := ha
    rw [hm.split] at this
    simpa using this
  have hcs : pre ++ (c :: tail) ++ post' = pre ++ [c] ++ post := by simp [hm.split]
  have hw := hm.wrote
  have hcb := ha.bounds hcm
  have htop := ha.top
  obtain ⟨hl, hla⟩ := hcut.last ha'
  rw [hcs] at hl
  have hcond : ¬(lastOr (freeAddrs pre) ≠ 0 ∧
      lastOr (freeAddrs pre) + HDR_SIZE + h₁.size (lastOr (freeAddrs pre)) = c.addr) := by
    rintro ⟨hne, heq⟩
    obtain ⟨d, hd, hf, hda⟩ := mem_freeAddrs.mp (lastOr_mem.resolve_left hne)
    have hdm : d ∈ pre ++ [c] ++ post := by simp [hd]
    have hlt := hcut.prev_apart hguard hd hf
    rw [← hda, hw.size _ (ha.aligned hdm), update_of_ne (by omega), ha.size_free hdm hf] at heq
    exact absurd heq (ne_of_lt hlt)
  have w1 := hw.relink (v := c.addr) hl (by unfold Chunk.stop HEAP_ARENA_END at *; omega)
  rw [Heap.mergePrev, if_neg hcond]
  refine ⟨hcut.rewrite ha' w1 ⟨rfl, hm.aligned, hm.pos, rfl⟩ hcut.behind htop ?_ ?_ ?_ ?_ ?_,
    w1.spares⟩
  · intro e he
    rw [update_of_ne]
    unfold HDR_SIZE at he
    omega
  · simp only [mem_singleton, forall_eq, update_self, Chunk.field]
    rfl
  · intro e he hne
    rw [update_of_ne hne, update_of_ne]
    unfold HDR_SIZE at he
    omega
  · rw [freeAddrs_cons_free rfl]
    have hne : c.addr ≠ lastOr (freeAddrs pre) := by omega
    exact ⟨update_self _ _ _, (update_of_ne hne _ _).trans (update_self _ _ _)⟩
  · refine parted_replace ha'.parted (isChain_singleton _) (cons_ne_nil _ _) ?_ ?_
    · rintro x hx y -
      exact .inl (hguard x hx)
    · rintro x - y hy
      exact .inr (hm.guard y hy)

theorem Arena.findPlace (ha : Arena h (pre ++ [c] ++ post)) (hu : c.used = true)
    (h' : Heap) {limit : ℕ}
    (hlow : c.addr ≤ limit) (hhigh : limit ≤ c.stop) (hlink : ∀ e, 16 ∣ e → h'.link e = h.link e)
    (htop : h'.arenaTop = h.arenaTop) :
    Heap.findPlace h'.mem limit h'.rounds 0 h'.freeList =
      some (lastOr (freeAddrs pre), (freeAddrs post).head?.getD 0) := by
  have hfree : freeAddrs (pre ++ [c] ++ post) = freeAddrs pre ++ freeAddrs post := by
    rw [freeAddrs_append, freeAddrs_append, freeAddrs_cons_used hu]
    simp [freeAddrs]
  have hlinks := ha.links
  have hnode := fun a (hm : a ∈ freeAddrs (pre ++ [c] ++ post)) => ha.node hm
  have hrounds := ha.rounds
  rw [hfree] at hlinks hnode hrounds
  have hstart : h'.freeList = h.freeList := hlink 0 (dvd_zero 16)
  have hrounds' : h'.rounds = h.rounds := by rw [Heap.rounds, Heap.rounds, htop]
  have hlinks' : Links h' h'.freeList (freeAddrs pre ++ freeAddrs post) 0 := by
    rw [hstart]
    refine hlinks.congr fun e he => ?_
    have := hlink e (hnode e he).aligned
    rwa [Heap.link_of_ne (hnode e he).ne_zero, Heap.link_of_ne (hnode e he).ne_zero] at this
  rw [append_assoc] at ha
  obtain ⟨hbefore, hbehind⟩ := ha.layout.around
  refine findPlace_spec hlinks' (fun e he => (hnode e he).ne_zero) (fun e he => ?_)
    (fun e he => ?_) ?_
  · obtain ⟨d, hd, -, rfl⟩ := mem_freeAddrs.mp he
    have := hbefore d hd
    unfold Chunk.stop HDR_SIZE at this
    omega
  · obtain ⟨d, hd, -, rfl⟩ := mem_freeAddrs.mp he
    exact hhigh.trans (hbehind d hd)
  · rw [length_append] at hrounds
    omega

theorem isDirect_field (hs : 16 ∣ s) : isDirect (s + 1) = false := by
  unfold isDirect
  rw [Nat.testBit_succ, Nat.testBit_zero]
  simp
  omega

theorem merge_spec (ha : Arena h (pre ++ [c] ++ post)) (hu : c.used = true) :
    let h' := ((h.setSize c.addr c.size).mergeNext c.addr ((freeAddrs post).head?.getD 0)).mergePrev
      c.addr
      (lastOr (freeAddrs pre))
    ∃ cs', Arena h' cs' ∧ Spares (pre ++ [c] ++ post) h h' ∧ ∀ d, d ∈ held cs' ↔
      d ∈ held (pre ++ post) := by
  intro h'
  obtain ⟨tail, post', s, r, q, hm⟩ := mergeNext_spec ha hu
  have hpost : ∀ d, d ∈ held (pre ++ post) ↔ d ∈ held (pre ++ post') := by
    intro d
    have := hm.free
    rw [hm.split]
    simp [held] at this ⊢
    grind
  by_cases hguard : ∀ x ∈ pre.getLast?, x.used = true
  · obtain ⟨ha', hsp⟩ := mergePrev_used ha hguard hm
    refine ⟨_, ha', hsp, fun d => ?_⟩
    rw [hpost, mem_held_around]
    simp [held]
  · rcases eq_nil_or_concat pre with rfl | ⟨p, x, rfl⟩
    · simp at hguard
    · rw [concat_eq_append] at *
      have hx : x.used = false := by simpa using hguard
      obtain ⟨ha', hsp⟩ := mergePrev_free ha hx hm
      have hlast := lastOr_append_free p hx
      simp only [h', concat_eq_append, hlast]
      refine ⟨_, ha', hsp, fun d => ?_⟩
      rw [hpost, mem_held_around, mem_held_around]
      simp [held, hx]

theorem free_spec (ha : Arena h cs) (hc : c ∈ cs) (hu : c.used = true) :
    ∃ h' cs', h.free (c.addr + HDR_SIZE) = some h' ∧ Arena h' cs' ∧ Spares cs h h' ∧
      ∀ d, d ∈ held cs' ↔ d ∈ held cs ∧ d ≠ c := by
  obtain ⟨pre, post, rfl⟩ := append_of_mem hc
  have haround := ha.layout.around
  rw [append_cons] at *
  obtain ⟨-, -, hcs, hcpos⟩ := ha.bounds hc
  have hfield : h.size c.addr = c.size + 1 := by
    rw [ha.sizes c hc, Chunk.field, hu]
    rfl
  have hlt : c.size < 2 ^ 64 := by
    have := h.size_lt c.addr
    omega
  have hclear : c.size + 1 - (c.size + 1) % 2 = c.size := by omega
  have w0 := (Wrote.refl (pre ++ [c] ++ post) h).setSize (ha.header hc) hlt
  have hplace := ha.findPlace hu (h.setSize c.addr c.size) (le_refl c.addr)
    (by unfold Chunk.stop; omega) w0.link rfl
  obtain ⟨cs', ha', hsp, hheld⟩ := merge_spec ha hu
  refine ⟨_, cs', ?_, ha', hsp, fun d => ?_⟩
  · unfold Heap.free
    rw [if_neg (by unfold HDR_SIZE; omega)]
    simp only [Nat.add_sub_cancel, hfield, isDirect_field hcs, hclear, hplace,
      Bool.false_eq_true, if_false]
  · rw [hheld, mem_held_around]
    have hne : d ∈ held (pre ++ post) → d ≠ c := by
      rw [mem_held, mem_append]
      rintro ⟨hd | hd, -⟩ rfl
      · have := haround.1 d hd
        unfold Chunk.stop HDR_SIZE at this
        omega
      · have := haround.2 d hd
        unfold Chunk.stop HDR_SIZE at this
        omega
    have hself : d ∈ held [c] ↔ d = c := by simp [held, hu]
    rw [hself]
    exact ⟨fun hd => ⟨.inr hd, hne hd⟩, fun hd => hd.1.resolve_left hd.2⟩

/-! ### Growing in place -/

variable {want : ℕ}

theorem grow_top (ha : Arena h (pre ++ [c] ++ [])) (hu : c.used = true) (hs : 16 ∣ want)
    (hlt : c.size < want)
    (hfit : want - c.size ≤ HEAP_ARENA_END - h.arenaTop) :
    let h' := { h.setSize c.addr (withUsed want) with arenaTop := h.arenaTop + (want - c.size) }
    Arena h' (pre ++ [⟨c.addr, want, true⟩] ++ []) ∧ Spares (pre ++ [c] ++ []) h h' := by
  intro h'
  have hc : c ∈ pre ++ [c] ++ [] := by simp
  have htop := ha.top
  obtain ⟨a, b, r, q, hcut⟩ := ha.cut
  obtain ⟨rfl, hcs, hcpos, rfl⟩ := hcut.between
  have hstop : c.stop = h.arenaTop := hcut.behind
  have hrq : r = q := by
    have := hcut.linksBetween
    rwa [freeAddrs_cons_used hu] at this
  have hw : Wrote (pre ++ [c] ++ []) { h with arenaTop := h.arenaTop + (want - c.size) } h'
      (update h.size c.addr (want + 1)) h.link := by
    rw [← withUsed_eq hs]
    refine (Wrote.refl _ _).setSize (ha.header hc) ?_
    rw [withUsed_eq hs]
    unfold Chunk.stop HEAP_ARENA_END at *
    omega
  refine ⟨?_, hw.spares.payload, hw.spares.outside, hw.spares.maps, hw.spares.inited⟩
  have hlayout : Layout c.addr [⟨c.addr, want, true⟩] (h.arenaTop + (want - c.size)) := by
    refine ⟨rfl, hs, hcpos.trans hlt, ?_⟩
    change c.addr + HDR_SIZE + want = _
    unfold Chunk.stop at hstop
    omega
  refine hcut.rewrite ha hw hlayout rfl ?_ ?_ ?_ ?_ ?_ ?_
  · change h.arenaTop + (want - c.size) ≤ _
    omega
  · intro e he
    rw [update_of_ne]
    unfold Chunk.stop HDR_SIZE at *
    omega
  · simp only [mem_singleton, forall_eq, update_self, Chunk.field]
    rfl
  · exact fun e _ _ => rfl
  · exact hcut.link_last.trans hrq
  · exact parted_used ha.parted rfl

theorem Cut.pair {a b r q : ℕ} (hc : Cut h pre [c, d] post a b r q) (hu : c.used = true)
    (hd : d.used = false) :
    c.addr = a ∧ d.addr = c.stop ∧ d.stop = b ∧ 16 ∣ c.size ∧ 0 < c.size ∧ 16 ∣ d.size ∧
      0 < d.size ∧
      r = d.addr ∧ h.link d.addr = q := by
  obtain ⟨rfl, hcs, hcpos, hda, hds, hdpos, rfl⟩ := hc.between
  have hl := hc.linksBetween
  have hbase := hc.before.le
  rw [freeAddrs_cons_used hu, freeAddrs_cons_free hd] at hl
  refine ⟨rfl, hda, rfl, hcs, hcpos, hds, hdpos, hl.1, ?_⟩
  rw [Heap.link_of_ne]
  · exact hl.2
  · unfold Chunk.stop HEAP_ARENA_BASE at *
    omega

theorem absorb_split (ha : Arena h (pre ++ [c, d] ++ post)) (hu : c.used = true)
    (hd : d.used = false)
    (hs : 16 ∣ want) (hlt : c.size < want)
    (hfit : want + HDR_SIZE + ALIGN ≤ c.size + HDR_SIZE + d.size) :
    Arena (h.absorb c.addr c.size want (lastOr (freeAddrs pre)) d.addr)
        (pre ++ [⟨c.addr, want, true⟩,
          ⟨c.addr + HDR_SIZE + want, c.size + HDR_SIZE + d.size - want - HDR_SIZE, false⟩] ++
            post) ∧
      Spares (pre ++ [c, d] ++ post) h
        (h.absorb c.addr c.size want (lastOr (freeAddrs pre)) d.addr) := by
  have hcm : c ∈ pre ++ [c, d] ++ post := by simp
  have hdm : d ∈ pre ++ [c, d] ++ post := by simp
  have htop := ha.top
  have hdb := (ha.bounds hdm).2.1
  obtain ⟨a, b, r, q, hcut⟩ := ha.cut
  obtain ⟨rfl, hda, rfl, hcs, hcpos, hds, hdpos, -, hq⟩ := hcut.pair hu hd
  obtain ⟨hl, hla⟩ := hcut.last ha
  have hca := ha.aligned hcm
  have htail : Header (pre ++ [c, d] ++ post) (c.addr + HDR_SIZE + want) := by
    refine ha.header_inside hdm hd ?_ ?_ ?_ <;> unfold Chunk.stop HDR_SIZE ALIGN at * <;> omega
  have hne : d.addr ≠ c.addr + HDR_SIZE + want := by
    unfold Chunk.stop at hda
    omega
  have hhigh := htail.high
  obtain ⟨left, hleft⟩ : ∃ n, n = c.size + HDR_SIZE + d.size - want - HDR_SIZE := ⟨_, rfl⟩
  have w1 := (Wrote.refl (pre ++ [c, d] ++ post) h).setSize (v := left) htail
    (by unfold Chunk.stop HDR_SIZE HEAP_ARENA_END at *; omega)
  have hnext := w1.link d.addr (ha.aligned hdm)
  rw [Heap.link_of_ne (ha.header hdm).ne_zero, hq] at hnext
  have w2 := w1.setNext htail (hcut.link_lt htop)
  have w3 := w2.relink (v := c.addr + HDR_SIZE + want) hl (by unfold HEAP_ARENA_END at *; omega)
  have w4 := w3.setSize (v := want + 1) (ha.header hcm) (by unfold HEAP_ARENA_END at *; omega)
  have habsorb : h.absorb c.addr c.size want (lastOr (freeAddrs pre)) d.addr =
      ((((h.setSize (c.addr + HDR_SIZE + want) left).setNext (c.addr + HDR_SIZE + want) q).relink
        (lastOr (freeAddrs pre)) (c.addr + HDR_SIZE + want)).setSize c.addr (want + 1)) := by
    have hcond : HDR_SIZE + ALIGN ≤ c.size + HDR_SIZE + d.size - want := by omega
    unfold Heap.absorb
    simp only [ha.size_free hdm hd, if_pos hcond, withUsed_eq hs, ← hleft, hnext]
  rw [habsorb, ← hleft]
  refine ⟨hcut.rewrite ha w4 ?_ hcut.behind ha.top ?_ ?_ ?_ ?_ ?_, w4.spares⟩
  · simp only [Layout, Chunk.stop, true_and]
    unfold Chunk.stop HDR_SIZE ALIGN at *
    omega
  · intro e he
    simp only [update_apply]
    unfold Chunk.stop HDR_SIZE ALIGN at *
    grind
  · simp only [mem_cons, not_mem_nil, or_false, forall_eq_or_imp, forall_eq, update_apply,
      Chunk.field]
    unfold HDR_SIZE
    grind
  · intro e he hne
    simp only [update_apply]
    unfold Chunk.stop HDR_SIZE ALIGN at *
    grind
  · have hfree : freeAddrs [⟨c.addr, want, true⟩, ⟨c.addr + HDR_SIZE + want, left, false⟩] =
      [c.addr + HDR_SIZE + want] := rfl
    rw [hfree]
    simp only [Follows, update_apply]
    unfold HDR_SIZE
    grind
  · exact parted_split ha.parted rfl hd rfl

theorem absorb_whole (ha : Arena h (pre ++ [c, d] ++ post)) (hu : c.used = true)
    (hd : d.used = false)
    (hfit : ¬want + HDR_SIZE + ALIGN ≤ c.size + HDR_SIZE + d.size) :
    Arena (h.absorb c.addr c.size want (lastOr (freeAddrs pre)) d.addr)
        (pre ++ [⟨c.addr, c.size + HDR_SIZE + d.size, true⟩] ++ post) ∧
      Spares (pre ++ [c, d] ++ post) h
        (h.absorb c.addr c.size want (lastOr (freeAddrs pre)) d.addr) := by
  have hcm : c ∈ pre ++ [c, d] ++ post := by simp
  have hdm : d ∈ pre ++ [c, d] ++ post := by simp
  have htop := ha.top
  have hdb := (ha.bounds hdm).2.1
  obtain ⟨a, b, r, q, hcut⟩ := ha.cut
  obtain ⟨rfl, hda, rfl, hcs, hcpos, hds, hdpos, -, hq⟩ := hcut.pair hu hd
  obtain ⟨hl, hla⟩ := hcut.last ha
  have hsum : 16 ∣ c.size + HDR_SIZE + d.size := by
    unfold HDR_SIZE
    omega
  have hnext : h.next d.addr = q := by rw [← Heap.link_of_ne (ha.header hdm).ne_zero, hq]
  have w1 := (Wrote.refl (pre ++ [c, d] ++ post) h).relink hl (hcut.link_lt htop)
  have w2 := w1.setSize (v := c.size + HDR_SIZE + d.size + 1) (ha.header hcm)
    (by unfold Chunk.stop HEAP_ARENA_END at *; omega)
  have habsorb : h.absorb c.addr c.size want (lastOr (freeAddrs pre)) d.addr =
      (h.relink (lastOr (freeAddrs pre)) q).setSize c.addr (c.size + HDR_SIZE + d.size + 1) := by
    have hcond : ¬HDR_SIZE + ALIGN ≤ c.size + HDR_SIZE + d.size - want := by
      unfold HDR_SIZE ALIGN at *
      omega
    unfold Heap.absorb
    simp only [ha.size_free hdm hd, if_neg hcond, withUsed_eq hsum, hnext]
  rw [habsorb]
  refine ⟨hcut.rewrite ha w2 ?_ hcut.behind ha.top ?_ ?_ ?_ ?_ ?_, w2.spares⟩
  · simp only [Layout, Chunk.stop, true_and]
    unfold Chunk.stop HDR_SIZE at *
    omega
  · intro e he
    rw [update_of_ne]
    unfold Chunk.stop HDR_SIZE at *
    omega
  · simp only [mem_singleton, forall_eq, update_self, Chunk.field]
    rfl
  · exact fun e _ hne => update_of_ne hne _ _
  · exact update_self _ _ _
  · exact parted_used ha.parted rfl

theorem held_swap {mid mid' : List Chunk} {x y : Chunk} (ha : Arena h (pre ++ mid ++ post))
    (hmid : ∀ z, z ∈ held mid ↔ z = c) (hmid' : ∀ z, z ∈ held mid' ↔ z = x) :
    y ∈ held (pre ++ mid' ++ post) ↔ y = x ∨ y ∈ held (pre ++ mid ++ post) ∧ y ≠ c := by
  obtain ⟨a, b, r, q, hcut⟩ := ha.cut
  have hc : c ∈ mid := (mem_held.mp ((hmid c).mpr rfl)).1
  obtain ⟨hlow, hhigh, -, -⟩ := hcut.between.mem hc
  have hne : y ∈ held (pre ++ post) → y ≠ c := by
    rw [mem_held, mem_append]
    rintro ⟨hy | hy, -⟩ rfl
    · have := (hcut.before.mem hy).2.1
      unfold Chunk.stop HDR_SIZE at this
      omega
    · have := (hcut.behind.mem hy).1
      unfold Chunk.stop HDR_SIZE at hhigh
      omega
  rw [mem_held_around, mem_held_around, hmid, hmid']
  refine or_congr_right ⟨fun hy => ⟨.inr hy, hne hy⟩, fun hy => hy.1.resolve_left hy.2⟩

theorem grow_spec (ha : Arena h cs) (hc : c ∈ cs) (hu : c.used = true) (hs : 16 ∣ want)
    (hlt : c.size < want) :
    h.grow c.addr c.size want = some none ∨
      ∃ h' cs' s, h.grow c.addr c.size want = some (some h') ∧ Arena h' cs' ∧
        Spares cs h h' ∧ want ≤ s ∧
        ∀ d, d ∈ held cs' ↔ d = ⟨c.addr, s, true⟩ ∨ d ∈ held cs ∧ d ≠ c := by
  obtain ⟨pre, post, rfl⟩ := append_of_mem hc
  rw [append_cons] at *
  obtain ⟨-, hstop, hcs, hcpos⟩ := ha.bounds hc
  have hfield : h.size c.addr = c.size + 1 := by
    rw [ha.sizes c hc, Chunk.field, hu]
    rfl
  have hself : ∀ z, z ∈ held [c] ↔ z = c := by simp [held, hu]
  have hnew : ∀ s z, z ∈ held [⟨c.addr, s, true⟩] ↔ z = ⟨c.addr, s, true⟩ := by simp [held]
  unfold Heap.grow
  rw [hfield, if_neg (by rw [isDirect_field hcs]; decide)]
  split
  · next htop =>
    -- the last chunk
    obtain rfl : post = [] := by
      obtain ⟨a, b, r, q, hcut⟩ := ha.cut
      obtain ⟨rfl, -, -, rfl⟩ := hcut.between
      cases post with
      | nil => rfl
      | cons d post =>
        have := hcut.behind_bounds (mem_cons_self : d ∈ d :: post)
        unfold Chunk.stop at this
        omega
    obtain ⟨ha', hsp⟩ := grow_top ha hu hs hlt htop.2
    exact .inr ⟨_, _, want, rfl, ha', hsp, le_rfl, fun d => held_swap ha hself (hnew want)⟩
  · simp only [ha.findPlace hu h (by omega : c.addr ≤ c.addr + HDR_SIZE + c.size) le_rfl
      (fun _ _ => rfl) rfl]
    split
    · next hmeet =>
      obtain ⟨hne, hcur, hfit⟩ := hmeet
      obtain ⟨d, post, rfl, hd⟩ : ∃ d post', post = d :: post' ∧ d.used = false := by
        obtain ⟨a, b, r, q, hcut⟩ := ha.cut
        obtain ⟨rfl, -, -, rfl⟩ := hcut.between
        rw [hcut.linksBehind.head] at hne hcur
        by_contra hno
        have hguard : ∀ y ∈ post.head?, y.used = true := by
          intro y hy
          cases post with
          | nil => cases hy
          | cons d post =>
            cases hy
            by_contra hyu
            exact hno ⟨y, post, rfl, by simpa using hyu⟩
        have := hcut.not_meets hguard
        unfold Chunk.stop at this
        omega
      have ha' : Arena h (pre ++ [c, d] ++ post) := by simpa using ha
      have hcs' : pre ++ [c] ++ d :: post = pre ++ [c, d] ++ post := by simp
      rw [freeAddrs_cons_free hd] at hcur hfit ⊢
      simp only [head?_cons, Option.getD_some] at hcur hfit ⊢
      rw [ha'.size_free (by simp) hd] at hfit
      have hpair : ∀ z, z ∈ held [c, d] ↔ z = c := by simp [held, hu, hd]
      by_cases hsplit : want + HDR_SIZE + ALIGN ≤ c.size + HDR_SIZE + d.size
      · obtain ⟨ha'', hsp⟩ := absorb_split ha' hu hd hs hlt hsplit
        refine .inr ⟨_, _, want, rfl, ha'', hcs' ▸ hsp, le_rfl, fun y => ?_⟩
        rw [hcs']
        exact held_swap ha' hpair (by simp [held])
      · obtain ⟨ha'', hsp⟩ := absorb_whole ha' hu hd hsplit
        refine .inr ⟨_, _, c.size + HDR_SIZE + d.size, rfl, ha'', hcs' ▸ hsp, hfit, fun y => ?_⟩
        rw [hcs']
        exact held_swap ha' hpair (hnew _)
    · exact .inl rfl

end Sbunix.Malloc
