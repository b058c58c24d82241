import Sbunix.Malloc.Model
import Mathlib.Data.List.Chain

/-!
# The chunks of the arena

The arena is cut into chunks without gaps. `Arena h cs` says that the heap `h`
is that list of chunks: their headers are in memory, the free list links the
free ones in the order of their addresses, and no two of them are neighbours.
Every operation on the arena replaces a piece of the list; the bytes it stores
to are headers, never part of a payload in use.
-/

namespace Sbunix.Malloc

open Lib List Function

structure Chunk where
  addr : ℕ
  size : ℕ
  used : Bool
  deriving DecidableEq

namespace Chunk

def stop (c : Chunk) : ℕ := c.addr + HDR_SIZE + c.size

def field (c : Chunk) : ℕ := c.size + if c.used then 1 else 0

end Chunk

/-- The chunks fill `[a, top)`. -/
def Layout : ℕ → List Chunk → ℕ → Prop
  | a, [], top => a = top
  | a, c :: cs, top => c.addr = a ∧ 16 ∣ c.size ∧ 0 < c.size ∧ Layout c.stop cs top

def freeAddrs (cs : List Chunk) : List ℕ := (cs.filter (!·.used)).map Chunk.addr

variable {a b top : ℕ} {cs pre post : List Chunk} {c d : Chunk}

theorem Layout.append : Layout a (pre ++ post) top ↔ ∃ b, Layout a pre b ∧ Layout b post top := by
  induction pre generalizing a with
  | nil => simp [Layout]
  | cons c pre ih => simp [Layout, ih, and_assoc]

section

variable (h : Layout a cs top)
include h

theorem Layout.le : a ≤ top := by
  induction cs generalizing a with
  | nil => exact h.le
  | cons c cs ih =>
    obtain ⟨rfl, -, -, h⟩ := h
    have := ih h
    unfold Chunk.stop at this
    omega

theorem Layout.mem (hc : c ∈ cs) :
    a ≤ c.addr ∧ c.stop ≤ top ∧ 16 ∣ c.size ∧ 0 < c.size := by
  induction cs generalizing a with
  | nil => cases hc
  | cons d cs ih =>
    obtain ⟨rfl, h1, h2, h⟩ := h
    rcases mem_cons.mp hc with rfl | hc
    · exact ⟨le_rfl, h.le, h1, h2⟩
    · obtain ⟨h3, h4⟩ := ih h hc
      refine ⟨?_, h4⟩
      unfold Chunk.stop at h3
      omega

theorem Layout.aligned (ha : 16 ∣ a) (hc : c ∈ cs) : 16 ∣ c.addr := by
  induction cs generalizing a with
  | nil => cases hc
  | cons d cs ih =>
    obtain ⟨rfl, h1, h2, h⟩ := h
    rcases mem_cons.mp hc with rfl | hc
    · exact ha
    · refine ih h ?_ hc
      unfold Chunk.stop HDR_SIZE
      omega

theorem Layout.aligned_top (ha : 16 ∣ a) : 16 ∣ top := by
  induction cs generalizing a with
  | nil => exact h ▸ ha
  | cons d cs ih =>
    obtain ⟨rfl, h1, h2, h⟩ := h
    refine ih h ?_
    unfold Chunk.stop HDR_SIZE
    omega

end

theorem Layout.around (h : Layout a (pre ++ c :: post) top) :
    (∀ d ∈ pre, d.stop ≤ c.addr) ∧ ∀ d ∈ post, c.stop ≤ d.addr := by
  obtain ⟨b, hpre, rfl, -, -, hpost⟩ := Layout.append.mp h
  exact ⟨fun d hd => (hpre.mem hd).2.1, fun d hd => (hpost.mem hd).1⟩

theorem Layout.apart (h : Layout a cs top) (hc : c ∈ cs) (hd : d ∈ cs) :
    c = d ∨ c.stop ≤ d.addr ∨ d.stop ≤ c.addr := by
  obtain ⟨pre, post, rfl⟩ := append_of_mem hc
  obtain ⟨h1, h2⟩ := h.around
  rcases mem_append.mp hd with hd | hd
  · exact .inr (.inr (h1 d hd))
  · rcases mem_cons.mp hd with rfl | hd
    · exact .inl rfl
    · exact .inr (.inl (h2 d hd))

theorem Layout.length_le (h : Layout a cs top) : 16 * cs.length ≤ top - a := by
  induction cs generalizing a with
  | nil => simp
  | cons c cs ih =>
    obtain ⟨rfl, -, -, h⟩ := h
    have h1 := ih h
    have h2 := h.le
    unfold Chunk.stop HDR_SIZE at *
    rw [length_cons]
    omega

theorem mem_freeAddrs : a ∈ freeAddrs cs ↔ ∃ c ∈ cs, c.used = false ∧ c.addr = a := by
  simp [freeAddrs, and_assoc]

theorem freeAddrs_append : freeAddrs (pre ++ post) = freeAddrs pre ++ freeAddrs post := by
  simp [freeAddrs]

theorem freeAddrs_cons_used (h : c.used = true) : freeAddrs (c :: cs) = freeAddrs cs := by
  simp [freeAddrs, h]

theorem freeAddrs_cons_free (h : c.used = false) :
    freeAddrs (c :: cs) = c.addr :: freeAddrs cs := by
  simp [freeAddrs, h]

theorem Layout.sorted (h : Layout a cs top) : (freeAddrs cs).Pairwise (· < ·) := by
  induction cs generalizing a with
  | nil => exact List.Pairwise.nil
  | cons c cs ih =>
    obtain ⟨rfl, -, -, h⟩ := h
    by_cases hc : c.used = true
    · rw [freeAddrs_cons_used hc]
      exact ih h
    · rw [freeAddrs_cons_free (by simpa using hc)]
      refine List.Pairwise.cons (fun b hb => ?_) (ih h)
      obtain ⟨d, hd, -, rfl⟩ := mem_freeAddrs.mp hb
      have := (h.mem hd).1
      unfold Chunk.stop HDR_SIZE at this
      omega

/-! ### Headers in memory -/

namespace Heap

/-- The link of a node; the node 0 stands for the head of the list. -/
def link (h : Heap) (a : ℕ) : ℕ := if a = 0 then h.freeList else h.next a

variable {h : Heap} {v : ℕ}

theorem link_of_ne (ha : a ≠ 0) : h.link a = h.next a := if_neg ha

theorem size_setSize (hv : v < 2 ^ 64) : (h.setSize a v).size a = v := Mem.load_store_self hv

theorem size_setSize_ne (ha : 16 ∣ a) (hb : 16 ∣ b) (hne : b ≠ a) :
    (h.setSize a v).size b = h.size b :=
  Mem.load_store_apart (by omega)

theorem next_setSize (ha : 16 ∣ a) (hb : 16 ∣ b) : (h.setSize a v).next b = h.next b :=
  Mem.load_store_apart (by omega)

theorem next_setNext (hv : v < 2 ^ 64) : (h.setNext a v).next a = v := Mem.load_store_self hv

theorem next_setNext_ne (ha : 16 ∣ a) (hb : 16 ∣ b) (hne : b ≠ a) :
    (h.setNext a v).next b = h.next b :=
  Mem.load_store_apart (by omega)

theorem size_setNext (ha : 16 ∣ a) (hb : 16 ∣ b) : (h.setNext a v).size b = h.size b :=
  Mem.load_store_apart (by omega)

theorem size_lt (h : Heap) (a : ℕ) : h.size a < 2 ^ 64 := Mem.load_lt _ _

theorem next_lt (h : Heap) (a : ℕ) : h.next a < 2 ^ 64 := Mem.load_lt _ _

end Heap

/-- The list from `p` links the nodes `l`, and ends with `q`. -/
abbrev Links (h : Heap) (p : ℕ) (l : List ℕ) (q : ℕ) : Prop := Seg h.mem 8 p l q

variable {l : List ℕ} {s : ℕ}

theorem Links.congr {h h' : Heap} {p q : ℕ} (hl : Links h p l q)
    (hnext : ∀ a ∈ l, h'.next a = h.next a) : Links h' p l q :=
  Seg.congr hnext hl

def lastOr (l : List ℕ) : ℕ := l.getLast?.getD 0

theorem Links.redirect {h h' : Heap} {q x : ℕ} (hl : Links h h.freeList l q)
    (hnode : ∀ a ∈ l, a ≠ 0) (hnodup : l.Nodup) (hlast : h'.link (lastOr l) = x)
    (hkeep : ∀ a, a = 0 ∨ a ∈ l → a ≠ lastOr l → h'.link a = h.link a) :
    Links h' h'.freeList l x := by
  rcases eq_nil_or_concat l with rfl | ⟨l₀, a, rfl⟩
  · exact hlast
  · rw [concat_eq_append] at *
    rw [show lastOr (l₀ ++ [a]) = a by simp [lastOr]] at *
    have hne : a ≠ 0 := hnode a (by simp)
    rw [show h'.freeList = h.freeList from hkeep 0 (.inl rfl) hne.symm]
    refine Seg.redirect hl (by rwa [Heap.link_of_ne hne] at hlast) fun b hb => ?_
    have hb0 : b ≠ 0 := hnode b (by simp [hb])
    have hba : b ≠ a := by
      rintro rfl
      exact (nodup_append.mp hnodup).2.2 b hb b (by simp) rfl
    have hb' := hkeep b (.inr (by simp [hb])) hba
    rwa [Heap.link_of_ne hb0, Heap.link_of_ne hb0] at hb'

/-! ### The loops -/

variable {h : Heap} {p prev size : ℕ}

/-- The search of `arena_alloc` ends, and finds nothing or a node that is large enough. -/
theorem findBest_spec {rounds : ℕ} (hl : Links h p l 0) (hnode : ∀ a ∈ l, a ≠ 0)
    (hrounds : l.length ≤ rounds) (size prev best bestPrev : ℕ) :
    ∃ b bp, Heap.findBest h.mem size rounds p prev best bestPrev = some (b, bp) ∧
      ((b = best ∧ bp = bestPrev) ∨
        ∃ l₁ l₂, l = l₁ ++ b :: l₂ ∧ size ≤ h.size b ∧ bp = l₁.getLast?.getD prev) := by
  induction l generalizing p prev best bestPrev rounds with
  | nil =>
    obtain rfl : p = 0 := hl
    refine ⟨best, bestPrev, ?_, .inl ⟨rfl, rfl⟩⟩
    cases rounds <;> rfl
  | cons a l ih =>
    obtain ⟨rfl, hl⟩ := hl
    have hp : p ≠ 0 := hnode p mem_cons_self
    have hrest : ∀ a ∈ l, a ≠ 0 := fun a ha => hnode a (mem_cons_of_mem _ ha)
    -- a node of the rest is behind `p` and what is before it there
    have hlast : ∀ l₁ : List ℕ, l₁.getLast?.getD p = (p :: l₁).getLast?.getD prev := by
      intro l₁
      rw [getLast?_cons]
      rfl
    obtain ⟨rounds, rfl⟩ : ∃ r, rounds = r + 1 := ⟨rounds - 1, by simp at hrounds; omega⟩
    rw [Heap.findBest, if_neg hp]
    have hr : l.length ≤ rounds := by simpa using hrounds
    split
    · next hfit =>
      obtain ⟨b, bp, hrun, hb⟩ := ih hl hrest hr p p prev
      refine ⟨b, bp, hrun, .inr ?_⟩
      rcases hb with ⟨rfl, rfl⟩ | ⟨l₁, l₂, rfl, hsize, rfl⟩
      · exact ⟨[], l, rfl, hfit.1, rfl⟩
      · exact ⟨p :: l₁, l₂, rfl, hsize, hlast l₁⟩
    · obtain ⟨b, bp, hrun, hb⟩ := ih hl hrest hr p best bestPrev
      refine ⟨b, bp, hrun, ?_⟩
      rcases hb with hb | ⟨l₁, l₂, rfl, hsize, rfl⟩
      · exact .inl hb
      · exact .inr ⟨p :: l₁, l₂, rfl, hsize, hlast l₁⟩

/-- The loops of `free` and `realloc` stop between the nodes below the limit and the others. -/
theorem findPlace_spec {limit rounds : ℕ} {l₁ l₂ : List ℕ} (hl : Links h p (l₁ ++ l₂) 0)
    (hnode : ∀ a ∈ l₁ ++ l₂, a ≠ 0) (hbelow : ∀ a ∈ l₁, a < limit) (habove : ∀ a ∈ l₂, limit ≤ a)
    (hrounds : l₁.length ≤ rounds) :
    Heap.findPlace h.mem limit rounds prev p = some (l₁.getLast?.getD prev, l₂.head?.getD 0) := by
  induction l₁ generalizing p prev rounds with
  | nil =>
    have hstop : (p = 0 ∨ limit ≤ p) ∧ p = l₂.head?.getD 0 := by
      cases l₂ with
      | nil => exact ⟨.inl hl, hl⟩
      | cons a l₂ =>
        obtain ⟨rfl, -⟩ := hl
        exact ⟨.inr (habove p mem_cons_self), rfl⟩
    cases rounds <;> rw [Heap.findPlace, if_pos hstop.1]
      <;> exact congrArg (fun x => some (prev, x)) hstop.2
  | cons a l₁ ih =>
    obtain ⟨rfl, hl⟩ := hl
    obtain ⟨rounds, rfl⟩ : ∃ r, rounds = r + 1 := ⟨rounds - 1, by simp at hrounds; omega⟩
    have hlt := hbelow p mem_cons_self
    have hne := hnode p mem_cons_self
    rw [Heap.findPlace, if_neg (by omega), ih hl (fun a ha => hnode a (mem_cons_of_mem _ ha))
        (fun a ha => hbelow a (mem_cons_of_mem _ ha)) (by simpa using hrounds), getLast?_cons]
    rfl

/-! ### The arena -/

def Parted (c d : Chunk) : Prop := c.used = true ∨ d.used = true

structure Arena (h : Heap) (cs : List Chunk) : Prop where
  layout : Layout HEAP_ARENA_BASE cs h.arenaTop
  top : h.arenaTop ≤ HEAP_ARENA_END
  sizes : ∀ c ∈ cs, h.size c.addr = c.field
  links : Links h h.freeList (freeAddrs cs) 0
  parted : cs.IsChain Parted

/-- No byte of a payload in use and none outside the arena differs. -/
structure Spares (cs : List Chunk) (h h' : Heap) : Prop where
  payload : ∀ c ∈ cs, c.used = true → ∀ i, c.addr + HDR_SIZE ≤ i → i < c.stop → h'.mem i = h.mem i
  outside : ∀ i, i < HEAP_ARENA_BASE ∨ HEAP_ARENA_END ≤ i → h'.mem i = h.mem i
  maps : h'.maps = h.maps
  inited : h'.arenaInited = h.arenaInited

/-- A place for a header: inside the arena, and not inside a payload in use. -/
structure Header (cs : List Chunk) (a : ℕ) : Prop where
  aligned : 16 ∣ a
  low : HEAP_ARENA_BASE ≤ a
  high : a + HDR_SIZE ≤ HEAP_ARENA_END
  apart : ∀ c ∈ cs, c.used = true → a ≤ c.addr ∨ c.stop ≤ a

variable {h₁ h₂ : Heap} {v : ℕ}

theorem Spares.refl (cs : List Chunk) (h : Heap) : Spares cs h h :=
  ⟨fun _ _ _ _ _ _ => rfl, fun _ _ => rfl, rfl, rfl⟩

theorem Spares.trans (h1 : Spares cs h h₁) (h2 : Spares cs h₁ h₂) : Spares cs h h₂ where
  payload c hc hu i hi hi' := (h2.payload c hc hu i hi hi').trans (h1.payload c hc hu i hi hi')
  outside i hi := (h2.outside i hi).trans (h1.outside i hi)
  maps := h2.maps.trans h1.maps
  inited := h2.inited.trans h1.inited

theorem Header.spares {off : ℕ} (ha : Header cs a) (hoff : off = 0 ∨ off = 8) :
    Spares cs h { h with mem := h.mem.store (a + off) v } := by
  obtain ⟨-, hlow, hhigh, hapart⟩ := ha
  unfold HDR_SIZE at *
  refine ⟨fun c hc hu i hi hi' => Mem.store_of_out ?_, fun i hi => Mem.store_of_out ?_, rfl, rfl⟩
  · have := hapart c hc hu
    unfold HDR_SIZE at *
    omega
  · omega

theorem Header.ne_zero (ha : Header cs a) : a ≠ 0 := by
  have := ha.low
  unfold HEAP_ARENA_BASE at this
  omega

theorem Header.setSize (ha : Header cs a) : Spares cs h (h.setSize a v) := ha.spares (.inl rfl)

theorem Header.setNext (ha : Header cs a) : Spares cs h (h.setNext a v) := ha.spares (.inr rfl)

/-- `h'` is `h` after stores to headers, with the sizes `f` and the links `g`. -/
structure Wrote (cs : List Chunk) (h h' : Heap) (f g : ℕ → ℕ) : Prop where
  size : ∀ a, 16 ∣ a → h'.size a = f a
  link : ∀ a, 16 ∣ a → h'.link a = g a
  top : h'.arenaTop = h.arenaTop
  spares : Spares cs h h'

namespace Wrote

variable {h' : Heap} {f g : ℕ → ℕ}

theorem refl (cs : List Chunk) (h : Heap) : Wrote cs h h h.size h.link :=
  ⟨fun _ _ => rfl, fun _ _ => rfl, rfl, Spares.refl cs h⟩

theorem setSize (hw : Wrote cs h h' f g) (ha : Header cs a) (hv : v < 2 ^ 64) :
    Wrote cs h (h'.setSize a v) (update f a v) g := by
  refine ⟨fun b hb => ?_, fun b hb => ?_, hw.top, hw.spares.trans ha.setSize⟩
  · by_cases hba : b = a
    · rw [hba, update_self, Heap.size_setSize hv]
    · rw [update_of_ne hba, Heap.size_setSize_ne ha.aligned hb hba, hw.size b hb]
  · rw [← hw.link b hb, Heap.link, Heap.link, Heap.next_setSize ha.aligned hb]
    rfl

theorem setNext (hw : Wrote cs h h' f g) (ha : Header cs a) (hv : v < 2 ^ 64) :
    Wrote cs h (h'.setNext a v) f (update g a v) := by
  refine ⟨fun b hb => ?_, fun b hb => ?_, hw.top, hw.spares.trans ha.setNext⟩
  · rw [Heap.size_setNext ha.aligned hb, hw.size b hb]
  · by_cases hba : b = a
    · rw [hba, Heap.link_of_ne ha.ne_zero, update_self, Heap.next_setNext hv]
    · rw [update_of_ne hba, ← hw.link b hb, Heap.link, Heap.link,
        Heap.next_setNext_ne ha.aligned hb hba]
      rfl

theorem relink (hw : Wrote cs h h' f g) (ha : a = 0 ∨ Header cs a) (hv : v < 2 ^ 64) :
    Wrote cs h (h'.relink a v) f (update g a v) := by
  unfold Heap.relink
  split
  · next hne => exact hw.setNext (ha.resolve_left hne) hv
  · next hne =>
    rw [not_not] at hne
    subst hne
    refine ⟨hw.size, fun b hb => ?_, hw.top, ?_⟩
    · by_cases hb0 : b = 0
      · rw [hb0, update_self]
        rfl
      · rw [update_of_ne hb0, ← hw.link b hb, Heap.link_of_ne hb0, Heap.link_of_ne hb0]
        rfl
    · exact ⟨hw.spares.payload, hw.spares.outside, hw.spares.maps, hw.spares.inited⟩

end Wrote

section

variable (ha : Arena h cs)
include ha

theorem Arena.aligned (hc : c ∈ cs) : 16 ∣ c.addr :=
  ha.layout.aligned (by decide) hc

theorem Arena.bounds (hc : c ∈ cs) :
    HEAP_ARENA_BASE ≤ c.addr ∧ c.stop ≤ h.arenaTop ∧ 16 ∣ c.size ∧ 0 < c.size :=
  ha.layout.mem hc

theorem Arena.header (hc : c ∈ cs) : Header cs c.addr := by
  obtain ⟨hlow, hstop, -, -⟩ := ha.bounds hc
  have htop := ha.top
  refine ⟨ha.aligned hc, hlow, by unfold Chunk.stop at hstop; omega, fun d hd _ => ?_⟩
  rcases ha.layout.apart hc hd with rfl | h1 | h1
  · exact .inl le_rfl
  · unfold Chunk.stop at h1
    omega
  · exact .inr h1

theorem Arena.header_inside (hc : c ∈ cs) (hf : c.used = false)
    (haligned : 16 ∣ a) (hlow : c.addr ≤ a) (hhigh : a + HDR_SIZE ≤ c.stop) : Header cs a := by
  obtain ⟨h1, h2, -, -⟩ := ha.bounds hc
  have htop := ha.top
  refine ⟨haligned, by omega, by omega, fun d hd hu => ?_⟩
  rcases ha.layout.apart hc hd with rfl | h3 | h3
  · rw [hf] at hu
    cases hu
  · omega
  · omega

theorem Arena.node (hmem : a ∈ freeAddrs cs) : Header cs a := by
  obtain ⟨c, hc, -, rfl⟩ := mem_freeAddrs.mp hmem
  exact ha.header hc

theorem Arena.rounds : (freeAddrs cs).length ≤ h.rounds := by
  have h1 := ha.layout.length_le
  have h2 : (freeAddrs cs).length ≤ cs.length := by
    unfold freeAddrs
    rw [length_map]
    exact length_filter_le _ _
  unfold Heap.rounds HDR_SIZE
  omega

end

theorem freeAddrs_split {l₁ l₂ : List ℕ} (h : freeAddrs cs = l₁ ++ a :: l₂) :
    ∃ pre c post, cs = pre ++ c :: post ∧ c.used = false ∧ c.addr = a ∧ freeAddrs pre = l₁ ∧
      freeAddrs post = l₂ := by
  induction cs generalizing l₁ with
  | nil => simp [freeAddrs] at h
  | cons c cs ih =>
    by_cases hc : c.used = true
    · rw [freeAddrs_cons_used hc] at h
      obtain ⟨pre, d, post, rfl, h1, h2, h3, h4⟩ := ih h
      exact ⟨c :: pre, d, post, rfl, h1, h2, by rw [freeAddrs_cons_used hc, h3], h4⟩
    · rw [Bool.not_eq_true] at hc
      rw [freeAddrs_cons_free hc] at h
      cases l₁ with
      | nil =>
        obtain ⟨rfl, rfl⟩ := List.cons.inj h
        exact ⟨[], c, cs, rfl, hc, rfl, rfl, rfl⟩
      | cons b l₁ =>
        obtain ⟨hb, htail⟩ := List.cons.inj h
        obtain ⟨pre, d, post, rfl, h1, h2, h3, h4⟩ := ih htail
        exact ⟨c :: pre, d, post, rfl, h1, h2, by rw [freeAddrs_cons_free hc, h3, hb], h4⟩

theorem withUsed_eq (h : 16 ∣ s) : withUsed s = s + 1 := by
  obtain ⟨k, rfl⟩ := h
  exact (Nat.two_pow_add_eq_or_of_lt (i := 4) (by decide) k).symm

theorem direct_field_eq (h : 16 ∣ s) : s ||| 3 = s + 3 := by
  obtain ⟨k, rfl⟩ := h
  exact (Nat.two_pow_add_eq_or_of_lt (i := 4) (by decide) k).symm

end Sbunix.Malloc
