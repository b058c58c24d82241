import Sbunix.Lib.Machine
import Sbunix.Lib.Words

/-!
# The user heap

`malloc`, `calloc`, `realloc` and `free` of `libc/malloc.c`: one arena that grows
upwards, cut into chunks of a 16-byte header (size and link) and a payload, with
a list of the free chunks in the order of their addresses; and mappings of their
own for large blocks.

Memory is one array of bytes, so a header that is stored in the wrong place
would show. The loops over the free list get a number of rounds that a list
inside the arena cannot exceed; a function is `none` if that is not enough.
-/

namespace Sbunix.Malloc

open Lib

def ALIGN : ℕ := 16
def HDR_SIZE : ℕ := 16
def DIRECT_THRESHOLD : ℕ := 16 * 1024 * 1024
def HEAP_ARENA_BASE : ℕ := 0x100000000
def HEAP_ARENA_END : ℕ := 0x1000000000
def ULONG_MAX : ℕ := 2 ^ 64 - 1

/-- `MMAP_END` of the kernel. -/
def MMAP_END : ℕ := 0x2000000000
def PAGE_SIZE : ℕ := 4096

/-- The static variables, the memory, and the mappings outside the arena as start and length. -/
structure Heap where
  mem : Mem
  arenaInited : Bool
  arenaTop : ℕ
  freeList : ℕ
  maps : List (ℕ × ℕ)

/-- What the kernel answers to `mmap`: whether the arena is granted, and where a
large block goes. -/
structure Env where
  arena : Bool
  direct : Option ℕ

def pageRound (n : ℕ) : ℕ := (n + PAGE_SIZE - 1) / PAGE_SIZE * PAGE_SIZE

/-- `align_up`: 0 if rounding up would wrap. -/
def alignUp (n a : ℕ) : ℕ := if ULONG_MAX - (a - 1) < n then 0 else (n + a - 1) / a * a

/-- `size & ~(USED_BIT | DIRECT_BIT)` -/
def plain (size : ℕ) : ℕ := size - size % 4

/-- `size | USED_BIT` -/
def withUsed (size : ℕ) : ℕ := size ||| 1

/-- `size & DIRECT_BIT` -/
def isDirect (size : ℕ) : Bool := size.testBit 1

namespace Heap

def size (h : Heap) (c : ℕ) : ℕ := h.mem.load c

def next (h : Heap) (c : ℕ) : ℕ := h.mem.load (c + 8)

def setSize (h : Heap) (c v : ℕ) : Heap := { h with mem := h.mem.store c v }

def setNext (h : Heap) (c v : ℕ) : Heap := { h with mem := h.mem.store (c + 8) v }

def rounds (h : Heap) : ℕ := h.arenaTop / HDR_SIZE

/-- `arena_init`; `none` if there is no arena. -/
def arenaInit (h : Heap) (granted : Bool) : Option Heap :=
  if h.arenaInited then some h
  else if granted then some { h with
    mem := h.mem.fill HEAP_ARENA_BASE (HEAP_ARENA_END - HEAP_ARENA_BASE) fun _ => 0
    arenaInited := true
    arenaTop := HEAP_ARENA_BASE }
  else none

/-- The search of `arena_alloc`: the smallest chunk that is large enough, the
first of these, and the chunk before it; 0 if there is none. -/
def findBest (m : Mem) (size : ℕ) : ℕ → ℕ → ℕ → ℕ → ℕ → Option (ℕ × ℕ)
  | 0, c, _, best, bestPrev => if c = 0 then some (best, bestPrev) else none
  | rounds + 1, c, prev, best, bestPrev =>
    if c = 0 then some (best, bestPrev)
    else if size ≤ m.load c ∧ (best = 0 ∨ m.load c < m.load best) then
      findBest m size rounds (m.load (c + 8)) c c prev
    else findBest m size rounds (m.load (c + 8)) c best bestPrev

/-- The loops of `free` and `realloc`: the first free chunk that is not below
`limit`, and the chunk before it. -/
def findPlace (m : Mem) (limit : ℕ) : ℕ → ℕ → ℕ → Option (ℕ × ℕ)
  | 0, prev, cur => if cur = 0 ∨ limit ≤ cur then some (prev, cur) else none
  | rounds + 1, prev, cur =>
    if cur = 0 ∨ limit ≤ cur then some (prev, cur)
    else findPlace m limit rounds cur (m.load (cur + 8))

/-- `if (prev) prev->next = x; else free_list = x;` -/
def relink (h : Heap) (prev x : ℕ) : Heap :=
  if prev ≠ 0 then h.setNext prev x else { h with freeList := x }

/-- `arena_alloc` for the free chunk `best`: split it if the rest can hold a chunk. -/
def takeBest (h : Heap) (size best bestPrev : ℕ) : Heap :=
  let h :=
    if size + HDR_SIZE + ALIGN ≤ h.size best then
      let rest := best + HDR_SIZE + size
      let h := h.setSize rest (h.size best - size - HDR_SIZE)
      let h := h.setNext rest (h.next best)
      let h := h.setSize best size
      h.relink bestPrev rest
    else h.relink bestPrev (h.next best)
  let h := h.setSize best (withUsed (h.size best))
  h.setNext best 0

/-- `arena_alloc`: the payload, or 0. -/
def arenaAlloc (h : Heap) (size : ℕ) : Option (ℕ × Heap) :=
  match findBest h.mem size h.rounds h.freeList 0 0 0 with
  | none => none
  | some (best, bestPrev) =>
    if best ≠ 0 then some (best + HDR_SIZE, h.takeBest size best bestPrev)
    else if HEAP_ARENA_END - h.arenaTop < HDR_SIZE + size then some (0, h)
    else
      let c := h.arenaTop
      let h := { h with arenaTop := c + (HDR_SIZE + size) }
      some (c + HDR_SIZE, (h.setSize c (withUsed size)).setNext c 0)

/-- An anonymous mapping at `p`. -/
def map (h : Heap) (p len : ℕ) : Heap :=
  { h with mem := h.mem.fill p (pageRound len) fun _ => 0, maps := (p, pageRound len) :: h.maps }

def directAlloc (h : Heap) (size : ℕ) (answer : Option ℕ) : ℕ × Heap :=
  match answer with
  | none => (0, h)
  | some p => (p + HDR_SIZE, ((h.map p (HDR_SIZE + size)).setSize p (size ||| 3)).setNext p 0)

def malloc (h : Heap) (n : ℕ) (env : Env) : Option (ℕ × Heap) :=
  if n = 0 then some (0, h)
  else
    let size := alignUp n ALIGN
    if size = 0 then some (0, h)
    else if ULONG_MAX - HDR_SIZE < size then some (0, h)
    else if DIRECT_THRESHOLD ≤ size + HDR_SIZE then some (h.directAlloc size env.direct)
    else
      match h.arenaInit env.arena with
      | none => some (0, h)
      | some h => h.arenaAlloc size

/-- `free`: the chunk `c` in front of the free chunk `cur`, merged with it if they meet. -/
def mergeNext (h : Heap) (c cur : ℕ) : Heap :=
  if cur ≠ 0 ∧ c + HDR_SIZE + h.size c = cur then
    let h := h.setSize c (h.size c + (HDR_SIZE + h.size cur))
    h.setNext c (h.next cur)
  else h.setNext c cur

/-- `free`: the chunk `c` behind the free chunk `prev`, merged with it if they meet. -/
def mergePrev (h : Heap) (c prev : ℕ) : Heap :=
  if prev ≠ 0 ∧ prev + HDR_SIZE + h.size prev = c then
    let h := h.setSize prev (h.size prev + (HDR_SIZE + h.size c))
    h.setNext prev (h.next c)
  else h.relink prev c

def free (h : Heap) (ptr : ℕ) : Option Heap :=
  if ptr = 0 then some h
  else
    let c := ptr - HDR_SIZE
    if isDirect (h.size c) then
      some { h with maps := h.maps.erase (c, pageRound (HDR_SIZE + plain (h.size c))) }
    else
      let h := h.setSize c (h.size c - h.size c % 2)
      match findPlace h.mem c h.rounds 0 h.freeList with
      | none => none
      | some (prev, cur) => some ((h.mergeNext c cur).mergePrev c prev)

def calloc (h : Heap) (nmemb size : ℕ) (env : Env) : Option (ℕ × Heap) :=
  let total := nmemb * size % 2 ^ 64
  if nmemb ≠ 0 ∧ total / nmemb ≠ size then some (0, h)
  else
    match h.malloc total env with
    | none => none
    | some (p, h) => some (p, if p = 0 then h else { h with mem := h.mem.fill p total fun _ => 0 })

/-- `realloc` where the free chunk `cur` behind `c` is absorbed. -/
def absorb (h : Heap) (c oldSize want prev cur : ℕ) : Heap :=
  let combined := oldSize + HDR_SIZE + h.size cur
  let leftover := combined - want
  if HDR_SIZE + ALIGN ≤ leftover then
    let tail := c + HDR_SIZE + want
    let h := h.setSize tail (leftover - HDR_SIZE)
    let h := h.setNext tail (h.next cur)
    let h := h.relink prev tail
    h.setSize c (withUsed want)
  else
    let h := h.relink prev (h.next cur)
    h.setSize c (withUsed combined)

/-- The in-place paths of `realloc`; `some none` if neither applies. -/
def grow (h : Heap) (c oldSize want : ℕ) : Option (Option Heap) :=
  if isDirect (h.size c) then some none
  else if c + HDR_SIZE + oldSize = h.arenaTop ∧ want - oldSize ≤ HEAP_ARENA_END - h.arenaTop then
    some (some { h.setSize c (withUsed want) with arenaTop := h.arenaTop + (want - oldSize) })
  else
    match findPlace h.mem (c + HDR_SIZE + oldSize) h.rounds 0 h.freeList with
    | none => none
    | some (prev, cur) =>
      if cur ≠ 0 ∧ cur = c + HDR_SIZE + oldSize ∧ want ≤ oldSize + HDR_SIZE + h.size cur then
        some (some (h.absorb c oldSize want prev cur))
      else some none

/-- The last path of `realloc`: a new block, and the bytes are copied. -/
def move (h : Heap) (ptr oldSize n : ℕ) (env : Env) : Option (ℕ × Heap) :=
  match h.malloc n env with
  | none => none
  | some (newp, h) =>
    if newp = 0 then some (0, h)
    else
      let h := { h with mem := h.mem.fill newp oldSize fun i => h.mem (ptr + i) }
      (h.free ptr).map fun h => (newp, h)

def realloc (h : Heap) (ptr n : ℕ) (env : Env) : Option (ℕ × Heap) :=
  if ptr = 0 then h.malloc n env
  else if n = 0 then (h.free ptr).map fun h => (0, h)
  else
    let c := ptr - HDR_SIZE
    let oldSize := plain (h.size c)
    let want := alignUp n ALIGN
    if want = 0 then some (0, h)
    else if want ≤ oldSize then some (ptr, h)
    else
      match h.grow c oldSize want with
      | none => none
      | some (some h) => some (ptr, h)
      | some none => h.move ptr oldSize n env

end Heap

end Sbunix.Malloc
