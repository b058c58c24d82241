import Sbunix.Lib.Machine
import Sbunix.Fs.PageCache

/-!
# The page cache under interleaving (`kernel/page_cache.c`)

The cache lock is given up in four places: while a waiter yields, while a dirty
victim is written back, while a page is read, and while `pcache_flush_inode`
writes a page. A caller in one of those places is a state of its own, and a step
runs one caller from such a place to the next. What the filesystem answers is
part of the step's label.
-/

namespace Sbunix.Pcache

open Lib Fs

/-- `struct pcache_page` without its page and list links. -/
structure Slot (Node : Type) where
  ip : Option Node
  pgidx : ℕ
  refcnt : ℤ
  dirty : Bool
  valid : Bool

/-- What a call returned. -/
inductive Ret
  | page (k : ℕ)
  | enomem
  | failed
  | flushed (busy : Bool)

/-- Where a caller is while it does not hold the lock. -/
inductive Caller (Node : Type)
  | idle (last : Option Ret)
  /-- `pcache_get` yields until slot `k` is filled. -/
  | waiting (ip : Node) (pgidx k : ℕ)
  /-- `pcache_evict`, called for `(ip, pgidx)`, writes slot `k` back. -/
  | evicting (ip : Node) (pgidx k : ℕ)
  /-- `pcache_get` reads the page into slot `k`. -/
  | filling (ip : Node) (pgidx k : ℕ)
  /-- `pcache_flush_inode` writes slot `k` back. -/
  | flushing (ip : Node) (k : ℕ) (busy : Bool)

structure State (Node : Type) where
  slots : ℕ → Slot Node
  lru : List ℕ
  callers : ℕ → Caller Node

variable {Node : Type} [DecidableEq Node]

namespace State

def setSlot (s : State Node) (k : ℕ) (p : Slot Node) : State Node :=
  { s with slots := Function.update s.slots k p }

def setCaller (s : State Node) (t : ℕ) (c : Caller Node) : State Node :=
  { s with callers := Function.update s.callers t c }

def toHead (s : State Node) (k : ℕ) : State Node := { s with lru := k :: s.lru.erase k }

def toTail (s : State Node) (k : ℕ) : State Node := { s with lru := s.lru.erase k ++ [k] }

/-- Add `d` to the pin count of slot `k`. -/
def pin (s : State Node) (k : ℕ) (d : ℤ) : State Node :=
  s.setSlot k { s.slots k with refcnt := (s.slots k).refcnt + d }

end State

def pcacheInit : State Node where
  slots _ := { ip := none, pgidx := 0, refcnt := 0, dirty := false, valid := false }
  lru := List.range PCACHE_NSLOTS
  callers _ := .idle none

def pcacheLookup (s : State Node) (ip : Node) (pgidx : ℕ) : Option ℕ :=
  s.lru.find? fun k => (s.slots k).ip == some ip && (s.slots k).pgidx == pgidx

/-- What the second pass of `pcache_evict` comes to at the next page it stops at. -/
inductive Scan
  | exhausted
  | victim (k : ℕ)
  | writeback (k : ℕ)

/-- The second pass over the slots `ks`; `wb` tells the inodes that can write pages. -/
def scanDirty (wb : Node → Bool) (s : State Node) : List ℕ → Scan
  | [] => .exhausted
  | k :: ks =>
    if (s.slots k).refcnt ≠ 0 then scanDirty wb s ks
    else if (s.slots k).dirty = false then scanDirty wb s ks
    else
      match (s.slots k).ip with
      | none => .victim k
      | some x => if wb x then .writeback k else .victim k

/-- The miss path of `pcache_get` takes slot `k` and goes on to read the page. -/
def assign (s : State Node) (t : ℕ) (ip : Node) (pgidx k : ℕ) : State Node :=
  ((s.setSlot k
    { ip := some ip, pgidx := pgidx, refcnt := 1, dirty := false, valid := false }).toHead
    k).setCaller
    t (.filling ip pgidx k)

/-- `pcache_evict` from its second pass on, and what `pcache_get` makes of the result. -/
def evictFrom (wb : Node → Bool) (t : ℕ) (ip : Node) (pgidx : ℕ) (ks : List ℕ)
    (s : State Node) : State Node :=
  match scanDirty wb s ks with
  | .exhausted => s.setCaller t (.idle (some .enomem))
  | .victim k => assign s t ip pgidx k
  | .writeback k => (s.pin k 1).setCaller t (.evicting ip pgidx k)

/-- `pcache_get` from `retry` to the next place without the lock. -/
def getSegment (wb : Node → Bool) (t : ℕ) (ip : Node) (pgidx : ℕ) (s : State Node) : State Node :=
  match pcacheLookup s ip pgidx with
  | some k =>
    if (s.slots k).valid then ((s.pin k 1).toHead k).setCaller t (.idle (some (.page k)))
    else (s.pin k 1).setCaller t (.waiting ip pgidx k)
  | none =>
    match s.lru.reverse.find? fun k => (s.slots k).refcnt == 0 && !(s.slots k).dirty with
    | some k => assign s t ip pgidx k
    | none => evictFrom wb t ip pgidx s.lru.reverse s

/-- The slots the second pass still has to look at behind `k`, in the list as it is now. -/
def behind (s : State Node) (k : ℕ) : List ℕ := (s.lru.reverse.dropWhile (· ≠ k)).tail

/-- The victim `k` has been written back: its pin goes, and the dirty mark if that went well. -/
def writtenBack (s : State Node) (k : ℕ) (ok : Bool) : State Node :=
  s.setSlot k { s.slots k with
    refcnt := (s.slots k).refcnt - 1, dirty := if ok then false else (s.slots k).dirty }

/-- `pcache_evict` once the victim `k` has been written back. -/
def evictResume (wb : Node → Bool) (t : ℕ) (ip : Node) (pgidx k : ℕ) (ok : Bool)
    (s : State Node) : State Node :=
  let s := writtenBack s k ok
  if (s.slots k).refcnt = 0 ∧ (s.slots k).dirty = false then assign s t ip pgidx k
  else evictFrom wb t ip pgidx (behind s k) s

/-- `pcache_get` once `readpage` has returned. -/
def fillResume (t k : ℕ) (ok : Bool) (s : State Node) : State Node :=
  let p := s.slots k
  if ok then
    (s.setSlot k { p with valid := true }).setCaller t (.idle (some (.page k)))
  else
    let s := s.setSlot k { p with ip := none, pgidx := 0, refcnt := p.refcnt - 1, valid := false }
    (if (s.slots k).refcnt = 0 then s.toTail k else s).setCaller t (.idle (some .failed))

def pcachePut (k : ℕ) (s : State Node) : State Node :=
  let s := if 0 < (s.slots k).refcnt then s.pin k (-1) else s
  if (s.slots k).refcnt = 0 then s.toHead k else s

/-- What `pcache_flush_inode` leaves of a slot. -/
def Slot.drop (p : Slot Node) : Slot Node := { p with ip := none, pgidx := 0, valid := false }

/-- The loop of `pcache_flush_inode` over the `n` slots from `i` on. -/
def flushFrom (wb : Node → Bool) (t : ℕ) (ip : Node) : ℕ → ℕ → Bool → State Node → State Node
  | 0, _, busy, s => s.setCaller t (.idle (some (.flushed busy)))
  | n + 1, i, busy, s =>
    if (s.slots i).ip ≠ some ip then flushFrom wb t ip n (i + 1) busy s
    else if 0 < (s.slots i).refcnt then flushFrom wb t ip n (i + 1) true s
    else if (s.slots i).dirty && wb ip then (s.pin i 1).setCaller t (.flushing ip i busy)
    else flushFrom wb t ip n (i + 1) busy (s.setSlot i (s.slots i).drop)

/-- `pcache_flush_inode` once slot `k` has been written back: the pins are not looked at again. -/
def flushResume (wb : Node → Bool) (t : ℕ) (ip : Node) (k : ℕ) (busy : Bool)
    (s : State Node) : State Node :=
  let p := s.slots k
  flushFrom wb t ip (PCACHE_NSLOTS - (k + 1)) (k + 1) busy
    (s.setSlot k { p.drop with refcnt := p.refcnt - 1, dirty := false })

def pcacheInvalidateRange (ip : Node) (off len : ℕ) (s : State Node) : State Node :=
  if len = 0 then s
  else { s with slots := fun k =>
    let p := s.slots k
    if k < PCACHE_NSLOTS ∧ p.ip = some ip ∧ inRange (invalidRange off len) p.pgidx = true ∧
        p.refcnt ≤ 0 then
      { p.drop with dirty := false }
    else p }

/-! ## Steps -/

/-- A caller enters a function or goes on behind a place without the lock. Callers also
set the flags of a page themselves. -/
inductive Label (Node : Type)
  | get (t : ℕ) (ip : Node) (pgidx : ℕ)
  | recheck (t : ℕ)
  | writtenBack (t : ℕ) (ok : Bool)
  | filled (t : ℕ) (ok : Bool)
  | put (k : ℕ)
  | flush (t : ℕ) (ip : Node)
  | flushWritten (t : ℕ)
  | invalidate (ip : Node) (off len : ℕ)
  | setDirty (k : ℕ) (dirty : Bool)
  | setInvalid (k : ℕ)

def step (wb : Node → Bool) (s : State Node) : Label Node → Option (State Node)
  | .get t ip pgidx =>
    match s.callers t with
    | .idle _ => some (getSegment wb t ip pgidx s)
    | _ => none
  | .recheck t =>
    match s.callers t with
    | .waiting ip pgidx k => some (getSegment wb t ip pgidx (s.pin k (-1)))
    | _ => none
  | .writtenBack t ok =>
    match s.callers t with
    | .evicting ip pgidx k => some (evictResume wb t ip pgidx k ok s)
    | _ => none
  | .filled t ok =>
    match s.callers t with
    | .filling _ _ k => some (fillResume t k ok s)
    | _ => none
  | .put k => if k < PCACHE_NSLOTS then some (pcachePut k s) else none
  | .flush t ip =>
    match s.callers t with
    | .idle _ => some (flushFrom wb t ip PCACHE_NSLOTS 0 false s)
    | _ => none
  | .flushWritten t =>
    match s.callers t with
    | .flushing ip k busy => some (flushResume wb t ip k busy s)
    | _ => none
  | .invalidate ip off len => some (pcacheInvalidateRange ip off len s)
  | .setDirty k dirty =>
    if k < PCACHE_NSLOTS then some (s.setSlot k { s.slots k with dirty := dirty }) else none
  | .setInvalid k =>
    if k < PCACHE_NSLOTS then some (s.setSlot k { s.slots k with valid := false }) else none

def Step (wb : Node → Bool) (s : State Node) (a : Label Node) (s' : State Node) : Prop :=
  step wb s a = some s'

def runLabels (wb : Node → Bool) : List (Label Node) → State Node → Option (State Node)
  | [], s => some s
  | a :: as, s => (step wb s a).bind (runLabels wb as)

end Sbunix.Pcache
