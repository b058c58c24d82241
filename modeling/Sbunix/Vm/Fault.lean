import Sbunix.Vm.Unmap

/-!
# Page faults and user copies

The memory of one process with the frames behind it: `user_page_fault` of
`kernel/vma.c`, what a load or store of the process itself does, and
`copy_user_range_checked` of `kernel/vmem.c`. Only leaf entries of the page table are
modelled (see `Space.pte`); the pages of the tables above them are taken to be there.
What `pcache_get` does on a miss is a parameter, as nothing here depends on it.
-/

namespace Sbunix.Vm

open Lib

structure Mem where
  space : Space
  frame : ℕ → Page
  refs : ℕ → ℕ
  /-- the frames `page_alloc` hands out -/
  free : List ℕ
  slots : ℕ → PSlot
  /-- `ip->size` -/
  size : ℕ → ℕ

/-- `scause` 12, 13 and 15 -/
inductive Cause
  | exec | load | store
  deriving DecidableEq

/-- The miss path of `pcache_get`: the slot it fills, if it can. -/
abbrev Fill := Mem → ℕ → ℕ → Option ℕ × Mem

namespace Mem

def entry (m : Mem) (va : ℕ) : Option Pte := m.space.pte (vpn va)

def setEntry (m : Mem) (va : ℕ) (p : Pte) : Mem :=
  { m with space := { m.space with pte := Function.update m.space.pte (vpn va) (some p) } }

/-- `memcpy` into a frame. -/
def write (m : Mem) (f off len : ℕ) (src : ℕ → UInt8) : Mem :=
  { m with frame := Function.update m.frame f ((m.frame f).copy off len src) }

def pageAlloc (m : Mem) : Option (ℕ × Mem) :=
  match m.free with
  | [] => none
  | f :: rest =>
    some (f, { m with
      free := rest
      frame := Function.update m.frame f Bytes.zero
      refs := Function.update m.refs f 1 })

/-- `page_put`; `none` is the panic for a frame without references. -/
def pagePut (m : Mem) (f : ℕ) : Option Mem :=
  if m.refs f = 0 then none
  else some { m with
    refs := Function.update m.refs f (m.refs f - 1)
    free := if m.refs f = 1 then f :: m.free else m.free }

def setSlot (m : Mem) (k : ℕ) (p : PSlot) : Mem := { m with slots := Function.update m.slots k p }

def pcachePaToSlot (m : Mem) (f : ℕ) : Option ℕ :=
  (List.range PCACHE_NSLOTS).find? fun k => (m.slots k).page = f

def pcachePut (m : Mem) (k : ℕ) : Mem :=
  m.setSlot k { m.slots k with refcnt := if 0 < (m.slots k).refcnt then (m.slots k).refcnt - 1 else
    (m.slots k).refcnt }

def pcacheLookup (m : Mem) (ip pgidx : ℕ) : Option ℕ :=
  (List.range PCACHE_NSLOTS).find? fun k => (m.slots k).ip = some ip ∧ (m.slots k).pgidx = pgidx

/-- `pcache_get`. A slot that another process is filling is waited for; that is left to the
miss path as well. -/
def pcacheGet (fill : Fill) (m : Mem) (ip pgidx : ℕ) : Option ℕ × Mem :=
  match m.pcacheLookup ip pgidx with
  | none => fill m ip pgidx
  | some k =>
    if (m.slots k).valid then
      (some k, m.setSlot k { m.slots k with refcnt := (m.slots k).refcnt + 1 })
    else fill m ip pgidx

/-! ## `user_page_fault` -/

/-- A page of its own for `va`, with the contents of `old`. -/
def replacePage (m : Mem) (va old : ℕ) (perm : Perm) (drop : Mem → ℕ → Option Mem) :
    Option (Bool × Mem) :=
  match m.pageAlloc with
  | none => some (false, m)
  | some (f, m) =>
    (drop ({ m with frame := Function.update m.frame f (m.frame old) }.setEntry va (perm.entry f))
    old).map (true, ·)

/-- The reference the page-table entry held: one of the page cache or one of the frame. -/
def dropMapped (m : Mem) (f : ℕ) : Option Mem :=
  match m.pcachePaToSlot f with
  | some k => some (m.pcachePut k)
  | none => m.pagePut f

/-- A write to a page of a file that is present. -/
def fileStore (fill : Fill) (m : Mem) (v : Vma) (ip va : ℕ) (e : Pte) : Option (Bool × Mem) :=
  if v.cow then m.replacePage va e.ppn ⟨v.prot.r, true, v.prot.x, true⟩ dropMapped
  else if v.shared then
    match m.pcacheGet fill ip (v.filePos va / PAGE_SIZE) with
    | (none, m) => some (false, m)
    | (some k, m) =>
      let m := (m.setSlot k { m.slots k with dirty := true }).pcachePut k
      some (true, m.setEntry va (Perm.entry ⟨v.prot.r, true, v.prot.x, true⟩ e.ppn))
  else some (false, m)

/-- A fault in a file mapping. -/
def fileFault (fill : Fill) (m : Mem) (c : Cause) (v : Vma) (va : ℕ) : Option (Bool × Mem) :=
  match v.file with
  | none => none
  | some ip =>
    if m.size ip ≤ v.filePos va then some (false, m)
    else
      match m.entry va with
      | some e => if c ≠ .store then some (false, m) else m.fileStore fill v ip va e
      | none =>
        match m.pcacheGet fill ip (v.filePos va / PAGE_SIZE) with
        | (none, m) => some (false, m)
        | (some k, m) =>
          some (true, m.setEntry va (Perm.entry ⟨v.prot.r, false, v.prot.x, true⟩ (m.slots k).page))

/-- A fault elsewhere: copy on write, or a new page of zeros. -/
def anonFault (m : Mem) (c : Cause) (v : Vma) (va : ℕ) : Option (Bool × Mem) :=
  match m.entry va with
  | some e =>
    if c = .store ∧ e.w = false ∧ v.cow then
      if m.refs e.ppn = 1 then some (true, m.setEntry va { e with w := true, d := true })
      else m.replacePage va e.ppn ⟨true, true, v.prot.x, true⟩ pagePut
    else some (false, m)
  | none =>
    if v.type = .heap ∧ v.fin ≤ va then some (false, m)
    else
      match m.pageAlloc with
      | none => some (false, m)
      | some (f, m) =>
        some (true, m.setEntry va (Perm.entry ⟨v.prot.r, v.prot.w, v.prot.x, true⟩ f))

/-- `user_page_fault`; `false` is -1, `none` a panic. -/
def userPageFault (fill : Fill) (m : Mem) (c : Cause) (stval : ℕ) : Option (Bool × Mem) :=
  match m.space.growStack stval with
  | none => some (false, m)
  | some (i, sp) =>
    let m := { m with space := sp }
    let v := sp.slot i
    if c = .store ∧ v.prot.w = false then some (false, m)
    else if c = .exec ∧ v.prot.x = false then some (false, m)
    else if v.type = .file then m.fileFault fill c v (pageDown stval)
    else m.anonFault c v (pageDown stval)

/-! ## What the process itself loads and stores -/

def mayLoad (e : Pte) : Bool := e.u && e.r

def mayStore (e : Pte) : Bool := e.u && e.w

/-- An access of the process: it faults and tries again until the page allows it. Two faults
are enough, as the first may map a page of a file for reading only. The result is the frame. -/
def access (fill : Fill) (c : Cause) (may : Pte → Bool) (va : ℕ) : ℕ → Mem → Option (Option ℕ × Mem)
  | 0, m => some (none, m)
  | rounds + 1, m =>
    match (m.entry va).filter may with
    | some e => some (some e.ppn, m)
    | none =>
      match m.userPageFault fill c va with
      | none => none
      | some (false, m) => some (none, m)
      | some (true, m) => access fill c may va rounds m

def userLoad (fill : Fill) (m : Mem) (va : ℕ) : Option (Option UInt8 × Mem) :=
  (access fill .load mayLoad va 3 m).map fun (f, m) =>
    (f.map fun f => (m.frame f).get (va % PAGE_SIZE), m)

def userStore (fill : Fill) (m : Mem) (va : ℕ) (b : UInt8) : Option (Bool × Mem) :=
  (access fill .store mayStore va 3 m).map fun (f, m) =>
    match f with
    | none => (false, m)
    | some f => (true, m.write f (va % PAGE_SIZE) 1 fun _ => b)

/-- The bytes from `va` on, loaded one after the other. -/
def userLoads (fill : Fill) : ℕ → ℕ → Mem → Option (Option (List UInt8) × Mem)
  | _, 0, m => some (some [], m)
  | va, n + 1, m =>
    match m.userLoad fill va with
    | none => none
    | some (none, m) => some (none, m)
    | some (some b, m) => (userLoads fill (va + 1) n m).map fun (bs, m) => (bs.map (b :: ·), m)

/-- The bytes `src 0`, `src 1`, … stored from `va` on. -/
def userStores (fill : Fill) : ℕ → ℕ → (ℕ → UInt8) → Mem → Option (Bool × Mem)
  | _, 0, _, m => some (true, m)
  | va, n + 1, src, m =>
    match m.userStore fill va (src 0) with
    | none => none
    | some (false, m) => some (false, m)
    | some (true, m) => userStores fill (va + 1) n (fun i => src (i + 1)) m

/-! ## `copy_user_range_checked` -/

def chunk (cur left : ℕ) : ℕ := min (PAGE_SIZE - cur % PAGE_SIZE) left

def badRange (uva n : ℕ) : Prop :=
    uva = 0 ∨ KVMEM_OFFSET ≤ uva ∨ add64 uva n < uva ∨ KVMEM_OFFSET < add64 uva n

instance (uva n : ℕ) : Decidable (badRange uva n) := inferInstanceAs (Decidable (_ ∨ _ ∨ _ ∨ _))

/-- The loop of `copyin` with `left` bytes to go. -/
def copyinFrom (m : Mem) : ℕ → ℕ → ℕ → Option (List UInt8)
  | 0, _, _ => some []
  | fuel + 1, cur, left =>
    if left = 0 then some []
    else
      match m.entry cur with
      | none => none
      | some e =>
        if e.u = false ∨ e.r = false then none
        else do
          let bytes := (List.range (chunk cur left)).map fun i => (m.frame e.ppn).get
            (cur % PAGE_SIZE + i)
          let rest ← m.copyinFrom fuel (cur + chunk cur left) (left - chunk cur left)
          return bytes ++ rest

/-- `copyin`; `none` is `-EFAULT`. -/
def copyin (m : Mem) (uva n : ℕ) : Option (List UInt8) :=
  if n = 0 then some [] else if badRange uva n then none else m.copyinFrom n uva n

/-- The entry to write through: a page that is not writable is faulted first. -/
def copyoutPage (fill : Fill) (m : Mem) (cur : ℕ) : Option (Option ℕ × Mem) :=
  match m.entry cur with
  | none => some (none, m)
  | some e =>
    if e.u = false then some (none, m)
    else if e.w then some (some e.ppn, m)
    else
      match m.userPageFault fill .store cur with
      | none => none
      | some (false, m) => some (none, m)
      | some (true, m) =>
        match m.entry cur with
        | none => some (none, m)
        | some e => if e.u && e.w then some (some e.ppn, m) else some (none, m)

/-- The loop of `copyout`. -/
def copyoutFrom (fill : Fill) : ℕ → ℕ → ℕ → (ℕ → UInt8) → Mem → Option (Bool × Mem)
  | 0, _, _, _, m => some (true, m)
  | fuel + 1, cur, left, src, m =>
    if left = 0 then some (true, m)
    else
      match m.copyoutPage fill cur with
      | none => none
      | some (none, m) => some (false, m)
      | some (some f, m) =>
        copyoutFrom fill fuel (cur + chunk cur left) (left - chunk cur left)
          (fun i => src (chunk cur left + i))
          (m.write f (cur % PAGE_SIZE) (chunk cur left) src)

/-- `copyout`; `false` is `-EFAULT`. -/
def copyout (fill : Fill) (m : Mem) (uva n : ℕ) (src : ℕ → UInt8) : Option (Bool × Mem) :=
  if n = 0 then some (true, m) else if badRange uva n then some (false, m) else copyoutFrom fill
    n uva n src m

end Mem

end Sbunix.Vm
