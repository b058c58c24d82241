import Sbunix.Lib.Machine

/-!
# The process environment

`getenv`, `setenv`, `unsetenv` and `putenv` of `libc/stdlib.c`. The environment
is an array of pointers to strings that ends with a null pointer. The library
starts with the array it is given, copies it when it has to change it, and keeps
a flag for each string that it has allocated itself and has to free.

Memory is modelled as far as these functions see it: the strings by address, and
the two arrays with the cells that were allocated for them. A function is `none`
where the code would read or write outside of an array or read a string that is
not there. Names and values are strings of the caller; the counters are natural
numbers, as an array of 2^31 pointers does not fit into the memory of the machine.
-/

namespace Sbunix.Environ

abbrev Ptr := ℕ

abbrev Str := List { b : UInt8 // b ≠ 0 }

def EQ : { b : UInt8 // b ≠ 0 } := ⟨61, by decide⟩

def ENOMEM : ℕ := 12
def EINVAL : ℕ := 22

/-- `env_arr` and `env_owned` as allocated, `env_len` and `env_cap`. -/
structure Table where
  cells : List Ptr
  owned : List Bool
  len : ℕ
  cap : ℕ

/-- The strings, the array `environ` points to at the start, and the array of the library. -/
structure State where
  strs : Ptr → Option Str
  start : Option (List Ptr)
  table : Option Table

/-- What the allocator answers: to the requests for the two arrays, to that for a string,
and what is in memory that was not written yet. -/
structure Grants where
  array : Bool
  flags : Bool
  entry : Option Ptr
  junk : ℕ → Ptr × Bool

/-- 0, or -1 with `errno`. -/
inductive Ret
  | ok
  | fail (errno : ℕ)
  deriving DecidableEq

/-- `strncmp(a, b, n) == 0` -/
def strncmp : Str → Str → ℕ → Bool
  | _, _, 0 => true
  | [], [], _ + 1 => true
  | a :: as, b :: bs, n + 1 => a = b && strncmp as bs n
  | [], _ :: _, _ + 1 => false
  | _ :: _, [], _ + 1 => false

/-- `strncmp(e, name, nlen) == 0 && e[nlen] == '='` -/
def names (e name : Str) (nlen : ℕ) : Bool := strncmp e name nlen && e[nlen]? = some EQ

/-- `!name || !*name || strchr(name, '=')`, for a name that is not null. -/
def badName (name : Str) : Bool := name.isEmpty || name.contains EQ

def upToNull : List Ptr → Option (List Ptr)
  | [] => none
  | p :: ps => if p = 0 then some [] else (upToNull ps).map (p :: ·)

def put {α : Type} (l : List α) (i : ℕ) (a : α) : Option (List α) :=
  if i < l.length then some (l.set i a) else none

/-- `realloc` of an array to `n` cells. -/
def resize {α : Type} (l : List α) (n : ℕ) (junk : ℕ → α) : List α :=
  (List.range n).map fun i => l.getD i (junk i)

/-- `for (k = i; k < i + n; k++) l[k] = l[k + 1]` -/
def shift {α : Type} (l : List α) (k : ℕ) : ℕ → Option (List α)
  | 0 => some l
  | n + 1 => do
    let a ← l[k + 1]?
    let l ← put l k a
    shift l (k + 1) n

/-- The loop of `getenv` over `environ`: the first entry with this name. -/
def scan (strs : Ptr → Option Str) (name : Str) : List Ptr → Option (Option Str)
  | [] => none
  | p :: ps =>
    if p = 0 then some none
    else do
      let e ← strs p
      if names e name name.length then some (some e) else scan strs name ps

/-- `env_find`: the entries from `i` on, `n` of them. -/
def findFrom (strs : Ptr → Option Str) (cells : List Ptr) (name : Str) (nlen : ℕ) :
    ℕ → ℕ → Option (Option ℕ)
  | 0, _ => some none
  | n + 1, i => do
    let p ← cells[i]?
    let e ← strs p
    if names e name nlen then some (some i) else findFrom strs cells name nlen n (i + 1)

/-- `env_strip_dupes`: `n` entries are left to be looked at, from `i` on. -/
def stripDupes (name : Str) (nlen : ℕ) :
    ℕ → ℕ → (Ptr → Option Str) → Table → Option ((Ptr → Option Str) × Table)
  | 0, _, strs, t => some (strs, t)
  | n + 1, i, strs, t => do
    let p ← t.cells[i]?
    let e ← strs p
    if names e name nlen then
      let mine ← t.owned[i]?
      let cells ← shift t.cells i (t.len - 1 - i)
      let owned ← shift t.owned i (t.len - 1 - i)
      let cells ← put cells (t.len - 1) 0
      stripDupes name nlen n i (if mine then Function.update strs p none else strs)
        { t with cells := cells, owned := owned, len := t.len - 1 }
    else stripDupes name nlen n (i + 1) strs t

namespace State

def environ (s : State) : Option (List Ptr) :=
  match s.table with
  | some t => some t.cells
  | none => s.start

/-- `env_len`, a static variable. -/
def envLen (s : State) : ℕ :=
  match s.table with
  | some t => t.len
  | none => 0

def source (s : State) : Option (List Ptr) :=
  match s.start with
  | none => some []
  | some cells => upToNull cells

/-- The first part of `env_reserve`: the array is copied; `some none` if there is no memory. -/
def adopt (s : State) (g : Grants) (wantCap : ℕ) : Option (Option (State × Table)) :=
  match s.table with
  | some t => some (some (s, t))
  | none => do
    let src ← s.source
    let n := src.length
    let cap := if n + 8 < wantCap then wantCap else n + 8
    if g.array && g.flags then
      let t : Table := ⟨resize (src ++ [0]) (cap + 1) fun i => (g.junk i).1,
        resize (List.replicate n false) cap fun i => (g.junk i).2, n, cap⟩
      some (some ({ s with table := some t }, t))
    else some none

/-- `env_reserve`: whether there is room, and the table. -/
def reserve (s : State) (g : Grants) (wantCap : ℕ) : Option (State × Option Table) := do
  match ← s.adopt g wantCap with
  | none => some (s, none)
  | some (s, t) =>
    if wantCap ≤ t.cap then some (s, some t)
    else
      let newCap := if t.cap * 2 < wantCap then wantCap else t.cap * 2
      if ¬g.flags then some (s, none)
      else
        let t := { t with owned := resize t.owned newCap fun i => (g.junk i).2 }
        if ¬g.array then some ({ s with table := some t }, none)
        else
          let t := { t with
            cells := resize t.cells (newCap + 1) fun i => (g.junk i).1
            cap := newCap }
          some ({ s with table := some t }, some t)

/-- Install `p` under a name: over the entry `idx` and without the others, or at the end. -/
def install (s : State) (t : Table) (p : Ptr) (mine : Bool) (name : Str) (nlen : ℕ) :
    Option ℕ → Option State
  | some idx => do
    let old ← t.cells[idx]?
    let oldMine ← t.owned[idx]?
    let cells ← put t.cells idx p
    let owned ← put t.owned idx mine
    let (strs, t) ← stripDupes name nlen (t.len - (idx + 1)) (idx + 1)
      (if oldMine then Function.update s.strs old none else s.strs)
      { t with cells := cells, owned := owned }
    some { s with strs := strs, table := some t }
  | none => do
    let cells ← put t.cells t.len p
    let owned ← put t.owned t.len mine
    let cells ← put cells (t.len + 1) 0
    some { s with table := some { t with cells := cells, owned := owned, len := t.len + 1 } }

/-- `getenv`: the string behind the `=`, or null. -/
def getenv (s : State) (name : Option Str) : Option (Option Str) :=
  match name with
  | none => some none
  | some name =>
    if badName name then some none
    else
      match s.environ with
      | none => some none
      | some cells => (scan s.strs name cells).map fun r => r.map (·.drop (name.length + 1))

/-- The scan of `setenv` over `environ`, if it must not overwrite. -/
def existing (s : State) (name : Str) (overwrite : Bool) : Option (Option Str) :=
  if overwrite then some none
  else
    match s.environ with
    | none => some none
    | some cells => scan s.strs name cells

def setenv (s : State) (g : Grants) (name value : Option Str) (overwrite : Bool) :
    Option (Ret × State) :=
  match name with
  | none => some (.fail EINVAL, s)
  | some name =>
    if badName name then some (.fail EINVAL, s)
    else do
      let value := value.getD []
      let found ← s.existing name overwrite
      if found.isSome then some (.ok, s)
      else
        match ← s.reserve g (s.envLen + 2) with
        | (s, none) => some (.fail ENOMEM, s)
        | (s, some t) =>
          let idx ← findFrom s.strs t.cells name name.length t.len 0
          match g.entry with
          | none => some (.fail ENOMEM, s)
          | some p =>
            let s := { s with strs := Function.update s.strs p (some (name ++ EQ :: value)) }
            (s.install t p true name name.length idx).map fun s => (.ok, s)

def unsetenv (s : State) (g : Grants) (name : Option Str) : Option (Ret × State) :=
  match name with
  | none => some (.fail EINVAL, s)
  | some name =>
    if badName name then some (.fail EINVAL, s)
    else
      match s.environ with
      | none => some (.ok, s)
      | some cells => do
        let found ← scan s.strs name cells
        if found.isNone then some (.ok, s)
        else
          match ← s.reserve g (s.envLen + 1) with
          | (s, none) => some (.fail ENOMEM, s)
          | (s, some t) =>
            let (strs, t) ← stripDupes name name.length t.len 0 s.strs t
            some (.ok, { s with strs := strs, table := some t })

/-- `putenv` of the string at `p`. -/
def putenv (s : State) (g : Grants) (p : Ptr) : Option (Ret × State) :=
  if p = 0 then some (.fail EINVAL, s)
  else do
    let string ← s.strs p
    if string.isEmpty then some (.fail EINVAL, s)
    else if ¬string.contains EQ then s.unsetenv g (some string)
    else
      let nlen := string.idxOf EQ
      if nlen = 0 then some (.fail EINVAL, s)
      else
        match ← s.reserve g (s.envLen + 2) with
        | (s, none) => some (.fail ENOMEM, s)
        | (s, some t) =>
          let idx ← findFrom s.strs t.cells string nlen t.len 0
          (s.install t p false string nlen idx).map fun s => (.ok, s)

end State

end Sbunix.Environ
