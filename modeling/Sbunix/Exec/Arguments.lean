import Mathlib.Data.List.DropRight
import Mathlib.Data.List.GetD
import Mathlib.Tactic

/-!
# The arguments of a new image

`do_exec` reads the first line of a script and puts the interpreter in front of the
arguments; `setup_user_stack` copies the strings of both vectors to the bottom of the new
stack page and builds the table of their addresses at its top.
-/

namespace Sbunix.Exec

open List

abbrev Str := List UInt8

def ARGV_MAX_LOCAL : ℕ := 32
def PATH_MAX_LOCAL : ℕ := 256
def USER_STACK_TOP : ℕ := 0x4000000000
def EFAULT : ℤ := 14
def E2BIG : ℤ := 7
def ENOEXEC : ℤ := 8

/-! ## Memory as a process sees it -/

/-- What `copyin` finds at an address, a word or a byte, or `none` if it fails. -/
structure UserMemory where
  word : ℕ → Option ℕ
  byte : ℕ → Option UInt8

namespace UserMemory

variable (m : UserMemory)

/-- The string at `a`. -/
def StrAt : ℕ → Str → Prop
  | a, [] => m.byte a = some 0
  | a, c :: s => c ≠ 0 ∧ m.byte a = some c ∧ StrAt (a + 1) s

/-- The strings of the vector at `p`, which ends with a null pointer. -/
def VecAt : ℕ → List Str → Prop
  | p, [] => m.word p = some 0
  | p, s :: l => ∃ a, a ≠ 0 ∧ m.word p = some a ∧ m.StrAt a s ∧ VecAt (p + 8) l

/-- The vector handed to `execve`: a null pointer stands for an empty one. -/
def Given (p : ℕ) (l : List Str) : Prop := if p = 0 then l = [] else m.VecAt p l

end UserMemory

/-! ## `setup_user_stack` -/

/-- The staging page so far: the strings from its base on, and their user addresses. -/
structure Stage where
  strs : List UInt8
  addrs : List ℕ

def Stage.place (st : Stage) (s : Str) : Except ℤ Stage :=
  if 4096 < st.strs.length + (s.length + 1) + 8 * (st.addrs.length + 4) then .error (-E2BIG)
  else .ok ⟨st.strs ++ (s ++ [0]), st.addrs ++ [USER_STACK_TOP - 4096 + st.strs.length]⟩

/-- The strings the kernel puts in front. -/
def placePrefix : List Str → Stage → Except ℤ Stage
  | [], st => .ok st
  | s :: l, st =>
    if ARGV_MAX_LOCAL ≤ st.addrs.length ∨ 256 < s.length then .error (-E2BIG)
    else
      match st.place s with
      | .error e => .error e
      | .ok st => placePrefix l st

/-- One string of the caller, of fewer than `n` bytes. -/
def copyString (m : UserMemory) : ℕ → ℕ → Except ℤ Str
  | 0, _ => .error (-E2BIG)
  | n + 1, a =>
    match m.byte a with
    | none => .error (-EFAULT)
    | some c =>
      if c = 0 then .ok []
      else
        match copyString m n (a + 1) with
        | .error e => .error e
        | .ok s => .ok (c :: s)

/-- The loop over a vector of the caller, for at most `n` strings. -/
def copyVector (m : UserMemory) (n p : ℕ) (st : Stage) : Except ℤ Stage :=
  match m.word p with
  | none => .error (-EFAULT)
  | some a =>
    if a = 0 then .ok st
    else
      match n with
      | 0 => .error (-E2BIG)
      | n + 1 =>
        match copyString m 256 a with
        | .error e => .error e
        | .ok s =>
          match st.place s with
          | .error e => .error e
          | .ok st => copyVector m n (p + 8) st

/-- The new stack page: the strings from its base on, the table at its top, and `sp`. -/
structure Stack where
  strs : List UInt8
  words : List ℕ
  sp : ℕ

/-- The table, for `argc` arguments. -/
def Stage.frame (st : Stage) (argc : ℕ) : Stack where
  strs := st.strs
  words := argc :: (st.addrs.take argc ++ 0 :: (st.addrs.drop argc ++ [0]))
  sp := (USER_STACK_TOP - (1 + argc + 1 + (st.addrs.length - argc) + 1) * 8) / 8 * 8

def setupUserStack (m : UserMemory) (kprefixes : List Str) (argv skip envp : ℕ) : Except ℤ Stack :=
  if argv = 0 ∧ kprefixes = [] ∧ envp = 0 then .ok ⟨[], [0, 0, 0], USER_STACK_TOP - 24⟩
  else
    match placePrefix kprefixes ⟨[], []⟩ with
    | .error e => .error e
    | .ok st =>
      match if argv = 0 then .ok st
        else copyVector m (ARGV_MAX_LOCAL - st.addrs.length) (argv + skip * 8) st with
      | .error e => .error e
      | .ok st' =>
        match if envp = 0 then .ok st' else copyVector m ARGV_MAX_LOCAL envp st' with
        | .error e => .error e
        | .ok st'' => .ok (st''.frame st'.addrs.length)

/-! ## Scripts -/

def blank (c : UInt8) : Bool := c == 32 || c == 9

def stops (c : UInt8) : Bool := c == 10 || c == 13 || c == 0

/-- The interpreter and its optional argument in the header of a script, `none` if the
file is not a script. -/
def shebang : List UInt8 → Except ℤ (Option (List Str))
  | 35 :: 33 :: hdr =>
    let hdr := hdr.dropWhile blank
    let interp := hdr.takeWhile fun c => !blank c && !stops c
    if interp = [] ∨ PATH_MAX_LOCAL ≤ interp.length then .error (-ENOEXEC)
    else
      let hdr := (hdr.drop interp.length).dropWhile blank
      let arg := (hdr.takeWhile fun c => !stops c).rdropWhile blank
      if arg = [] then .ok (some [interp])
      else if PATH_MAX_LOCAL ≤ arg.length then .error (-ENOEXEC)
      else .ok (some [interp, arg])
  | _ => .ok none

/-- The part of `do_exec` that makes the arguments: it reads 128 bytes of the file. -/
def execArguments (m : UserMemory) (path : Str) (content : List UInt8) (argv envp : ℕ) :
    Except ℤ Stack :=
  match shebang (content.take 128) with
  | .error e => .error e
  | .ok none => setupUserStack m [] argv 0 envp
  | .ok (some words) =>
    setupUserStack m (words ++ [path]) argv (if argv = 0 then 0 else 1) envp

/-! ## What the new image is to find -/

def script (content : List UInt8) : Bool := [35, 33].isPrefixOf content

/-- The interpreter of a script and its optional argument. -/
def header (content : List UInt8) : List Str :=
  let hdr := (content.drop 2).dropWhile blank
  let interp := hdr.takeWhile fun c => !blank c && !stops c
  let arg := (((hdr.drop interp.length).dropWhile blank).takeWhile fun c => !stops c).rdropWhile
    blank
  if arg = [] then [interp] else [interp, arg]

/-- The arguments of the caller from index 1 on. The first may be anything, also a pointer
that cannot be read. -/
def UserMemory.Rest (m : UserMemory) (argv : ℕ) (l : List Str) : Prop :=
  if argv = 0 ∨ m.word argv = some 0 then l = [] else m.VecAt (argv + 8) l

/-- The arguments the new image is to get. -/
def Intended (m : UserMemory) (path : Str) (content : List UInt8) (argv : ℕ) (args : List Str) :
    Prop :=
  if script content = true then ∃ rest, m.Rest argv rest ∧ args = header content ++ path :: rest
  else m.Given argv args

/-- What 128 bytes of the file show is the whole header, and behind an empty vector follows
another null pointer. Or the cut loses the argument and it is the path, which is found behind
the empty vector once more. -/
def Kept (m : UserMemory) (path : Str) (content : List UInt8) (argv : ℕ) : Prop :=
  header (content.take 128) = header content ∧
      (argv = 0 ∨ m.word argv ≠ some 0 ∨ m.word (argv + 8) = some 0) ∨
    (argv ≠ 0 ∧ m.word argv = some 0) ∧ header content = header (content.take 128) ++ [path] ∧
      m.VecAt (argv + 8) [path]

/-- The stack as the new image reads it. The table was written last. -/
def Stack.memory (k : Stack) : UserMemory where
  word a := if k.sp ≤ a ∧ (a - k.sp) % 8 = 0 then k.words[(a - k.sp) / 8]? else none
  byte a := some <|
    if k.sp ≤ a then .ofNat (k.words.getD ((a - k.sp) / 8) 0 / 256 ^ ((a - k.sp) % 8))
    else k.strs.getD (a - (USER_STACK_TOP - 4096)) 0

/-- Decoding the stack gives the two vectors; strings and table are apart in the page; and
the stack pointer is aligned. -/
structure Stack.Passes (k : Stack) (args env : List Str) : Prop where
  argc : k.memory.word k.sp = some args.length
  argv : k.memory.VecAt (k.sp + 8) args
  envp : k.memory.VecAt (k.sp + 8 * (args.length + 2)) env
  apart : USER_STACK_TOP - 4096 + k.strs.length ≤ k.sp
  inPage : k.sp + 8 * k.words.length ≤ USER_STACK_TOP
  aligned : k.sp % 16 = 0

/-! ## The layout of the strings -/

def strsOf (l : List Str) : List UInt8 := l.flatMap (· ++ [0])

theorem strsOf_append (l l' : List Str) : strsOf (l ++ l') = strsOf l ++ strsOf l' :=
  flatMap_append

variable {l : List Str} {s : Str} {st : Stage} {m : UserMemory}
  {i : ℕ} {pre words : List Str} {content : List UInt8}

theorem strsOf_split (h : l[i]? = some s) :
    strsOf l = strsOf (l.take i) ++ (s ++ [0] ++ strsOf (l.drop (i + 1))) := by
  obtain ⟨hi, rfl⟩ := List.getElem?_eq_some_iff.mp h
  have hl : l = l.take i ++ [l[i]] ++ l.drop (i + 1) := by simp
  calc strsOf l = strsOf (l.take i ++ [l[i]] ++ l.drop (i + 1)) := congrArg strsOf hl
    _ = _ := by rw [strsOf_append, strsOf_append, append_assoc, strsOf, strsOf, flatMap_singleton]

/-- The page once the strings of `l` are placed. -/
def layout (l : List Str) : Stage :=
  ⟨strsOf l, (List.range l.length).map fun i => USER_STACK_TOP - 4096 + (strsOf (l.take i)).length⟩

def Room (l : List Str) : Prop := (strsOf l).length + 8 * (l.length + 3) ≤ 4096

theorem room_nil : Room [] := by
  simp [Room, strsOf]

@[simp] theorem layout_addrs_length (l : List Str) : (layout l).addrs.length = l.length := by
  simp [layout]

theorem layout_append (l : List Str) (s : Str) : layout (l ++ [s]) =
      ⟨strsOf l ++ (s ++ [0]),
        (layout l).addrs ++ [USER_STACK_TOP - 4096 + (strsOf l).length]⟩ := by
  have hstrs : strsOf (l ++ [s]) = strsOf l ++ (s ++ [0]) := by simp [strsOf]
  have haddrs : ∀ i ∈ List.range l.length,
      USER_STACK_TOP - 4096 + (strsOf ((l ++ [s]).take i)).length =
        USER_STACK_TOP - 4096 + (strsOf (l.take i)).length := by
    intro i hi
    rw [take_append_of_le_length (mem_range.mp hi).le]
  rw [layout, hstrs, length_append, length_singleton, range_succ, map_append, map_congr_left haddrs]
  simp [layout]

theorem place_layout (h : (layout l).place s = .ok st) :
    st = layout (l ++ [s]) ∧ Room (l ++ [s]) := by
  unfold Stage.place at h
  split at h
  · cases h
  · next hroom =>
    cases h
    refine ⟨(layout_append l s).symm, ?_⟩
    simp only [layout, length_map, length_range] at hroom
    simp only [Room, strsOf_append, length_append, length_singleton]
    simp only [strsOf, flatMap_cons, flatMap_nil, append_nil, length_append,
      length_singleton] at hroom ⊢
    omega

theorem placePrefix_layout (h : placePrefix pre (layout l) = .ok st) (hl : Room l) :
    st = layout (l ++ pre) ∧ Room (l ++ pre) := by
  induction pre generalizing l with
  | nil =>
    cases h
    rw [append_nil]
    exact ⟨rfl, hl⟩
  | cons s pre ih =>
    rw [placePrefix] at h
    split at h
    · cases h
    cases hplace : (layout l).place s with
    | error e => simp [hplace] at h
    | ok st₁ =>
      obtain ⟨rfl, hroom⟩ := place_layout hplace
      rw [hplace] at h
      simpa using ih h hroom

theorem copyString_strAt {n a : ℕ} (h : copyString m n a = .ok s) : m.StrAt a s := by
  induction n generalizing a s with
  | zero => cases h
  | succ n ih =>
    rw [copyString] at h
    split at h
    · cases h
    next c hbyte =>
    split at h
    · next h0 =>
      cases h
      rwa [h0] at hbyte
    · next h0 =>
      split at h
      · cases h
      · next hrest =>
        cases h
        exact ⟨h0, hbyte, ih hrest⟩

theorem copyVector_layout {n p : ℕ} (h : copyVector m n p (layout l) = .ok st) (hl : Room l) :
    ∃ v, m.VecAt p v ∧ st = layout (l ++ v) ∧ Room (l ++ v) := by
  induction n generalizing p l with
  | zero =>
    rw [copyVector.eq_def] at h
    split at h
    · cases h
    next hword =>
    split at h
    · next h0 =>
      cases h
      exact ⟨[], by rw [h0] at hword; exact hword, by simp, by simpa using hl⟩
    · cases h
  | succ n ih =>
    rw [copyVector.eq_def] at h
    split at h
    · cases h
    next a hword =>
    split at h
    · next h0 =>
      cases h
      exact ⟨[], by rw [h0] at hword; exact hword, by simp, by simpa using hl⟩
    next h0 =>
    dsimp only at h
    split at h
    · cases h
    next s hcopy =>
    split at h
    · cases h
    next st₁ hplace =>
    obtain ⟨rfl, hroom⟩ := place_layout hplace
    obtain ⟨v, hv, hst, hroom'⟩ := ih h hroom
    exact ⟨s :: v, ⟨a, h0, hword, copyString_strAt hcopy, hv⟩, by simpa using hst, by
      simpa using hroom'⟩

theorem setupUserStack_layout {argv skip envp : ℕ} {k : Stack}
    (h : setupUserStack m pre argv skip envp = .ok k) : ∃ args env,
      (if argv = 0 then args = [] else m.VecAt (argv + skip * 8) args) ∧ m.Given envp env ∧
      k = (layout (pre ++ args ++ env)).frame (pre ++ args).length ∧ Room (pre ++ args ++ env) := by
  unfold setupUserStack at h
  split at h
  · next hempty =>
    obtain ⟨hargv, rfl, henvp⟩ := hempty
    cases h
    exact ⟨[], [], by rw [if_pos hargv], by rw [UserMemory.Given, if_pos henvp], rfl, room_nil⟩
  split at h
  · cases h
  next st hpre =>
  obtain ⟨rfl, hroom⟩ := placePrefix_layout (l := []) hpre room_nil
  rw [nil_append] at hroom h
  split at h
  · cases h
  next st' hst' =>
  obtain ⟨args, hargs, rfl, hroom'⟩ : ∃ args,
      (if argv = 0 then args = [] else m.VecAt (argv + skip * 8) args) ∧
        st' = layout (pre ++ args) ∧ Room (pre ++ args) := by
    split at hst'
    · next hargv =>
      cases hst'
      exact ⟨[], by rw [if_pos hargv], by simp, by simpa using hroom⟩
    · next hargv =>
      obtain ⟨v, hv, hlayout⟩ := copyVector_layout hst' hroom
      exact ⟨v, by rwa [if_neg hargv], hlayout⟩
  split at h
  · cases h
  next st'' hst'' =>
  cases h
  rw [layout_addrs_length]
  split at hst''
  · next henvp =>
    cases hst''
    exact ⟨args, [], hargs, by rw [UserMemory.Given, if_pos henvp], by simp, by simpa using hroom'⟩
  · next henvp =>
    obtain ⟨env, henv, rfl, hroom''⟩ := copyVector_layout hst'' hroom'
    exact ⟨args, env, hargs, by rwa [UserMemory.Given, if_neg henvp], rfl, hroom''⟩

/-! ## Decoding -/

namespace UserMemory

theorem StrAt.ne_zero {a : ℕ} (h : m.StrAt a s) : 0 ∉ s := by
  induction s generalizing a with
  | nil => simp
  | cons c s ih =>
    obtain ⟨hc, _, hs⟩ := h
    simp [hc.symm, ih hs]

variable {p : ℕ}

theorem VecAt.ne_zero (h : m.VecAt p l) : ∀ s ∈ l, 0 ∉ s := by
  induction l generalizing p with
  | nil => simp
  | cons s l ih =>
    obtain ⟨a, _, _, hs, hl⟩ := h
    rintro t (_ | ⟨_, ht⟩)
    · exact hs.ne_zero
    · exact ih hl t ht

theorem Given.ne_zero (h : m.Given p l) : ∀ s ∈ l, 0 ∉ s := by
  unfold Given at h
  split at h
  · simp [h]
  · exact h.ne_zero

theorem StrAt.unique {a : ℕ} {t : Str} (h : m.StrAt a s) (h' : m.StrAt a t) : s = t := by
  induction s generalizing a t with
  | nil =>
    cases t with
    | nil => rfl
    | cons c t => exact absurd (Option.some.inj (h'.2.1.symm.trans h)) h'.1
  | cons c s ih =>
    cases t with
    | nil => exact absurd (Option.some.inj (h.2.1.symm.trans h')) h.1
    | cons d t =>
      obtain rfl : c = d := Option.some.inj (h.2.1.symm.trans h'.2.1)
      rw [ih h.2.2 h'.2.2]

theorem VecAt.unique {l' : List Str} (h : m.VecAt p l) (h' : m.VecAt p l') : l = l' := by
  induction l generalizing p l' with
  | nil =>
    cases l' with
    | nil => rfl
    | cons t l' =>
      obtain ⟨a, ha, hw, _⟩ := h'
      exact absurd (Option.some.inj (hw.symm.trans h)) ha
  | cons s l ih =>
    obtain ⟨a, ha, hw, hs, hl⟩ := h
    cases l' with
    | nil => exact absurd (Option.some.inj (hw.symm.trans h')) ha
    | cons t l' =>
      obtain ⟨b, _, hw', ht, hl'⟩ := h'
      obtain rfl : a = b := Option.some.inj (hw.symm.trans hw')
      rw [hs.unique ht, ih hl hl']

theorem Given.unique {l' : List Str} (h : m.Given p l) (h' : m.Given p l') : l = l' := by
  unfold Given at h h'
  split at h
  · next hp =>
    rw [if_pos hp] at h'
    rw [h, h']
  · next hp =>
    rw [if_neg hp] at h'
    exact h.unique h'

theorem strAt_of_bytes {a : ℕ} (hs : 0 ∉ s)
    (h : ∀ i ≤ s.length, m.byte (a + i) = (s ++ [0])[i]?) : m.StrAt a s := by
  induction s generalizing a with
  | nil =>
    have := h 0 (Nat.le_refl 0)
    simpa [StrAt] using this
  | cons c s ih =>
    refine ⟨fun hc => hs (by simp [hc]), by simpa using h 0 (Nat.zero_le _), ih (by simp_all) ?_⟩
    intro i hi
    have := h (i + 1) (by simpa using hi)
    rwa [← Nat.add_assoc, Nat.add_right_comm] at this

theorem vecAt_of_words (addr : ℕ → ℕ)
    (hword : ∀ i < l.length, addr i ≠ 0 ∧ m.word (p + 8 * i) = some (addr i))
    (hstr : ∀ i s, l[i]? = some s → m.StrAt (addr i) s)
    (hend : m.word (p + 8 * l.length) = some 0) : m.VecAt p l := by
  induction l generalizing p addr with
  | nil => exact hend
  | cons s l ih =>
    obtain ⟨h0, hw⟩ := hword 0 (by simp)
    refine ⟨addr 0, h0, hw, hstr 0 s rfl, ih (fun i => addr (i + 1)) (fun i hi => ?_)
      (fun i t ht => hstr (i + 1) t (by simpa using ht)) ?_⟩
    · have := hword (i + 1) (by simpa using hi)
      rwa [Nat.mul_add, Nat.add_comm (8 * i), ← Nat.add_assoc] at this
    · rw [length_cons, Nat.mul_add, Nat.add_comm (8 * _), ← Nat.add_assoc] at hend
      exact hend

end UserMemory

/-! The words of a table with the entries `A` and `B`. -/

variable {n k : ℕ} {A B : List ℕ}

theorem table_left (hi : i < A.length) : (n :: (A ++ 0 :: (B ++ [0])))[i + 1]? = A[i]? := by
  rw [getElem?_cons_succ, getElem?_append_left hi]

theorem table_null (hA : A.length = k) : (n :: (A ++ 0 :: (B ++ [0])))[k + 1]? = some 0 := by
  simp [← hA]

theorem table_right (hA : A.length = k) (i : ℕ) :
    (n :: (A ++ 0 :: (B ++ [0])))[k + 2 + i]? = (B ++ [0])[i]? := by
  rw [show k + 2 + i = A.length + (i + 1) + 1 by omega, getElem?_cons_succ,
    getElem?_append_right (by omega), Nat.add_sub_cancel_left, getElem?_cons_succ]

variable {args env : List Str}

def stackOf (args env : List Str) : Stack := (layout (args ++ env)).frame args.length

theorem stackOf_sp (hroom : Room (args ++ env)) :
    (stackOf args env).sp = USER_STACK_TOP - 8 * (args.length + env.length + 3) := by
  simp only [Room, length_append] at hroom
  simp only [stackOf, Stage.frame, layout_addrs_length, length_append, USER_STACK_TOP]
  omega

def addrOf (l : List Str) (i : ℕ) : ℕ := USER_STACK_TOP - 4096 + (strsOf (l.take i)).length

theorem stackOf_words : (stackOf args env).words = args.length ::
    ((List.range args.length).map (addrOf (args ++ env)) ++ 0 ::
      ((List.range env.length).map (fun i => addrOf (args ++ env) (args.length + i)) ++ [0])) := by
  have hsplit : (layout (args ++ env)).addrs =
      (List.range args.length).map (addrOf (args ++ env)) ++
        (List.range env.length).map fun i => addrOf (args ++ env) (args.length + i) := by
    simp only [layout, length_append, range_add, map_append, map_map]
    rfl
  simp only [stackOf, Stage.frame, hsplit]
  rw [take_left' (by simp), drop_left' (by simp)]

theorem stackOf_word (i : ℕ) :
    (stackOf args env).memory.word ((stackOf args env).sp + 8 * i) =
    (stackOf args env).words[i]? := by
  have h : (stackOf args env).sp + 8 * i - (stackOf args env).sp = 8 * i := by omega
  simp [Stack.memory, h]

theorem strAt_addrOf {k : Stack} {l : List Str} (hk : k.strs = strsOf l)
    (hapart : USER_STACK_TOP - 4096 + (strsOf l).length ≤ k.sp)
    (hs : l[i]? = some s) (hnul : 0 ∉ s) : k.memory.StrAt (addrOf l i) s := by
  have hstrs := strsOf_split hs
  have hlen := congrArg List.length hstrs
  simp only [length_append, length_singleton] at hlen
  refine UserMemory.strAt_of_bytes hnul fun j hj => ?_
  have hbelow : ¬ k.sp ≤ addrOf l i + j := by
    simp only [addrOf]
    omega
  have hoff : addrOf l i + j - (USER_STACK_TOP - 4096) = (strsOf (l.take i)).length + j := by
    simp only [addrOf]
    omega
  have hbyte : k.strs.getD ((strsOf (l.take i)).length + j) 0 = (s ++ [0]).getD j 0 := by
    rw [hk, hstrs, getD_append_right _ _ _ _ (by omega), Nat.add_sub_cancel_left,
      getD_append _ _ _ _ (by rw [length_append, length_singleton]; omega)]
  have hj' : j < (s ++ [0]).length := by
    rw [length_append, length_singleton]
    omega
  simp only [Stack.memory, if_neg hbelow, hoff]
  rw [hbyte, getD_eq_getElem _ _ hj', getElem?_eq_getElem hj']

theorem addrOf_ne_zero (l : List Str) (i : ℕ) : addrOf l i ≠ 0 := by
  simp [addrOf, USER_STACK_TOP]

theorem stackOf_passes {args' env' : List Str} (hroom : Room (args ++ env))
    (hnul : ∀ s ∈ args ++ env, 0 ∉ s) : (stackOf args env).Passes args' env' ↔
      args = args' ∧ env = env' ∧ (args.length + env.length) % 2 = 1 := by
  have hsp := stackOf_sp hroom
  simp only [Room, length_append] at hroom
  have hstr : ∀ i s, (args ++ env)[i]? = some s →
      (stackOf args env).memory.StrAt (addrOf (args ++ env) i) s := fun i s hs =>
    strAt_addrOf rfl (by rw [hsp]; simp only [USER_STACK_TOP]; omega) hs
      (hnul s (mem_of_getElem? hs))
  have hword : ∀ p i w, p = (stackOf args env).sp + 8 * i → (stackOf args env).words[i]? = some w →
      (stackOf args env).memory.word p = some w := fun p i w hp hw => by
    rw [hp, stackOf_word, hw]
  have hA : ((List.range args.length).map (addrOf (args ++ env))).length = args.length := by simp
  have hargc : (stackOf args env).memory.word (stackOf args env).sp = some args.length :=
    hword _ 0 _ rfl (by rw [stackOf_words]; rfl)
  have hargv : (stackOf args env).memory.VecAt ((stackOf args env).sp + 8) args := by
    refine UserMemory.vecAt_of_words (addrOf (args ++ env))
      (fun i hi => ⟨addrOf_ne_zero _ _, hword _ (i + 1) _ (by ring) ?_⟩)
      (fun i s hs => hstr i s ?_) (hword _ (args.length + 1) _ (by ring) ?_)
    · rw [stackOf_words, table_left (by rwa [hA])]
      simp [hi]
    · rw [getElem?_append_left (List.getElem?_eq_some_iff.mp hs).1, hs]
    · rw [stackOf_words, table_null hA]
  have henvp : (stackOf args env).memory.VecAt
      ((stackOf args env).sp + 8 * (args.length + 2)) env := by
    refine UserMemory.vecAt_of_words (fun i => addrOf (args ++ env) (args.length + i))
      (fun i hi => ⟨addrOf_ne_zero _ _, hword _ (args.length + 2 + i) _ (by ring) ?_⟩)
      (fun i s hs => hstr _ s ?_) (hword _ (args.length + 2 + env.length) _ (by ring) ?_)
    · rw [stackOf_words, table_right hA, getElem?_append_left (by simpa using hi)]
      simp [hi]
    · rw [getElem?_append_right (by omega), Nat.add_sub_cancel_left, hs]
    · rw [stackOf_words, table_right hA]
      simp
  constructor
  · intro h
    have hlen : args.length = args'.length := Option.some.inj (hargc.symm.trans h.argc)
    refine ⟨hargv.unique h.argv, henvp.unique (hlen ▸ h.envp), ?_⟩
    have := h.aligned
    rw [hsp] at this
    simp only [USER_STACK_TOP] at this
    omega
  rintro ⟨rfl, rfl, hodd⟩
  refine ⟨hargc, hargv, henvp, ?_, ?_, ?_⟩
  · rw [hsp]
    change USER_STACK_TOP - 4096 + (strsOf (args ++ env)).length ≤ _
    simp only [USER_STACK_TOP]
    omega
  · rw [hsp, stackOf_words]
    simp only [length_cons, length_append, length_map, length_range, length_nil, USER_STACK_TOP]
    omega
  · rw [hsp]
    simp only [USER_STACK_TOP]
    omega

/-! ## The header of a script -/

theorem header_length (content : List UInt8) :
    (header content).length = 1 ∨ (header content).length = 2 := by
  unfold header
  dsimp only
  split <;> simp

/-- What `do_exec` finds in the header, for a script and for any other file. -/
theorem shebang_ok {o : Option (List Str)} (h : shebang content = .ok o) :
    o = if script content = true then some (header content) else none := by
  unfold shebang at h
  split at h
  · next hdr =>
    rw [if_pos (show script (35 :: 33 :: hdr) = true from rfl)]
    dsimp only at h
    split at h
    · cases h
    split at h
    · next harg =>
      cases h
      exact congrArg some (if_pos harg).symm
    split at h
    · cases h
    · next harg _ =>
      cases h
      exact congrArg some (if_neg harg).symm
  · next hno =>
    cases h
    rw [if_neg]
    intro hscript
    obtain ⟨rest, rfl⟩ := isPrefixOf_iff_prefix.mp hscript
    exact hno rest rfl

theorem script_take (content : List UInt8) : script (content.take 128) = script content := by
  match content with
  | [] | [_] | _ :: _ :: _ => rfl

theorem shebang_ne_zero {hdr : List UInt8} (h : shebang hdr = .ok (some words)) :
    ∀ s ∈ words, 0 ∉ s := by
  have hinterp : ∀ l : List UInt8, 0 ∉ l.takeWhile fun c => !blank c && !stops c := fun l h0 =>
    absurd (mem_takeWhile_imp h0) (by decide)
  have harg : ∀ l : List UInt8, 0 ∉ (l.takeWhile fun c => !stops c).rdropWhile blank := fun l h0 =>
    absurd (mem_takeWhile_imp ((List.rdropWhile_prefix blank _).subset h0)) (by decide)
  unfold shebang at h
  split at h
  · dsimp only at h
    split at h
    · cases h
    split at h
    · cases h
      simpa using hinterp _
    split at h
    · cases h
    · cases h
      simpa using ⟨hinterp _, harg _⟩
  · cases h

/-- What a script is started with is what is intended exactly if the header is kept. -/
theorem script_arguments (path : Str) (content : List UInt8) {argv : ℕ} {rest rest' : List Str}
    (hrest : m.Rest argv rest)
    (hrest' : if argv = 0 then rest' = [] else m.VecAt (argv + 8) rest') :
    header (content.take 128) ++ [path] ++ rest' = header content ++ path :: rest ↔
      Kept m path content argv := by
  unfold UserMemory.Rest at hrest
  by_cases hempty : argv ≠ 0 ∧ m.word argv = some 0
  · obtain ⟨h0, hnull⟩ := hempty
    rw [if_pos (.inr hnull)] at hrest
    rw [if_neg h0] at hrest'
    subst hrest
    constructor
    · intro heq
      rcases eq_nil_or_concat' rest' with rfl | ⟨l, x, rfl⟩
      · left
        rw [append_nil, append_left_inj] at heq
        exact ⟨heq, .inr (.inr hrest')⟩
      · -- the lengths leave room for one string only
        have hlen := congrArg length heq
        have h1 := header_length content
        have h2 := header_length (content.take 128)
        simp only [length_append, length_cons, length_nil] at hlen
        obtain rfl : l = [] := length_eq_zero_iff.mp (by omega)
        rw [nil_append] at heq hrest'
        obtain ⟨hheader, hpath⟩ := append_inj' heq rfl
        right
        exact ⟨⟨h0, hnull⟩, hheader.symm, by rwa [cons.inj hpath |>.1] at hrest'⟩
    · rintro (⟨hheader, hend⟩ | ⟨_, hheader, hpath⟩)
      · have hnil := (hend.resolve_left h0).resolve_left (not_not.mpr hnull)
        rw [hrest'.unique (show m.VecAt (argv + 8) [] from hnil), hheader, append_nil]
      · rw [hrest'.unique hpath, hheader]
  · have hsame : rest' = rest := by
      split at hrest'
      · next h0 => rw [hrest', if_pos (.inl h0)] at *; exact hrest.symm
      · next h0 =>
        rw [if_neg (by tauto)] at hrest
        exact hrest'.unique hrest
    rw [hsame, append_assoc, singleton_append, append_left_inj]
    constructor
    · intro heq
      exact .inl ⟨heq, by tauto⟩
    · rintro (⟨heq, _⟩ | ⟨hno, _⟩)
      · exact heq
      · exact absurd hno hempty

/-- The new image gets the arguments intended for it exactly if the number of strings is odd
and, of a script, the header is kept. -/
theorem arguments_passed_iff (m : UserMemory) (path : Str) (content : List UInt8) (argv envp : ℕ)
    (args env : List Str) (hpath : 0 ∉ path) (hargs : Intended m path content argv args)
    (henv : m.Given envp env) (k : Stack) (h : execArguments m path content argv envp = .ok k) :
    k.Passes args env ↔ (args.length + env.length) % 2 = 1 ∧
      (script content = true → Kept m path content argv) := by
  unfold execArguments at h
  unfold Intended at hargs
  split at h
  · cases h
  · next hshebang =>
    have hscript : ¬ script content = true := fun hs => by
      have := shebang_ok hshebang
      rw [script_take, if_pos hs] at this
      cases this
    rw [if_neg hscript] at hargs
    obtain ⟨args', env', hargs', henv', rfl, hroom⟩ := setupUserStack_layout h
    rw [Nat.zero_mul, Nat.add_zero] at hargs'
    obtain rfl := UserMemory.Given.unique hargs' hargs
    obtain rfl := henv'.unique henv
    rw [nil_append] at hroom ⊢
    have hpasses : (stackOf args' env').Passes args' env' ↔ _ := stackOf_passes hroom fun s hs =>
      (mem_append.mp hs).elim (hargs.ne_zero s) (henv.ne_zero s)
    rw [show (layout (args' ++ env')).frame args'.length = stackOf args' env' from rfl, hpasses]
    simp [hscript]
  · next words hshebang =>
    have hok := shebang_ok hshebang
    rw [script_take] at hok
    split at hok
    swap
    · cases hok
    next hscript =>
    obtain rfl := Option.some.inj hok
    rw [if_pos hscript] at hargs
    obtain ⟨rest, hrest, rfl⟩ := hargs
    obtain ⟨rest', env', hrest', henv', rfl, hroom⟩ := setupUserStack_layout h
    obtain rfl := henv'.unique henv
    have hrest' : if argv = 0 then rest' = [] else m.VecAt (argv + 8) rest' := by
      split at hrest'
      · next h0 => rwa [if_pos h0]
      · next h0 => simpa [if_neg h0] using hrest'
    have hzero : ∀ s ∈ header (content.take 128) ++ [path] ++ rest' ++ env', 0 ∉ s := by
      intro s hs
      simp only [mem_append, mem_singleton] at hs
      rcases hs with ((hs | rfl) | hs) | hs
      · exact shebang_ne_zero hshebang s hs
      · exact hpath
      · split at hrest'
        · rw [hrest'] at hs
          cases hs
        · exact hrest'.ne_zero s hs
      · exact henv.ne_zero s hs
    have hpasses : (stackOf (header (content.take 128) ++ [path] ++ rest') env').Passes
      (header content ++ path :: rest) env' ↔ _ := stackOf_passes hroom hzero
    have hkept := script_arguments path content hrest hrest'
    rw [stackOf, hkept] at hpasses
    rw [hpasses]
    constructor
    · rintro ⟨hk, _, hodd⟩
      rw [hkept.mpr hk] at hodd
      exact ⟨hodd, fun _ => hk⟩
    · rintro ⟨hodd, hk⟩
      refine ⟨hk hscript, rfl, ?_⟩
      rwa [hkept.mpr (hk hscript)]

/-- A caller with nothing but the vector `{"a"}` at address 8. -/
def oneArgument : UserMemory where
  word p := if p = 8 then some 64 else if p = 16 then some 0 else none
  byte a := if a = 64 then some 97 else if a = 65 then some 0 else none

/-- A caller with the vector `{(char *)1, "b"}` at address 8 and `{"c"}` at address 32. -/
def twoVectors : UserMemory where
  word p := [(8, 1), (16, 66), (24, 0), (32, 68), (40, 0)].lookup p
  byte a := [(66, 98), (67, 0), (68, 99), (69, 0)].lookup a

/-- `#!/s a`, under the name `/x`. -/
theorem arguments_passed_script :
    ∃ k, execArguments twoVectors [47, 120] [35, 33, 47, 115, 32, 97, 10] 8 32 = .ok k ∧
      k.Passes [[47, 115], [97], [47, 120], [98]] [[99]] := by
  have hrest : twoVectors.Rest 8 [[98]] := ⟨66, by decide, rfl, ⟨by decide, rfl, rfl⟩, rfl⟩
  exact ⟨_, rfl, (arguments_passed_iff twoVectors [47, 120] [35, 33, 47, 115, 32, 97, 10] 8 32
    [[47, 115], [97], [47, 120], [98]] [[99]] (by decide) ⟨[[98]], hrest, by decide⟩
    ⟨68, by decide, rfl, ⟨by decide, rfl, rfl⟩, rfl⟩ _ rfl).mpr
      ⟨rfl, fun _ => .inl ⟨by decide, .inr (.inl (by decide))⟩⟩⟩

def emptyArguments : UserMemory where
  word p := if p = 8 then some 0 else if p = 16 then some 64 else if p = 24 then some 0 else none
  byte a := if a = 64 then some 97 else if a = 65 then some 0 else none

/-- Without arguments the stack pointer is not aligned; and a script with an empty vector
gets the strings behind its end. -/
theorem arguments_not_passed :
    (∃ k, execArguments oneArgument [47] [] 0 0 = .ok k ∧ k.sp % 16 = 8) ∧
      Intended emptyArguments [47] [35, 33, 47, 115, 10] 8 [[47, 115], [47]] ∧
      ∃ k, execArguments emptyArguments [47] [35, 33, 47, 115, 10] 8 0 = .ok k ∧
        k.memory.word k.sp = some 3 :=
  ⟨⟨_, rfl, by decide⟩, ⟨[], rfl, by decide⟩, _, rfl, by decide⟩

end Sbunix.Exec
