import Sbunix.Environ.Model
import Sbunix.Lib.Keyed

/-!
# The environment as a list of entries

What the loops and the functions do to the list of entries that the arrays hold.
An entry has a key, the part before the first `=`; the functions look for the
first entry with a key.
-/

namespace Sbunix.Environ

open Lib List Option Function

/-! ### Names -/

def key (e : Str) : Option Str := if EQ ∈ e then some (e.takeWhile (· ≠ EQ)) else none

def val (e : Str) : Str := (e.dropWhile (· ≠ EQ)).tail

variable {v str : Str} {n : ℕ} {es' : List Entry} {p : Ptr} {e name : Str}

theorem strncmp_iff {a b : Str} (hn : n ≤ b.length) :
    strncmp a b n = true ↔ a.take n = b.take n := by
  induction n generalizing a b with
  | zero => simp [strncmp]
  | succ n ih =>
    cases b with
    | nil => simp at hn
    | cons y b =>
      cases a with
      | nil => simp [strncmp]
      | cons x a =>
        have := ih (a := a) (b := b) (by simpa using hn)
        simp [strncmp, this]

theorem names_iff_append (hn : n ≤ name.length) :
    names e name n = true ↔ ∃ v, e = name.take n ++ EQ :: v := by
  unfold names
  rw [Bool.and_eq_true, strncmp_iff hn, decide_eq_true_eq]
  constructor
  · rintro ⟨htake, heq⟩
    obtain ⟨hlt, hget⟩ := List.getElem?_eq_some_iff.mp heq
    refine ⟨e.drop (n + 1), ?_⟩
    rw [← htake, ← hget, cons_getElem_drop_succ, take_append_drop]
  · rintro ⟨v, rfl⟩
    have hlen : (name.take n).length = n := by simpa using hn
    constructor
    · rw [take_append_of_le_length hlen.ge, take_of_length_le hlen.le]
    · rw [getElem?_append_right hlen.le, hlen]
      simp

theorem key_append (h : EQ ∉ name) : key (name ++ EQ :: v) = some name := by
  have hall : ∀ a ∈ name, (decide (a ≠ EQ)) = true := by
    intro a ha
    simpa using fun heq : a = EQ => h (heq ▸ ha)
  unfold key
  rw [if_pos (by simp), takeWhile_append_of_pos hall]
  simp

theorem val_append (h : EQ ∉ name) : val (name ++ EQ :: v) = v := by
  have hall : ∀ a ∈ name, (decide (a ≠ EQ)) = true := by
    intro a ha
    simpa using fun heq : a = EQ => h (heq ▸ ha)
  unfold val
  rw [dropWhile_append_of_pos hall]
  simp

theorem key_eq_some (h : key e = some name) : e = name ++ EQ :: val e ∧ EQ ∉ name := by
  have hmem : EQ ∈ e := by
    by_contra hno
    rw [key, if_neg hno] at h
    cases h
  obtain ⟨as, bs, rfl, has⟩ := eq_append_cons_of_mem hmem
  rw [key_append has] at h
  obtain rfl := Option.some.inj h
  rw [val_append has]
  exact ⟨rfl, has⟩

theorem names_iff (hn : n ≤ name.length) (heq : EQ ∉ name.take n) :
    names e name n = true ↔ key e = some (name.take n) := by
  rw [names_iff_append hn]
  constructor
  · rintro ⟨v, rfl⟩
    exact key_append heq
  · intro h
    exact ⟨val e, (key_eq_some h).1⟩

/-! ### Arrays -/

variable {α : Type} {l pre mid post : List α} {a b : α}

theorem put_append (pre : List α) (a b : α) (post : List α) :
    put (pre ++ a :: post) pre.length b = some (pre ++ b :: post) := by
  unfold put
  rw [if_pos (by simp), set_append_right _ _ le_rfl]
  simp

theorem shift_append (pre : List α) (a : α) (mid post : List α) :
    ∃ c, shift (pre ++ a :: (mid ++ post)) pre.length mid.length =
      some (pre ++ (mid ++ c :: post)) := by
  induction mid generalizing pre a with
  | nil => exact ⟨a, rfl⟩
  | cons x mid ih =>
    have hget : (pre ++ a :: (x :: mid ++ post))[pre.length + 1]? = some x := by
      rw [getElem?_append_right (by omega)]
      simp
    obtain ⟨c, hc⟩ := ih (pre ++ [x]) x
    refine ⟨c, ?_⟩
    rw [length_cons, shift, hget]
    simp only [bind_eq_bind, bind_some, put_append]
    rw [length_append, length_singleton] at hc
    simpa using hc

theorem resize_append (l post : List α) (junk : ℕ → α) (hn : l.length ≤ n) :
    ∃ rest, resize (l ++ post) n junk = l ++ rest := by
  refine ⟨(resize (l ++ post) n junk).drop l.length, ?_⟩
  have htake : (resize (l ++ post) n junk).take l.length = l := by
    refine ext_getElem (by simpa [resize] using hn) fun i h1 h2 => ?_
    simp [resize, getElem?_append_left h2, getElem?_eq_getElem h2]
  exact (htake ▸ take_append_drop l.length (resize (l ++ post) n junk)).symm

theorem length_resize (junk : ℕ → α) : (resize l n junk).length = n := by
  simp [resize]

/-! ### Entries -/

/-- A cell of the environment: the pointer, the string there, and whether the library has
allocated it. -/
structure Entry where
  ptr : Ptr
  str : Str
  mine : Bool

/-- The entries of the array are strings in memory, and a string of the library is in one cell only.
-/
structure Strings (strs : Ptr → Option Str) (es : List Entry) : Prop where
  here : ∀ e ∈ es, e.ptr ≠ 0 ∧ strs e.ptr = some e.str
  unique : es.Pairwise fun a b => a.ptr = b.ptr → a.mine = false ∧ b.mine = false

/-- The table holds the entries, ends with null, and there is room for what is counted. -/
structure Tabled (t : Table) (es : List Entry) : Prop where
  len : t.len = es.length
  room : t.len ≤ t.cap
  cells : ∃ rest, t.cells = es.map Entry.ptr ++ 0 :: rest
  owned : ∃ rest, t.owned = es.map Entry.mine ++ rest
  cellsCap : t.cells.length = t.cap + 1
  ownedCap : t.cap ≤ t.owned.length

variable {strs : Ptr → Option Str} {t : Table} {es pre post : List Entry} {e : Entry} {nlen : ℕ}

def Entry.named (e : Entry) : Option Str := key e.str

theorem Strings.sublist (hs : Strings strs es) (hsub : es'.Sublist es) : Strings strs es' :=
  ⟨fun e he => hs.here e (hsub.subset he), hs.unique.sublist hsub⟩

theorem Strings.free (hs : Strings strs (pre ++ e :: post)) (hm : e.mine = true) :
    Strings (update strs e.ptr none) (pre ++ post) := by
  have hne : ∀ d ∈ pre ++ post, d.ptr ≠ e.ptr := by
    intro d hd heq
    have hu := hs.unique
    rw [pairwise_append] at hu
    rcases mem_append.mp hd with hd | hd
    · have := (hu.2.2 d hd e (by simp) heq).2
      rw [hm] at this
      cases this
    · have := ((pairwise_cons.mp hu.2.1).1 d hd heq.symm).1
      rw [hm] at this
      cases this
  have hsub : (pre ++ post).Sublist (pre ++ e :: post) :=
    (List.Sublist.refl pre).append (sublist_cons_self e post)
  refine ⟨fun d hd => ?_, hs.unique.sublist hsub⟩
  obtain ⟨h0, hstr⟩ := hs.here d (hsub.subset hd)
  exact ⟨h0, by rw [update_of_ne (hne d hd), hstr]⟩

theorem Tabled.cell (ht : Tabled t (pre ++ e :: post)) :
    t.cells[pre.length]? = some e.ptr ∧ t.owned[pre.length]? = some e.mine := by
  obtain ⟨rest, hc⟩ := ht.cells
  obtain ⟨rest', ho⟩ := ht.owned
  rw [hc, ho]
  constructor
  · rw [map_append, append_assoc, getElem?_append_right (by simp)]
    simp
  · rw [map_append, append_assoc, getElem?_append_right (by simp)]
    simp

theorem findFrom_spec (pre : List Entry) (hn : nlen ≤ name.length) (heq : EQ ∉ name.take nlen)
    (hs : Strings strs (pre ++ post))
    (ht : Tabled t (pre ++ post)) :
    (findFrom strs t.cells name nlen post.length pre.length = some none ∧
        ∀ e ∈ post, e.named ≠ some (name.take nlen)) ∨
      ∃ mid e rest, findFrom strs t.cells name nlen post.length pre.length =
        some (some (pre ++ mid).length) ∧
        post = mid ++ e :: rest ∧ (∀ e ∈ mid, e.named ≠ some (name.take nlen)) ∧
        e.named = some (name.take nlen) := by
  induction post generalizing pre with
  | nil => exact .inl ⟨rfl, nofun⟩
  | cons e post ih =>
    obtain ⟨-, hstr⟩ := hs.here e (by simp)
    have hhit : names e.str name nlen = true ↔ e.named = some (name.take nlen) := names_iff hn heq
    rw [length_cons, findFrom, ht.cell.1]
    simp only [bind_eq_bind, bind_some, hstr]
    split
    · next hnamed =>
      exact .inr ⟨[], e, post, by simp, rfl, nofun, hhit.mp hnamed⟩
    · next hnamed =>
      have hne : e.named ≠ some (name.take nlen) := fun h => hnamed (hhit.mpr h)
      rw [append_cons] at hs ht
      have := ih _ hs ht
      rw [length_append, length_singleton] at this
      rcases this with ⟨hrun, hnone⟩ | ⟨mid, d, rest, hrun, rfl, hmid, hd⟩
      · exact .inl ⟨hrun, by simpa using ⟨hne, hnone⟩⟩
      · refine .inr ⟨e :: mid, d, rest, ?_, rfl, by simpa using ⟨hne, hmid⟩, hd⟩
        rw [hrun]
        simp

theorem Tabled.remove (ht : Tabled t (pre ++ e :: post)) :
    ∃ cells owned cells', shift t.cells pre.length (t.len - 1 - pre.length) = some cells ∧
      shift t.owned pre.length (t.len - 1 - pre.length) = some owned ∧
        put cells (t.len - 1) 0 = some cells' ∧
      Tabled { t with cells := cells', owned := owned, len := t.len - 1 } (pre ++ post) := by
  obtain ⟨rest, hc⟩ := ht.cells
  obtain ⟨rest', ho⟩ := ht.owned
  have hlen := ht.len
  have hroom := ht.room
  have hcc := ht.cellsCap
  have hoc := ht.ownedCap
  rw [length_append, length_cons] at hlen
  have hcount : t.len - 1 - pre.length = post.length := by omega
  rw [hcount]
  -- the last cell keeps its value, and is overwritten with null
  obtain ⟨c, hshift⟩ := shift_append (pre.map Entry.ptr) e.ptr (post.map Entry.ptr) (0 :: rest)
  obtain ⟨c', hshift'⟩ := shift_append (pre.map Entry.mine) e.mine (post.map Entry.mine) rest'
  have hput : put (pre.map Entry.ptr ++ (post.map Entry.ptr ++ c :: 0 :: rest)) (t.len - 1) 0 =
      some ((pre.map Entry.ptr ++ post.map Entry.ptr) ++ 0 :: 0 :: rest) := by
    rw [← append_assoc]
    have hidx : t.len - 1 = (pre.map Entry.ptr ++ post.map Entry.ptr).length := by
      rw [length_append, length_map, length_map]
      omega
    rw [hidx]
    exact put_append _ _ _ _
  have hcells : t.cells = pre.map Entry.ptr ++ e.ptr :: (post.map Entry.ptr ++ 0 :: rest) := by
    simp [hc]
  have howned : t.owned = pre.map Entry.mine ++ e.mine :: (post.map Entry.mine ++ rest') := by
    simp [ho]
  rw [length_map, length_map, ← hcells] at hshift
  rw [length_map, length_map, ← howned] at hshift'
  rw [hc, length_append, length_cons, length_map, length_append, length_cons] at hcc
  rw [ho, length_append, length_map, length_append, length_cons] at hoc
  refine ⟨_, _, _, hshift, hshift', hput, ?_, ?_, ⟨0 :: rest, by simp⟩,
    ⟨c' :: rest', by simp⟩, ?_, ?_⟩
  · dsimp only
    rw [length_append]
    omega
  · dsimp only
    omega
  · simp only [length_append, length_cons, length_map]
    omega
  · simp only [length_append, length_cons, length_map]
    omega

theorem stripDupes_spec (pre : List Entry) (hn : nlen ≤ name.length) (heq : EQ ∉ name.take nlen)
    (hs : Strings strs (pre ++ post))
    (ht : Tabled t (pre ++ post)) :
    ∃ strs' t', stripDupes name nlen post.length pre.length strs t = some (strs', t') ∧
      Strings strs' (pre ++ Keyed.drop Entry.named post (name.take nlen)) ∧
      Tabled t' (pre ++ Keyed.drop Entry.named post (name.take nlen)) ∧ t'.cap = t.cap ∧
      ∀ p, (∀ e ∈ post, e.mine = true → e.ptr ≠ p) → strs' p = strs p := by
  induction post generalizing pre strs t with
  | nil => exact ⟨strs, t, rfl, hs, ht, rfl, fun _ _ => rfl⟩
  | cons e post ih =>
    obtain ⟨-, hstr⟩ := hs.here e (by simp)
    have hhit : names e.str name nlen = true ↔ e.named = some (name.take nlen) := names_iff hn heq
    rw [length_cons, stripDupes, ht.cell.1]
    simp only [bind_eq_bind, bind_some, hstr]
    split
    · next hnamed =>
      obtain ⟨cells, owned, cells', h1, h2, h3, ht'⟩ := ht.remove
      have hdrop : Keyed.drop Entry.named (e :: post) (name.take nlen) =
          Keyed.drop Entry.named post (name.take nlen) :=
        filter_cons_of_neg (by simpa using hhit.mp hnamed)
      rw [hdrop, ht.cell.2]
      simp only [bind_some, h1, h2, h3]
      have hs' : Strings (if e.mine = true then update strs e.ptr none else strs)
          (pre ++ post) := by
        split
        · next hm => exact hs.free hm
        · exact hs.sublist ((List.Sublist.refl pre).append (sublist_cons_self e post))
      obtain ⟨strs', t', hrun, hs'', ht'', hcap, hkeep⟩ := ih _ hs' ht'
      refine ⟨strs', t', hrun, hs'', ht'', hcap, fun p hp => ?_⟩
      rw [hkeep p fun d hd => hp d (mem_cons_of_mem _ hd)]
      split
      · next hm => exact update_of_ne (hp e mem_cons_self hm).symm _ _
      · rfl
    · next hnamed =>
      have hdrop : Keyed.drop Entry.named (e :: post) (name.take nlen) =
          e :: Keyed.drop Entry.named post (name.take nlen) :=
        filter_cons_of_pos (by simpa using fun h => hnamed (hhit.mpr h))
      rw [append_cons] at hs ht
      obtain ⟨strs', t', hrun, hs', ht', hcap, hkeep⟩ := ih _ hs ht
      rw [length_append, length_singleton] at hrun
      rw [hdrop, append_cons]
      exact ⟨strs', t', hrun, hs', ht', hcap,
        fun p hp => hkeep p fun d hd => hp d (mem_cons_of_mem _ hd)⟩

/-! ### The functions -/

/-- The environment of the state is this list of entries. -/
structure Holds (s : State) (es : List Entry) : Prop where
  strings : Strings s.strs es
  place : (∃ t, s.table = some t ∧ Tabled t es) ∨ (s.table = none ∧ (∀ e ∈ es, e.mine = false) ∧
      ((s.start = none ∧ es = []) ∨ ∃ cells, s.start = some cells ∧
        upToNull cells = some (es.map Entry.ptr)))

variable {s : State} {g : Grants} {want : ℕ}

theorem upToNull_append {ps rest : List Ptr} (h : ∀ p ∈ ps, p ≠ 0) :
    upToNull (ps ++ 0 :: rest) = some ps := by
  induction ps with
  | nil => rfl
  | cons p ps ih =>
    rw [cons_append, upToNull, if_neg (h p mem_cons_self),
      ih fun q hq => h q (mem_cons_of_mem _ hq)]
    rfl

variable {new : Entry}

theorem Tabled.upToNull (ht : Tabled t es) (hs : Strings s.strs es) :
    upToNull t.cells = some (es.map Entry.ptr) := by
  obtain ⟨rest, hc⟩ := ht.cells
  rw [hc]
  refine upToNull_append fun p hp => ?_
  obtain ⟨e, he, rfl⟩ := mem_map.mp hp
  exact (hs.here e he).1

theorem Holds.environ (h : Holds s es) :
    (s.environ = none ∧ es = []) ∨ ∃ cells, s.environ = some cells ∧
    upToNull cells = some (es.map Entry.ptr) := by
  unfold State.environ
  rcases h.place with ⟨t, ht, htab⟩ | ⟨ht, -, hstart⟩
  · rw [ht]
    exact .inr ⟨t.cells, rfl, htab.upToNull h.strings⟩
  · rw [ht]
    exact hstart

theorem scan_spec {cells : List Ptr} (hs : Strings strs es)
    (hcells : upToNull cells = some (es.map Entry.ptr)) (heq : EQ ∉ name) :
    scan strs name cells = some ((Keyed.first Entry.named es name).map Entry.str) := by
  induction cells generalizing es with
  | nil => cases hcells
  | cons p cells ih =>
    rw [Environ.upToNull] at hcells
    rw [scan]
    split at hcells
    · next hp =>
      obtain rfl : es = [] := by
        have := Option.some.inj hcells
        exact map_eq_nil_iff.mp this.symm
      rw [if_pos hp]
      rfl
    · next hp =>
      obtain ⟨ps, hps, hmap⟩ := map_eq_some_iff.mp hcells
      cases es with
      | nil => cases hmap
      | cons e es =>
        obtain ⟨rfl, rfl⟩ := List.cons.inj hmap
        have hhit : names e.str name name.length = true ↔ e.named = some name := by
          have := names_iff (e := e.str) (name.length.le_refl) (by rwa [take_length])
          rwa [take_length] at this
        rw [if_neg hp, (hs.here e mem_cons_self).2]
        simp only [bind_eq_bind, bind_some]
        split
        · next hnamed =>
          rw [Keyed.first_cons_self (hhit.mp hnamed)]
          rfl
        · next hnamed =>
          rw [Keyed.first_cons_ne fun h => hnamed (hhit.mpr h)]
          exact ih (hs.sublist (sublist_cons_self e es)) hps

theorem badName_eq_false (h : badName name = false) : name ≠ [] ∧ EQ ∉ name := by
  unfold badName at h
  rw [Bool.or_eq_false_iff] at h
  exact ⟨by simpa using h.1, by simpa using h.2⟩

theorem getenv_spec (h : Holds s es) (hname : badName name = false) :
    s.getenv (some name) = some ((Keyed.first Entry.named es name).map fun e => val e.str) := by
  obtain ⟨-, heq⟩ := badName_eq_false hname
  unfold State.getenv
  dsimp only
  rw [if_neg (by simp [hname])]
  rcases h.environ with ⟨henv, rfl⟩ | ⟨cells, henv, hcells⟩
  · rw [henv]
    rfl
  · rw [henv]
    dsimp only
    rw [scan_spec h.strings hcells heq]
    cases hfirst : Keyed.first Entry.named es name with
    | none => rfl
    | some e =>
      have hkey : e.named = some name := by simpa using find?_some hfirst
      have hval : e.str.drop (name.length + 1) = val e.str := by
        conv_lhs => rw [(key_eq_some hkey).1]
        rw [drop_append]
        simp
      simp [hval]

theorem adopt_spec (h : Holds s es) (g : Grants) (want : ℕ) :
    ∃ r, s.adopt g want = some r ∧ ∀ s' t, r = some (s', t) → s'.strs = s.strs ∧ s'.table = some t ∧
      Tabled t es ∧ (s.envLen = es.length ∨ es.length + 8 ≤ t.cap) := by
  unfold State.adopt State.envLen
  rcases h.place with ⟨t, ht, htab⟩ | ⟨ht, hmine, hstart⟩
  · rw [ht]
    refine ⟨_, rfl, ?_⟩
    rintro s' t' ⟨⟩
    exact ⟨rfl, ht, htab, .inl htab.len⟩
  · have hsrc : s.source = some (es.map Entry.ptr) := by
      unfold State.source
      rcases hstart with ⟨hnone, rfl⟩ | ⟨cells, hsome, hcells⟩
      · rw [hnone]
        rfl
      · rw [hsome]
        exact hcells
    rw [ht]
    dsimp only
    rw [hsrc]
    simp only [bind_eq_bind, bind_some, length_map]
    split
    · refine ⟨_, rfl, ?_⟩
      rintro s' t' ⟨⟩
      obtain ⟨cap, hcap⟩ : ∃ c, c = if es.length + 8 < want then want else es.length + 8 := ⟨_, rfl⟩
      have hle : es.length + 8 ≤ cap := by
        rw [hcap]
        split <;> omega
      rw [← hcap]
      obtain ⟨rest, hcells⟩ := resize_append (es.map Entry.ptr ++ [0]) [] (n := cap + 1)
        (fun i => (g.junk i).1) (by simp; omega)
      obtain ⟨rest', howned⟩ := resize_append (List.replicate es.length false) [] (n := cap)
        (fun i => (g.junk i).2) (by simp; omega)
      have hflags : es.map Entry.mine = List.replicate es.length false :=
        eq_replicate_iff.mpr ⟨by simp, by simpa using hmine⟩
      refine ⟨rfl, rfl, ⟨rfl, ?_, ⟨rest, by simpa using hcells⟩, ⟨rest', ?_⟩, ?_, ?_⟩, .inr hle⟩
      · dsimp only
        omega
      · rw [hflags]
        simpa using howned
      · exact length_resize _
      · exact (length_resize _).ge
    · refine ⟨_, rfl, ?_⟩
      rintro s' t' ⟨⟩

theorem Tabled.growFlags (ht : Tabled t es) (hn : t.cap ≤ n) (junk : ℕ → Bool) :
    Tabled { t with owned := resize t.owned n junk } es := by
  obtain ⟨rest, ho⟩ := ht.owned
  have hroom := ht.room
  have hlen := ht.len
  obtain ⟨rest', hrest⟩ := resize_append (es.map Entry.mine) rest (n := n) junk (by simp; omega)
  exact ⟨ht.len, ht.room, ht.cells, ⟨rest', ho ▸ hrest⟩, ht.cellsCap,
    (length_resize _).ge.trans' hn⟩

theorem Tabled.growCells (ht : Tabled t es) (hn : t.cap ≤ n) (hflags : n ≤ t.owned.length)
    (junk : ℕ → Ptr) : Tabled { t with cells := resize t.cells (n + 1) junk, cap := n } es := by
  obtain ⟨rest, hc⟩ := ht.cells
  have hroom := ht.room
  have hlen := ht.len
  obtain ⟨rest', hrest⟩ :=
    resize_append (es.map Entry.ptr ++ [0]) rest (n := n + 1) junk (by simp; omega)
  refine ⟨ht.len, hroom.trans hn, ⟨rest', ?_⟩, ht.owned, length_resize _, hflags⟩
  rw [hc]
  simpa using hrest

theorem reserve_spec (h : Holds s es) (g : Grants) (want : ℕ) :
    ∃ s' r, s.reserve g want = some (s', r) ∧ Holds s' es ∧ s'.strs = s.strs ∧
      ∀ t, r = some t → s'.table = some t ∧ Tabled t es ∧
        (s.envLen + 2 ≤ want → es.length + 2 ≤ t.cap) := by
  obtain ⟨r, hrun, hr⟩ := adopt_spec h g want
  unfold State.reserve
  rw [hrun]
  simp only [bind_eq_bind, bind_some]
  cases r with
  | none => exact ⟨s, none, rfl, h, rfl, nofun⟩
  | some p =>
    obtain ⟨s', t⟩ := p
    obtain ⟨hstrs, htab, ht, hroom⟩ := hr s' t rfl
    have hholds : ∀ t', Tabled t' es → Holds { s' with table := some t' } es := fun t' ht' =>
      ⟨hstrs ▸ h.strings, .inl ⟨t', rfl, ht'⟩⟩
    have hs' : Holds s' es := ⟨hstrs ▸ h.strings, .inl ⟨t, htab, ht⟩⟩
    dsimp only
    split
    · next hcap =>
      refine ⟨s', some t, rfl, hs', hstrs, ?_⟩
      rintro t' ⟨⟩
      exact ⟨htab, ht, by omega⟩
    · obtain ⟨n, hn⟩ : ∃ n, n = if t.cap * 2 < want then want else t.cap * 2 := ⟨_, rfl⟩
      have hle : t.cap ≤ n ∧ want ≤ n := by
        rw [hn]
        split <;> omega
      rw [← hn]
      have hflags := ht.growFlags hle.1 fun i => (g.junk i).2
      split
      · exact ⟨s', none, rfl, hs', hstrs, nofun⟩
      · split
        · exact ⟨_, none, rfl, hholds _ hflags, hstrs, nofun⟩
        · have hcells := hflags.growCells hle.1 (length_resize _).ge fun i => (g.junk i).1
          refine ⟨_, _, rfl, hholds _ hcells, hstrs, ?_⟩
          rintro t' ⟨⟩
          refine ⟨rfl, hcells, ?_⟩
          dsimp only
          omega

/-- What an update of the environment does: the entry `new` for its name, or none, the
others as before; only strings of the library are freed. -/
structure Updates (s : State) (es : List Entry) (n : Str) (new : Option Entry) (s' : State)
    (es' : List Entry) :
    Prop where
  holds : Holds s' es'
  self : Keyed.first Entry.named es' n = new
  other : ∀ n', n' ≠ n → Keyed.first Entry.named es' n' = Keyed.first Entry.named es n'
  origin : ∀ e ∈ es', e ∈ es ∨ some e = new
  kept : ∀ q, (∀ e ∈ es, e.mine = true → e.ptr ≠ q) → s'.strs q = s.strs q

structure Fits (strs : Ptr → Option Str) (es : List Entry) (new : Entry) : Prop where
  here : new.ptr ≠ 0 ∧ strs new.ptr = some new.str
  unique : ∀ e ∈ es, e.ptr = new.ptr → e.mine = false ∧ new.mine = false

theorem Strings.insert {post : List Entry}
    (hs : Strings strs (pre ++ post)) (hnew : Fits strs (pre ++ post) new) :
    Strings strs (pre ++ new :: post) := by
  have hu := pairwise_append.mp hs.unique
  refine ⟨fun d hd => ?_,
    pairwise_append.mpr ⟨hu.1, pairwise_cons.mpr ⟨fun d hd heq => ?_, hu.2.1⟩, ?_⟩⟩
  · rcases mem_append.mp hd with hd | hd
    · exact hs.here d (mem_append_left _ hd)
    · rcases mem_cons.mp hd with rfl | hd
      · exact hnew.here
      · exact hs.here d (mem_append_right _ hd)
  · exact (hnew.unique d (mem_append_right _ hd) heq.symm).symm
  · intro a ha d hd
    rcases mem_cons.mp hd with rfl | hd
    · exact hnew.unique a (mem_append_left _ ha)
    · exact hu.2.2 a ha d hd

theorem Strings.replace {post : List Entry} {e : Entry}
    (hs : Strings strs (pre ++ e :: post)) (hnew : Fits strs (pre ++ e :: post) new) :
    Strings (if e.mine then update strs e.ptr none else strs) (pre ++ new :: post) := by
  have hsub : ∀ d ∈ pre ++ post, d ∈ pre ++ e :: post := fun d hd =>
    ((List.Sublist.refl pre).append (sublist_cons_self e post)).subset hd
  split
  · next hm =>
    refine (hs.free hm).insert ⟨⟨hnew.here.1, ?_⟩, fun d hd => hnew.unique d (hsub d hd)⟩
    have hne : new.ptr ≠ e.ptr := by
      intro heq
      have := (hnew.unique e (by simp) heq.symm).1
      rw [hm] at this
      cases this
    rw [update_of_ne hne, hnew.here.2]
  · exact (hs.sublist ((List.Sublist.refl pre).append (sublist_cons_self e post))).insert
      ⟨hnew.here, fun d hd => hnew.unique d (hsub d hd)⟩

theorem Tabled.replace {post : List Entry} {e : Entry} (ht : Tabled t (pre ++ e :: post))
    (new : Entry) :
    ∃ cells owned, put t.cells pre.length new.ptr = some cells ∧ put t.owned pre.length new.mine =
      some owned ∧
      Tabled { t with cells := cells, owned := owned } (pre ++ new :: post) := by
  obtain ⟨rest, hc⟩ := ht.cells
  obtain ⟨rest', ho⟩ := ht.owned
  have hcells : t.cells = pre.map Entry.ptr ++ e.ptr :: (post.map Entry.ptr ++ 0 :: rest) := by
    simp [hc]
  have howned : t.owned = pre.map Entry.mine ++ e.mine :: (post.map Entry.mine ++ rest') := by
    simp [ho]
  have hput := put_append (pre.map Entry.ptr) e.ptr new.ptr (post.map Entry.ptr ++ 0 :: rest)
  have hput' := put_append (pre.map Entry.mine) e.mine new.mine (post.map Entry.mine ++ rest')
  rw [← hcells, length_map] at hput
  rw [← howned, length_map] at hput'
  have hcc := ht.cellsCap
  have hoc := ht.ownedCap
  have hlen := ht.len
  rw [hcells] at hcc
  rw [howned] at hoc
  refine ⟨_, _, hput, hput', ?_, ht.room, ⟨rest, by simp⟩, ⟨rest', by simp⟩, ?_, ?_⟩
  · simpa using hlen
  · simpa using hcc
  · simpa using hoc

theorem Tabled.append (ht : Tabled t es) (hroom : es.length + 2 ≤ t.cap) (new : Entry) :
    ∃ cells owned cells', put t.cells t.len new.ptr = some cells ∧
      put t.owned t.len new.mine = some owned ∧
      put cells (t.len + 1) 0 = some cells' ∧
      Tabled { t with cells := cells', owned := owned, len := t.len + 1 } (es ++ [new]) := by
  obtain ⟨rest, hc⟩ := ht.cells
  obtain ⟨rest', ho⟩ := ht.owned
  have hcc := ht.cellsCap
  have hoc := ht.ownedCap
  have hlen := ht.len
  rw [hc, length_append, length_cons, length_map] at hcc
  rw [ho, length_append, length_map] at hoc
  obtain ⟨x, rest, rfl⟩ : ∃ x r, rest = x :: r := by
    cases rest with
    | nil => simp at hcc; omega
    | cons x r => exact ⟨x, r, rfl⟩
  obtain ⟨y, rest', rfl⟩ : ∃ y r, rest' = y :: r := by
    cases rest' with
    | nil => simp at hoc; omega
    | cons y r => exact ⟨y, r, rfl⟩
  have hput := put_append (es.map Entry.ptr) 0 new.ptr (x :: rest)
  have hput' := put_append (es.map Entry.mine) y new.mine rest'
  have hnull := put_append (es.map Entry.ptr ++ [new.ptr]) x 0 rest
  rw [← hc, length_map, ← hlen] at hput
  rw [← ho, length_map, ← hlen] at hput'
  rw [length_append, length_map, length_singleton, ← hlen, ← append_cons] at hnull
  rw [length_cons] at hcc hoc
  refine ⟨_, _, _, hput, hput', hnull, ?_, ?_, ⟨rest, by simp⟩, ⟨rest', by simp⟩, ?_, ?_⟩
  · simp [hlen]
  · dsimp only
    omega
  · simp only [length_append, length_cons, length_map, length_nil]
    omega
  · simp only [length_append, length_cons, length_map]
    omega

/-- What `env_find` answers. -/
def Found (es : List Entry) (n : Str) (idx : Option ℕ) : Prop :=
  (idx = none ∧ ∀ e ∈ es, e.named ≠ some n) ∨
    ∃ pre e post, idx = some pre.length ∧ es = pre ++ e :: post ∧ (∀ e ∈ pre, e.named ≠ some n) ∧
      e.named = some n

theorem find_spec (hs : Strings strs es) (ht : Tabled t es)
    (hn : nlen ≤ name.length) (heq : EQ ∉ name.take nlen) :
    ∃ idx, findFrom strs t.cells name nlen t.len 0 = some idx ∧ Found es (name.take nlen) idx := by
  have hfind := findFrom_spec [] hn heq hs ht
  rw [← ht.len, length_nil] at hfind
  rcases hfind with ⟨hrun, hnone⟩ | ⟨pre, e, post, hrun, hes, hpre, he⟩
  · exact ⟨none, hrun, .inl ⟨rfl, hnone⟩⟩
  · exact ⟨_, hrun, .inr ⟨pre, e, post, rfl, hes, hpre, he⟩⟩

theorem install_spec (h : Holds s es) (ht : Tabled t es) (hroom : es.length + 2 ≤ t.cap)
    (hnew : Fits s.strs es new) (hn : nlen ≤ name.length) (hkey : new.named = some (name.take nlen))
    {idx : Option ℕ} (hfound : Found es (name.take nlen) idx) :
    ∃ s' es', s.install t new.ptr new.mine name nlen idx = some s' ∧
      Updates s es (name.take nlen) (some new) s' es' := by
  have heq : EQ ∉ name.take nlen := (key_eq_some hkey).2
  rcases hfound with ⟨rfl, hnone⟩ | ⟨pre, e, post, rfl, rfl, hpre, he⟩
  · obtain ⟨cells, owned, cells', h1, h2, h3, ht'⟩ := ht.append hroom new
    refine ⟨{ s with table := some _ }, es ++ [new], ?_, ⟨?_, .inl ⟨_, rfl, ht'⟩⟩, ?_, ?_, ?_, ?_⟩
    · simp only [State.install, bind_eq_bind, h1, h2, h3, bind_some]
    · have hs : Strings s.strs (es ++ []) := by simpa using h.strings
      exact hs.insert (by simpa using hnew)
    · rw [Keyed.first_append_none (Keyed.first_eq_none.mpr hnone), Keyed.first_cons_self hkey]
    · intro n' hne
      have hnot : new.named ≠ some n' := by
        rw [hkey]
        exact fun h => hne (Option.some.inj h).symm
      conv_rhs => rw [← append_nil es]
      exact Keyed.first_append_congr (Keyed.first_cons_ne hnot)
    · intro d hd
      rcases mem_append.mp hd with hd | hd
      · exact .inl hd
      · exact .inr (congrArg some (mem_singleton.mp hd))
    · exact fun _ _ => rfl
  · -- over the first entry with the name; the later ones are taken out
    obtain ⟨cells, owned, h1, h2, ht'⟩ := ht.replace new
    have hs' := h.strings.replace hnew
    rw [append_cons] at hs' ht'
    obtain ⟨strs', t', hstrip, hs'', ht'', -, hkeep⟩ := stripDupes_spec _ hn heq hs' ht'
    rw [append_assoc, singleton_append] at hs'' ht''
    rw [length_append, length_singleton] at hstrip
    have hcount : t.len - (pre.length + 1) = post.length := by
      rw [ht.len, length_append, length_cons]
      omega
    obtain ⟨hcell, hflag⟩ := ht.cell
    refine ⟨{ s with strs := strs', table := some t' },
      pre ++ new :: Keyed.drop Entry.named post (name.take nlen), ?_, ⟨hs'', .inl ⟨t', rfl, ht''⟩⟩,
        ?_, ?_, ?_, ?_⟩
    · simp only [State.install, bind_eq_bind, hcell, hflag, h1, h2, hcount, hstrip, bind_some]
    · rw [Keyed.first_append_none (Keyed.first_eq_none.mpr hpre), Keyed.first_cons_self hkey]
    · intro n' hne
      have hnot : ∀ d : Entry, d.named = some (name.take nlen) → d.named ≠ some n' := by
        intro d hd
        rw [hd]
        exact fun h => hne (Option.some.inj h).symm
      refine Keyed.first_append_congr ?_
      rw [Keyed.first_cons_ne (hnot new hkey), Keyed.first_cons_ne (hnot e he),
        Keyed.first_drop_ne hne]
    · intro d hd
      rcases mem_append.mp hd with hd | hd
      · exact .inl (by simp [hd])
      · rcases mem_cons.mp hd with rfl | hd
        · exact .inr rfl
        · exact .inl (by simp [(mem_filter.mp hd).1])
    · intro q hq
      dsimp only
      rw [hkeep q fun d hd => hq d (by simp [hd])]
      split
      · next hm => exact update_of_ne (hq e (by simp) hm).symm _ _
      · rfl

theorem strip_all_spec (h : Holds s es) (ht : Tabled t es) (heq : EQ ∉ name) :
    ∃ strs' t' es', stripDupes name name.length t.len 0 s.strs t = some (strs', t') ∧
      Updates s es name none { s with strs := strs', table := some t' } es' := by
  have hstrip := stripDupes_spec [] name.length.le_refl (by rwa [take_length]) h.strings ht
  rw [take_length, length_nil, ← ht.len] at hstrip
  obtain ⟨strs', t', hrun, hs', ht', -, hkeep⟩ := hstrip
  refine ⟨strs', t', Keyed.drop Entry.named es name, hrun, ⟨hs', .inl ⟨t', rfl, ht'⟩⟩,
    Keyed.first_drop_self,
    fun n' hne => Keyed.first_drop_ne hne, fun e he => .inl (mem_filter.mp he).1, hkeep⟩

theorem Updates.congr {s₁ s' : State} {n : Str} {new : Option Entry}
    (hu : Updates s₁ es n new s' es') (hstrs : s₁.strs = s.strs) : Updates s es n new s' es' :=
  ⟨hu.holds, hu.self, hu.other, hu.origin, fun q hq => (hu.kept q hq).trans (congrFun hstrs q)⟩

structure Fails (s : State) (es : List Entry) (r : Ret) (s' : State) : Prop where
  ret : ∃ errno, r = .fail errno
  holds : Holds s' es
  strs : s'.strs = s.strs

theorem unsetenv_spec (h : Holds s es) (g : Grants) (hname : badName name = false) :
    ∃ r s', s.unsetenv g (some name) = some (r, s') ∧
      (Fails s es r s' ∨ r = .ok ∧ ∃ es', Updates s es name none s' es') := by
  obtain ⟨-, heq⟩ := badName_eq_false hname
  unfold State.unsetenv
  dsimp only
  rw [if_neg (by simp [hname])]
  rcases h.environ with ⟨henv, rfl⟩ | ⟨cells, henv, hcells⟩
  · rw [henv]
    exact ⟨_, _, rfl, .inr ⟨rfl, [], h, rfl, fun _ _ => rfl, nofun, fun _ _ => rfl⟩⟩
  · rw [henv]
    dsimp only
    rw [scan_spec h.strings hcells heq]
    simp only [bind_eq_bind, bind_some]
    split
    · next hnone =>
      refine ⟨_, _, rfl, .inr ⟨rfl, es, h, ?_, fun _ _ => rfl, fun e he => .inl he, fun _ _ => rfl⟩⟩
      simpa using hnone
    · obtain ⟨s₁, r, hrun, hh₁, hstrs, hr⟩ := reserve_spec h g (s.envLen + 1)
      rw [hrun]
      simp only [bind_some]
      cases r with
      | none => exact ⟨_, _, rfl, .inl ⟨⟨_, rfl⟩, hh₁, hstrs⟩⟩
      | some t =>
        obtain ⟨-, ht, -⟩ := hr t rfl
        obtain ⟨strs', t', es', hstrip, hu⟩ := strip_all_spec hh₁ ht heq
        simp only [hstrip, bind_some]
        exact ⟨_, _, rfl, .inr ⟨rfl, es', hu.congr hstrs⟩⟩

theorem Holds.fresh (h : Holds s es) (hp : s.strs p = none) (str : Str) :
    Holds { s with strs := update s.strs p (some str) } es := by
  refine ⟨⟨fun e he => ?_, h.strings.unique⟩, h.place⟩
  obtain ⟨h0, hstr⟩ := h.strings.here e he
  refine ⟨h0, ?_⟩
  have hne : e.ptr ≠ p := by
    rintro rfl
    rw [hp] at hstr
    cases hstr
  dsimp only
  rw [update_of_ne hne, hstr]

def Entry.made (p : Ptr) (name : Str) (value : Option Str) : Entry :=
    ⟨p, name ++ EQ :: value.getD [], true⟩

theorem setenv_spec (h : Holds s es) (g : Grants) (hname : badName name = false)
    (value : Option Str)
    (overwrite : Bool) (hentry : ∀ p, g.entry = some p → p ≠ 0 ∧ s.strs p = none) :
    ∃ r s', s.setenv g (some name) value overwrite = some (r, s') ∧ (Fails s es r s' ∨
        (r = .ok ∧ s' = s ∧ overwrite = false ∧ (Keyed.first Entry.named es name).isSome) ∨
        r = .ok ∧ (overwrite = true ∨ Keyed.first Entry.named es name = none) ∧
          ∃ p es', g.entry = some p ∧
            Updates { s with strs := update s.strs p (some (Entry.made p name value).str) } es name
              (some (Entry.made p name value)) s' es') := by
  obtain ⟨-, heq⟩ := badName_eq_false hname
  obtain ⟨found, hscan, hfound⟩ : ∃ found, s.existing name overwrite = some found ∧
      (found.isSome = true ↔ overwrite = false ∧
        (Keyed.first Entry.named es name).isSome = true) := by
    unfold State.existing
    cases overwrite with
    | true => exact ⟨none, rfl, by simp⟩
    | false =>
      rcases h.environ with ⟨henv, rfl⟩ | ⟨cells, henv, hcells⟩
      · rw [henv]
        exact ⟨none, rfl, by simp [Keyed.first]⟩
      · rw [henv]
        exact ⟨_, scan_spec h.strings hcells heq, by simp⟩
  unfold State.setenv
  dsimp only
  rw [if_neg (by simp [hname]), hscan]
  simp only [bind_eq_bind, bind_some]
  split
  · next hsome => exact ⟨_, _, rfl, .inr (.inl ⟨rfl, rfl, hfound.mp hsome⟩)⟩
  next hsome =>
  have hnew : overwrite = true ∨ Keyed.first Entry.named es name = none := by
    rw [hfound] at hsome
    cases overwrite with
    | true => exact .inl rfl
    | false => exact .inr (by simpa using hsome)
  obtain ⟨s₁, r, hrun, hh₁, hstrs, hr⟩ := reserve_spec h g (s.envLen + 2)
  rw [hrun]
  simp only [bind_some]
  cases r with
  | none => exact ⟨_, _, rfl, .inl ⟨⟨_, rfl⟩, hh₁, hstrs⟩⟩
  | some t =>
    obtain ⟨-, ht, hroom⟩ := hr t rfl
    have hn := name.length.le_refl
    have heq' : EQ ∉ name.take name.length := by rwa [take_length]
    obtain ⟨idx, hfind, hidx⟩ := find_spec hh₁.strings ht hn heq'
    simp only [hfind, bind_some]
    cases hg : g.entry with
    | none => exact ⟨_, _, rfl, .inl ⟨⟨_, rfl⟩, hh₁, hstrs⟩⟩
    | some p =>
      obtain ⟨hp0, hpn⟩ := hentry p hg
      rw [← hstrs] at hpn
      have hfits : Fits (update s₁.strs p (some (Entry.made p name value).str)) es
          (Entry.made p name value) := by
        refine ⟨⟨hp0, update_self _ _ _⟩, fun e he hep => ?_⟩
        have hstr := (hh₁.strings.here e he).2
        rw [hep] at hstr
        exact absurd (hpn.symm.trans hstr) (by simp)
      have hkey : (Entry.made p name value).named = some (name.take name.length) := by
        rw [take_length]
        exact key_append heq
      obtain ⟨s', es', hinst, hu⟩ :=
        install_spec (hh₁.fresh hpn _) ht (hroom le_rfl) hfits hn hkey hidx
      rw [take_length] at hu
      dsimp only
      refine ⟨.ok, s', ?_, .inr (.inr ⟨rfl, hnew, p, es', rfl, hu.congr ?_⟩)⟩
      · exact congrArg (Option.map fun s => (Ret.ok, s)) hinst
      · dsimp only
        rw [hstrs]

theorem key_eq_take (h : EQ ∈ str) : key str = some (str.take (str.idxOf EQ)) := by
  obtain ⟨as, bs, rfl, has⟩ := eq_append_cons_of_mem h
  rw [key_append has, idxOf_append_of_notMem has]
  simp

theorem putenv_spec (h : Holds s es) (g : Grants) (hp : p ≠ 0) (hstr : s.strs p = some str)
    (hyours : ∀ e ∈ es, e.ptr = p → e.mine = false) :
    ∃ r s', s.putenv g p = some (r, s') ∧ (Fails s es r s' ∨
        (r = .ok ∧ key str = none ∧ ∃ es', Updates s es str none s' es') ∨
        r = .ok ∧ ∃ n es', key str = some n ∧ Updates s es n (some ⟨p, str, false⟩) s' es') := by
  unfold State.putenv
  rw [if_neg hp, hstr]
  simp only [bind_eq_bind, bind_some]
  split
  · exact ⟨_, _, rfl, .inl ⟨⟨_, rfl⟩, h, rfl⟩⟩
  next hempty =>
  split
  · next hno =>
    have hnot : EQ ∉ str := by simpa using hno
    have hbad : badName str = false := by
      unfold badName
      rw [Bool.or_eq_false_iff]
      exact ⟨by simpa using hempty, by simpa using hno⟩
    obtain ⟨r, s', hrun, hres⟩ := unsetenv_spec h g hbad
    refine ⟨r, s', hrun, hres.imp_right fun ⟨hok, hu⟩ => .inl ⟨hok, if_neg hnot, hu⟩⟩
  next hcontains =>
  have hmem : EQ ∈ str := by simpa using hcontains
  split
  · exact ⟨_, _, rfl, .inl ⟨⟨_, rfl⟩, h, rfl⟩⟩
  obtain ⟨s₁, r, hrun, hh₁, hstrs, hr⟩ := reserve_spec h g (s.envLen + 2)
  rw [hrun]
  simp only [bind_some]
  cases r with
  | none => exact ⟨_, _, rfl, .inl ⟨⟨_, rfl⟩, hh₁, hstrs⟩⟩
  | some t =>
    obtain ⟨-, ht, hroom⟩ := hr t rfl
    have hkey := key_eq_take hmem
    have hn : str.idxOf EQ ≤ str.length := idxOf_le_length
    obtain ⟨idx, hfind, hidx⟩ := find_spec hh₁.strings ht hn (key_eq_some hkey).2
    simp only [hfind, bind_some]
    have hfits : Fits s₁.strs es ⟨p, str, false⟩ :=
      ⟨⟨hp, hstrs ▸ hstr⟩, fun e he hep => ⟨hyours e he hep, rfl⟩⟩
    obtain ⟨s', es', hinst, hu⟩ := install_spec hh₁ ht (hroom le_rfl) hfits hn hkey hidx
    exact ⟨.ok, s', congrArg (Option.map fun s => (Ret.ok, s)) hinst,
      .inr (.inr ⟨rfl, _, es', hkey, hu.congr hstrs⟩)⟩

end Sbunix.Environ
