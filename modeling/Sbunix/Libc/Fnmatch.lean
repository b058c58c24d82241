import Mathlib.Data.Bool.Basic
import Mathlib.Data.List.Basic

/-!
# Wildcard patterns

`fnmatch` of `libc/fnmatch.c` on strings without the null that ends them. A
pattern has a language: the strings that `*`, `?`, bracket expressions, quoted
and plain characters spell, where `FNM_PATHNAME` keeps wildcards from `/` and
`FNM_PERIOD` from a leading period. The matcher agrees with it unless these two
flags meet a `/` or a leading period in the string. Character classes (`[:`) are
not read, here and in the source.
-/

namespace Sbunix.Libc.Fnmatch

open List

structure Flags where
  pathname : Bool
  noescape : Bool
  period : Bool
  leadingDir : Bool
  casefold : Bool

def fold (casefold : Bool) (c : Char) : Char := if casefold then c.toLower else c

/-- `lo = *p++`, and what is behind a backslash. -/
def readChar (noescape : Bool) (c : Char) : List Char → Char × List Char
  | d :: p => if c = '\\' ∧ noescape = false then (d, p) else (c, d :: p)
  | [] => (c, [])

/-- One round of the loop: `lo` and `hi`. -/
def readRange (noescape : Bool) (c : Char) (p : List Char) : (Char × Char) × List Char :=
  let (lo, p) := readChar noescape c p
  match p with
  | '-' :: d :: q =>
    if d = ']' then ((lo, lo), p)
    else
      let (hi, q) := readChar noescape d q
      ((lo, hi), q)
  | _ => ((lo, lo), p)

def inRange (casefold : Bool) (c : Char) (r : Char × Char) : Bool :=
  fold casefold r.1 ≤ fold casefold c && fold casefold c ≤ fold casefold r.2

theorem readChar_suffix (n : Bool) (c : Char) (p : List Char) : (readChar n c p).2 <:+ p := by
  unfold readChar
  split
  · split
    · exact suffix_cons _ _
    · exact suffix_refl _
  · exact suffix_refl _

theorem readRange_suffix (n : Bool) (c : Char) (p : List Char) : (readRange n c p).2 <:+ p := by
  have h := readChar_suffix n c p
  unfold readRange
  dsimp only
  split
  · next d q hp =>
    split
    · exact h
    · refine (readChar_suffix n d q).trans (((suffix_cons d q).trans (suffix_cons '-' _)).trans ?_)
      rwa [hp] at h
  · exact h

/-- The loop of `match_bracket`: whether the character matched, and where the loop ends. -/
def bracketLoop (f : Flags) (c : Char) (first matched : Bool) : List Char → Bool × List Char
  | [] => (matched, [])
  | x :: p =>
    if first = false ∧ x = ']' then (matched, x :: p)
    else
      bracketLoop f c false (matched || inRange f.casefold c (readRange f.noescape x p).1)
        (readRange f.noescape x p).2
termination_by p => p.length
decreasing_by exact Nat.lt_succ_of_le (readRange_suffix _ x p).length_le

def negation : List Char → Bool × List Char
  | x :: p => if x = '!' ∨ x = '^' then (true, p) else (false, x :: p)
  | [] => (false, [])

/-- `match_bracket`: `none` if the bracket is not closed. -/
def matchBracket (f : Flags) (p : List Char) (c : Char) : Option (Bool × List Char) :=
  match bracketLoop f c true false (negation p).2 with
  | (matched, ']' :: q) => some (matched ^^ (negation p).1, q)
  | _ => none

theorem negation_suffix (p : List Char) : (negation p).2 <:+ p := by
  unfold negation
  split
  · split
    · exact suffix_cons _ _
    · exact suffix_refl _
  · exact suffix_refl _

theorem bracketLoop_suffix (f : Flags) (c : Char) (first matched : Bool) (p : List Char) :
    (bracketLoop f c first matched p).2 <:+ p := by
  fun_induction bracketLoop f c first matched p with
  | case1 | case2 => exact suffix_refl _
  | case3 first matched x p hx ih =>
    exact ih.trans ((readRange_suffix _ x p).trans (suffix_cons x p))

variable {b first : Bool}

theorem matchBracket_suffix {f : Flags} {p q : List Char} {c : Char}
    (h : matchBracket f p c = some (b, q)) : q <:+ p := by
  have hloop := bracketLoop_suffix f c true false (negation p).2
  unfold matchBracket at h
  split at h
  · next m r hr =>
    cases h
    rw [hr] at hloop
    exact (suffix_cons ']' q).trans (hloop.trans (negation_suffix p))
  · cases h

/-- `for (; *s; s++)` around the rest of the pattern, and the attempt at the end. -/
def tryFrom (stop : Char → Bool) (g : List Char → Bool) : List Char → Bool
  | [] => g []
  | c :: s => if stop c then g (c :: s) else g (c :: s) || tryFrom stop g s

def doFnmatch (f : Flags) (p s : List Char) (leading : Bool) : Bool :=
  match p, s with
  | [], s => s.isEmpty || (f.leadingDir && s.head? = some '/')
  | '*' :: p, s =>
    match _h : p.dropWhile (· = '*') with
    | [] => !(f.pathname && s.contains '/')
    | x :: q =>
      if leading then false
      else tryFrom (fun c => f.pathname && c = '/' && x ≠ '/')
        (fun s => doFnmatch { f with period := false } (x :: q) s false) s
  | _ :: _, [] => false
  | '?' :: p, c :: s =>
    if (f.pathname && c = '/') || leading then false else doFnmatch f p s false
  | '[' :: p, c :: s =>
    if (f.pathname && c = '/') || leading then false
    else
      match _h : matchBracket f p c with
      | none => if fold f.casefold '[' = fold f.casefold c then doFnmatch f p s false else false
      | some (b, q) => if b then doFnmatch f q s false else false
  | x :: p, c :: s =>
    -- the character itself, or the one behind a backslash
    if fold f.casefold (readChar f.noescape x p).1 = fold f.casefold c then
      doFnmatch f (readChar f.noescape x p).2 s (f.period && c = '/' && s.head? = some '.')
    else false
termination_by p.length
decreasing_by
  · have := (dropWhile_suffix (l := p) (· = '*')).length_le
    rw [_h] at this
    exact Nat.lt_succ_of_le this
  · exact Nat.lt_succ_self _
  · exact Nat.lt_succ_self _
  · exact Nat.lt_succ_of_le (matchBracket_suffix _h).length_le
  · exact Nat.lt_succ_of_le (readChar_suffix _ _ p).length_le

def FNM_NOMATCH : ℕ := 1

def fnmatch (pattern string : List Char) (f : Flags) : ℕ :=
  if doFnmatch f pattern string (f.period && string.head? = some '.') then 0 else FNM_NOMATCH

/-! ### The language of a pattern -/

/-- The ranges of a bracket expression up to its end, and what is behind it. -/
inductive Ranges (noescape : Bool) : Bool → List Char → List (Char × Char) → List Char → Prop
  | close {p : List Char} : Ranges noescape false (']' :: p) [] p
  | range {first : Bool} {x : Char} {p q : List Char} {rs : List (Char × Char)} :
    (first = false → x ≠ ']') → Ranges noescape false (readRange noescape x p).2 rs q →
    Ranges noescape first (x :: p) ((readRange noescape x p).1 :: rs) q

/-- A bracket expression at the start of `p`. With `FNM_PATHNAME` it has no slash. -/
def Flags.Bracket (f : Flags) (p : List Char) (rs : List (Char × Char)) (q : List Char) : Prop :=
  Ranges f.noescape true (negation p).2 rs q ∧
    (f.pathname = true → '/' ∉ p.take (p.length - q.length))

/-- Whether a wildcard may match `c`, in a leading position or not. -/
def Flags.Wild (f : Flags) (lead : Bool) (c : Char) : Prop :=
  (f.pathname = true → c ≠ '/') ∧ (f.period = true → lead = true → c ≠ '.')

inductive Lang (f : Flags) : Bool → List Char → List Char → Prop
  | nil {lead : Bool} : Lang f lead [] []
  | skip {lead : Bool} {p s : List Char} : Lang f lead p s → Lang f lead ('*' :: p) s
  | take {lead : Bool} {c : Char} {p s : List Char} : f.Wild lead c → Lang f false ('*' :: p) s →
    Lang f lead ('*' :: p) (c :: s)
  | any {lead : Bool} {c : Char} {p s : List Char} : f.Wild lead c → Lang f false p s →
    Lang f lead ('?' :: p) (c :: s)
  | set {lead : Bool} {c : Char} {p q s : List Char} {rs : List (Char × Char)} :
    f.Bracket p rs q → f.Wild lead c → rs.any (inRange f.casefold c) ≠ (negation p).1 →
    Lang f false q s → Lang f lead ('[' :: p) (c :: s)
  | unclosed {lead : Bool} {p s : List Char} : (∀ rs q, ¬f.Bracket p rs q) → Lang f false p s →
    Lang f lead ('[' :: p) ('[' :: s)
  | char {lead : Bool} {x : Char} {p s : List Char} : x ∉ ['*', '?', '['] →
    Lang f (f.pathname && (readChar f.noescape x p).1 = '/') (readChar f.noescape x p).2 s →
    Lang f lead (x :: p) ((readChar f.noescape x p).1 :: s)

variable {f g : Flags} {lead : Bool} {c : Char} {p q s : List Char} {rs : List (Char × Char)}

/-- The loop of `match_bracket` reads the ranges and looks for the character in them. -/
theorem Ranges.loop (h : Ranges f.noescape first p rs q) (matched : Bool) :
    bracketLoop f c first matched p = (matched || rs.any (inRange f.casefold c), ']' :: q) := by
  induction h generalizing matched with
  | close => simp [bracketLoop]
  | range hx _ ih => rw [bracketLoop, if_neg fun hn => hx hn.1 hn.2, ih, any_cons, Bool.or_assoc]

theorem ranges_of_loop {matched m : Bool} (h : bracketLoop f c first matched p = (m, ']' :: q)) :
    ∃ rs, Ranges f.noescape first p rs q := by
  fun_induction bracketLoop f c first matched p with
  | case1 => cases h
  | case2 first matched x p hx =>
    obtain ⟨rfl, rfl⟩ := hx
    cases h
    exact ⟨[], .close⟩
  | case3 first matched x p hx ih =>
    obtain ⟨rs, hrs⟩ := ih h
    exact ⟨_, .range (fun h1 h2 => hx ⟨h1, h2⟩) hrs⟩

theorem matchBracket_eq (h : f.Bracket p rs q) :
    matchBracket f p c = some (rs.any (inRange f.casefold c) ^^ (negation p).1, q) := by
  rw [matchBracket, h.1.loop]
  rfl

theorem bracket_of_matchBracket (hp : f.pathname = true → '/' ∉ p)
    (h : matchBracket f p c = some (b, q)) : ∃ rs, f.Bracket p rs q := by
  unfold matchBracket at h
  split at h
  · next m r hr =>
    cases h
    obtain ⟨rs, hrs⟩ := ranges_of_loop hr
    exact ⟨rs, hrs, fun hf hm => hp hf (mem_of_mem_take hm)⟩
  · cases h

structure Easy (f : Flags) (lead : Bool) (s : List Char) : Prop where
  slash : f.pathname = true ∨ f.period = true → '/' ∉ s
  dot : f.period = true → lead = true → s.head? ≠ some '.'

theorem Easy.wild (h : Easy f lead (c :: s)) : f.Wild lead c :=
  ⟨fun hf he => h.slash (.inl hf) (he ▸ mem_cons_self),
    fun hf hl he => h.dot hf hl (congrArg some he)⟩

theorem Easy.suffix (h : Easy f lead s) (hq : q <:+ s) : Easy f false q :=
  ⟨fun hf hm => h.slash hf (hq.subset hm), nofun⟩

theorem Easy.tail (h : Easy f lead (c :: s)) : Easy f false s := h.suffix (suffix_cons c s)

theorem Easy.after (h : Easy f lead (c :: s)) : (f.pathname && c = '/') = false := by
  have := h.wild.1
  cases hf : f.pathname <;> simp_all

theorem Lang.easy (h : Lang f lead p s) {l : Bool} (hb : f.Bracket = g.Bracket)
    (hn : f.noescape = g.noescape)
    (hc : f.casefold = g.casefold) (he : Easy g l s) : Lang g l p s := by
  induction h generalizing l with
  | nil => exact .nil
  | skip _ ih => exact .skip (ih he)
  | take _ _ ih => exact .take he.wild (ih he.tail)
  | any _ _ ih => exact .any he.wild (ih he.tail)
  | set hi _ hin _ ih => exact .set (hb ▸ hi) he.wild (hc ▸ hin) (ih he.tail)
  | unclosed hi _ ih => exact .unclosed (hb ▸ hi) (ih he.tail)
  | char hx _ ih =>
    rw [hn] at he ih ⊢
    refine .char hx ?_
    rw [he.after]
    exact ih he.tail

theorem lang_star (he : Easy f lead s) :
    Lang f lead ('*' :: p) s ↔ ∃ b, b <:+ s ∧ Lang f false p b := by
  constructor
  · intro h
    induction s generalizing lead with
    | nil =>
      cases h with
      | skip h => exact ⟨[], suffix_refl _, h.easy rfl rfl rfl (he.suffix (suffix_refl _))⟩
    | cons c s ih =>
      cases h with
      | skip h => exact ⟨_, suffix_refl _, h.easy rfl rfl rfl (he.suffix (suffix_refl _))⟩
      | take _ h =>
        obtain ⟨b, hb, hl⟩ := ih he.tail h
        exact ⟨b, hb.trans (suffix_cons c s), hl⟩
      | char hx _ => simp at hx
  · rintro ⟨b, ⟨a, rfl⟩, hb⟩
    induction a generalizing lead with
    | nil => exact .skip (hb.easy rfl rfl rfl he)
    | cons c a ih => exact .take he.wild (ih he.tail)

theorem lang_stars (he : Easy f lead s) :
    Lang f lead ('*' :: p) s ↔ Lang f lead ('*' :: p.dropWhile (· = '*')) s := by
  induction p with
  | nil => rfl
  | cons x p ih =>
    rw [dropWhile_cons]
    split
    · next hx =>
      rw [← ih, lang_star he, lang_star he]
      obtain rfl : x = '*' := by simpa using hx
      constructor
      · rintro ⟨b, hb, hl⟩
        obtain ⟨d, hd, hl⟩ := (lang_star (he.suffix hb)).mp hl
        exact ⟨d, hd.trans hb, hl⟩
      · rintro ⟨b, hb, hl⟩
        exact ⟨b, hb, .skip hl⟩
    · rfl

theorem tryFrom_iff {stop : Char → Bool} {t : List Char → Bool} (hs : ∀ c ∈ s, stop c = false) :
    tryFrom stop t s = true ↔ ∃ b, b <:+ s ∧ t b = true := by
  induction s with
  | nil => simp [tryFrom]
  | cons c s ih =>
    rw [tryFrom, if_neg (by simp [hs c mem_cons_self]), Bool.or_eq_true,
      ih fun d hd => hs d (mem_cons_of_mem _ hd)]
    constructor
    · rintro (h | ⟨b, hb, h⟩)
      · exact ⟨_, suffix_refl _, h⟩
      · exact ⟨b, hb.trans (suffix_cons c s), h⟩
    · rintro ⟨b, hb, h⟩
      rcases suffix_cons_iff.mp hb with rfl | hb
      · exact .inl h
      · exact .inr ⟨b, hb, h⟩

theorem lang_bracket (hp : f.pathname = true → '/' ∉ p) (he : Easy f lead (c :: s)) :
    Lang f lead ('[' :: p) (c :: s) ↔ match matchBracket f p c with
      | none => c = '[' ∧ Lang f false p s
      | some (b, q) => b = true ∧ Lang f false q s := by
  constructor
  · intro h
    cases h with
    | set hi _ hin h =>
      rw [matchBracket_eq hi]
      exact ⟨by simpa using hin, h⟩
    | unclosed hno h =>
      rcases hb : matchBracket f p '[' with _ | ⟨b, q⟩
      · exact ⟨rfl, h⟩
      · obtain ⟨rs, hi⟩ := bracket_of_matchBracket hp hb
        exact absurd hi (hno _ _)
    | char hx _ => simp at hx
  · rcases hb : matchBracket f p c with _ | ⟨b, q⟩
    · rintro ⟨rfl, h⟩
      refine .unclosed (fun rs q hi => ?_) h
      rw [matchBracket_eq hi] at hb
      cases hb
    · rintro ⟨rfl, h⟩
      obtain ⟨rs, hi⟩ := bracket_of_matchBracket hp hb
      rw [matchBracket_eq hi] at hb
      exact .set hi he.wild (by simpa using hb) h

theorem lang_any (he : Easy f lead (c :: s)) :
    Lang f lead ('?' :: p) (c :: s) ↔ Lang f false p s := by
  constructor
  · intro h
    cases h with
    | any _ h => exact h
    | char hx _ => simp at hx
  · exact .any he.wild

theorem lang_char {x : Char} (hx : x ∉ ['*', '?', '[']) (he : Easy f lead (c :: s)) :
    Lang f lead (x :: p) (c :: s) ↔
      (readChar f.noescape x p).1 = c ∧ Lang f false (readChar f.noescape x p).2 s := by
  have hafter := he.after
  constructor
  · intro h
    cases h with
    | char _ h =>
      rw [hafter] at h
      exact ⟨rfl, h⟩
    | _ => simp at hx
  · rintro ⟨rfl, h⟩
    refine .char hx ?_
    rwa [hafter]

theorem doFnmatch_iff {leading : Bool} (hl : leading = false) (hc : f.casefold = false)
    (hd : f.leadingDir = false) (hp : f.pathname = true → '/' ∉ p) (he : Easy f lead s) :
    doFnmatch f p s leading = true ↔ Lang f lead p s := by
  have hfold : ∀ {b : Bool} (x : Char), b = false → fold b x = x := fun x hb => by simp [fold, hb]
  have hrest : ∀ {b : Bool} {p : List Char} {x : Char} {q : List Char}, (b = true → '/' ∉ x :: p) →
      q <:+ p → b = true → '/' ∉ q := fun h hq hb hm => h hb (mem_cons_of_mem _ (hq.subset hm))
  fun_induction doFnmatch f p s leading generalizing lead with
  | case1 f leading s =>
    rw [hd, Bool.false_and, Bool.or_false, List.isEmpty_iff]
    constructor
    · rintro rfl
      exact .nil
    · intro h
      cases h
      rfl
  | case2 f leading p s hstars =>
    have hslash : (!(f.pathname && s.contains '/')) = true := by
      have := he.slash
      cases hf : f.pathname <;> simp_all
    rw [lang_stars he, hstars, lang_star he, hslash]
    exact ⟨fun _ => ⟨[], nil_suffix, .nil⟩, fun _ => rfl⟩
  | case3 => cases hl
  | case4 f leading p s x q hstars _ ih =>
    have hstop : ∀ c ∈ s, (f.pathname && c = '/' && x ≠ '/') = false := by
      intro c hm
      have : f.pathname = true → c ≠ '/' := fun hf hs => he.slash (.inl hf) (hs ▸ hm)
      cases hf : f.pathname <;> simp_all
    rw [lang_stars he, hstars, lang_star he, tryFrom_iff hstop]
    refine exists_congr fun b => and_congr_right fun hb => ?_
    -- the rest of the pattern is matched without `FNM_PERIOD`
    have heb : Easy { f with period := false } false b :=
      ⟨fun hf => (he.suffix hb).slash (.inl (hf.resolve_right nofun)), nofun⟩
    refine (ih b rfl hc hd (hrest hp (hstars ▸ dropWhile_suffix _)) heb).trans ?_
    exact ⟨fun h => h.easy rfl rfl rfl (he.suffix hb), fun h => h.easy rfl rfl rfl heb⟩
  | case5 f leading x p hx =>
    refine ⟨nofun, fun h => ?_⟩
    cases h
    cases hx rfl
  | case6 f leading p c s hbad | case8 f leading p c s hbad => simp [hl, he.after] at hbad
  | case7 f leading p c s _ ih =>
    exact (ih rfl hc hd (hrest hp (suffix_refl _)) he.tail).trans (lang_any he).symm
  | case9 f leading p c s _ hnone heq ih =>
    rw [hfold _ hc, hfold _ hc] at heq
    have hp := hrest hp (suffix_refl _)
    rw [lang_bracket hp he, hnone]
    refine (ih rfl hc hd hp he.tail).trans ?_
    simp [← heq]
  | case10 f leading p c s _ hnone hne =>
    rw [hfold _ hc, hfold _ hc] at hne
    rw [lang_bracket (hrest hp (suffix_refl _)) he, hnone]
    simp [Ne.symm hne]
  | case11 f leading p c s _ q hb ih =>
    rw [lang_bracket (hrest hp (suffix_refl _)) he, hb]
    refine (ih rfl hc hd (hrest hp (matchBracket_suffix hb)) he.tail).trans ?_
    simp
  | case12 f leading p c s _ b q hb hfalse =>
    rw [lang_bracket (hrest hp (suffix_refl _)) he, hb]
    simp [hfalse]
  | case13 f leading x p c s h1 h2 h3 heq ih =>
    rw [hfold _ hc, hfold _ hc] at heq
    have hx : x ∉ ['*', '?', '['] := by simpa using ⟨h1, h2, h3⟩
    rw [lang_char hx he]
    have hleading : (f.period && c = '/' && s.head? = some '.') = false := by
      have : f.period = true → c ≠ '/' := fun hf hs => he.slash (.inr hf) (hs ▸ mem_cons_self)
      cases hf : f.period <;> simp_all
    refine (ih hleading hc hd (hrest hp (readChar_suffix _ x p)) he.tail).trans ?_
    simp [heq]
  | case14 f leading x p c s h1 h2 h3 hne =>
    rw [hfold _ hc, hfold _ hc] at hne
    have hx : x ∉ ['*', '?', '['] := by simpa using ⟨h1, h2, h3⟩
    rw [lang_char hx he]
    simp [hne]

end Sbunix.Libc.Fnmatch
