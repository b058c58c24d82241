import Sbunix.Libc.Fnmatch

/-!
# Wildcards of the shell

`glob_match` of `bin/sh/glob_match.h`. The shell does not read a backslash in
brackets and takes one that is not closed as a set. On patterns without these two
it agrees with `fnmatch`, so both decide the language of the pattern.
-/

namespace Sbunix.Shell.Glob

open Libc.Fnmatch List

def plain : Flags := ⟨false, false, false, false, false⟩

/-- The loop is the one of `match_bracket` without the backslash. -/
def globClassMatch (pat : List Char) (c : Char) : Bool × List Char :=
  let (found, p) := bracketLoop { plain with noescape := true } c true false (negation pat).2
  (if (negation pat).1 then !found else found, if p.head? = some ']' then p.tail else p)

theorem globClassMatch_suffix (pat : List Char) (c : Char) : (globClassMatch pat c).2 <:+ pat := by
  have h := (bracketLoop_suffix { plain with noescape := true } c true false (negation pat).2).trans
    (negation_suffix pat)
  unfold globClassMatch
  dsimp only
  split
  · exact (tail_suffix _).trans h
  · exact h

def globMatch (pat name : List Char) : Bool :=
  match pat, name with
  | [], name => name.isEmpty
  | '*' :: p, name =>
    match _h : p.dropWhile (· = '*') with
    | [] => true
    | x :: q => tryFrom (fun _ => false) (fun s => globMatch (x :: q) s) name
  | _ :: _, [] => false
  | '?' :: p, _ :: s => globMatch p s
  | '[' :: p, c :: s => if (globClassMatch p c).1 then globMatch (globClassMatch p c).2 s else false
  | x :: p, c :: s =>
    -- the character itself, or the one behind a backslash
    if (readChar false x p).1 = c then globMatch (readChar false x p).2 s else false
termination_by pat.length
decreasing_by
  · have := (dropWhile_suffix (l := p) (· = '*')).length_le
    rw [_h] at this
    exact Nat.lt_succ_of_le this
  · exact Nat.lt_succ_self _
  · exact Nat.lt_succ_of_le (globClassMatch_suffix p c).length_le
  · exact Nat.lt_succ_of_le (readChar_suffix _ _ p).length_le

/-- Every bracket expression of the pattern is closed and has no backslash. -/
inductive Closed : List Char → Prop
  | nil : Closed []
  | wild {x : Char} {p : List Char} : x ∈ ['*', '?'] → Closed p → Closed (x :: p)
  | set {body q : List Char} {rs : List (Char × Char)} : plain.Bracket (body ++ ']' :: q) rs q →
    '\\' ∉ body → Closed q → Closed ('[' :: (body ++ ']' :: q))
  | char {x : Char} {p : List Char} :
    x ∉ ['*', '?', '['] → Closed (readChar false x p).2 → Closed (x :: p)

variable {p q body pat : List Char} {rs : List (Char × Char)} {x c : Char}

theorem Closed.of_wild (h : Closed (x :: p)) (hx : x ∈ ['*', '?']) : Closed p := by
  cases h with
  | wild _ h => exact h
  | set => simp at hx
  | char hn _ => simp_all

theorem Closed.dropStars (h : Closed p) : Closed (p.dropWhile (· = '*')) := by
  induction p with
  | nil => exact h
  | cons x p ih =>
    rw [dropWhile_cons]
    split
    · next hx =>
      obtain rfl : x = '*' := by simpa using hx
      exact ih (h.of_wild (by simp))
    · exact h

theorem Ranges.close_suffix {n first : Bool} (h : Ranges n first p rs q) : ']' :: q <:+ p := by
  induction h with
  | close => exact suffix_refl _
  | range _ _ ih => exact ih.trans ((readRange_suffix _ _ _).trans (suffix_cons _ _))

theorem readChar_plain (n : Bool) (hx : x ≠ '\\') (p : List Char) : readChar n x p = (x, p) := by
  cases p <;> simp [readChar, hx]

/-- Without a backslash the range and what is behind it do not depend on `FNM_NOESCAPE`. -/
theorem readRange_body (q : List Char) (hb : '\\' ∉ x :: body) :
    readRange true x (body ++ ']' :: q) = readRange false x (body ++ ']' :: q) ∧
      ∃ b, (readRange false x (body ++ ']' :: q)).2 = b ++ ']' :: q ∧ '\\' ∉ b := by
  rw [mem_cons, not_or] at hb
  obtain ⟨hx, hb⟩ := hb
  have hx := fun n => readChar_plain n (Ne.symm hx)
  rcases body with _ | ⟨y, body⟩
  · exact ⟨by simp [readRange, hx], [], by simp [readRange, hx]⟩
  by_cases hy : y = '-'
  · subst hy
    rcases body with _ | ⟨d, body⟩
    · exact ⟨by simp [readRange, hx], ['-'], by simp [readRange, hx]⟩
    obtain ⟨hd, hbody⟩ : '\\' ≠ d ∧ '\\' ∉ body := by simpa using hb
    have hd := fun n => readChar_plain n (Ne.symm hd)
    by_cases hclose : d = ']'
    · exact ⟨by simp [readRange, hx, hclose], '-' :: d :: body, by simp [readRange, hx, hclose], hb⟩
    · exact ⟨by simp [readRange, hx, hclose, hd], body, by simp [readRange, hx, hclose, hd], hbody⟩
  · exact ⟨by simp [readRange, hx, hy], y :: body, by simp [readRange, hx, hy], hb⟩

theorem Ranges.noescape {first : Bool} (h : Ranges false first p rs q) (hp : p = body ++ ']' :: q)
    (hb : '\\' ∉ body) : Ranges true first p rs q := by
  induction h generalizing body with
  | close => exact .close
  | @range first x p q rs hx h ih =>
    rcases body with _ | ⟨y, body⟩
    · -- the bracket would close at its own start
      cases hp
      have := ((Ranges.close_suffix h).trans (readRange_suffix _ _ _)).length_le
      exact absurd this (Nat.not_succ_le_self _)
    · obtain ⟨rfl, rfl⟩ : x = y ∧ p = body ++ ']' :: q := by simpa using hp
      obtain ⟨heq, b, hrest, hb'⟩ := readRange_body q hb
      rw [← heq] at hrest ih ⊢
      exact .range hx (ih hrest hb')

theorem globClassMatch_eq (h : plain.Bracket (body ++ ']' :: q) rs q) (hb : '\\' ∉ body) :
    globClassMatch (body ++ ']' :: q) c =
      (rs.any (inRange false c) ^^ (negation (body ++ ']' :: q)).1, q) := by
  have hbody : ∃ b, (negation (body ++ ']' :: q)).2 = b ++ ']' :: q ∧ '\\' ∉ b := by
    rcases body with _ | ⟨y, body⟩
    · exact ⟨[], rfl, hb⟩
    · rw [cons_append, negation]
      split
      · exact ⟨body, rfl, fun h => hb (by simp [h])⟩
      · exact ⟨y :: body, rfl, hb⟩
  obtain ⟨b, hneg, hb'⟩ := hbody
  have hloop := (Ranges.noescape h.1 hneg hb').loop (f := { plain with noescape := true })
    (c := c) false
  rw [globClassMatch, hloop]
  cases (negation (body ++ ']' :: q)).1 <;> simp [plain]

theorem Closed.bracket (h : Closed ('[' :: p)) (c : Char) (s : List Char) :
    Closed (globClassMatch p c).2 ∧ doFnmatch plain ('[' :: p) (c :: s) false =
      if (globClassMatch p c).1 then doFnmatch plain (globClassMatch p c).2 s false else false := by
  cases h with
  | wild hx _ | char hx _ => simp at hx
  | @set body q rs hb hbody hq =>
    rw [globClassMatch_eq hb hbody]
    refine ⟨hq, ?_⟩
    rw [doFnmatch, if_neg (by simp [plain])]
    split
    · next hnone =>
      rw [matchBracket_eq hb] at hnone
      cases hnone
    · next hsome =>
      rw [matchBracket_eq hb] at hsome
      cases hsome
      rfl

theorem globMatch_eq (h : Closed pat) (name : List Char) :
    globMatch pat name = doFnmatch plain pat name false := by
  fun_induction globMatch pat name with
  | case1 name => simp [doFnmatch, plain]
  | case2 p name hstars =>
    rw [doFnmatch]
    split
    · rfl
    · simp_all
  | case3 p name x q hstars ih =>
    have hq : Closed (x :: q) := hstars ▸ (h.of_wild (by simp)).dropStars
    rw [doFnmatch]
    split
    · simp_all
    · next y r hr =>
      cases hstars.symm.trans hr
      rw [funext fun s => ih s hq]
      simp [plain]
  | case4 x p hx => simp [doFnmatch]
  | case5 p c s ih =>
    have hp : Closed p := h.of_wild (by simp)
    simpa [doFnmatch, plain] using ih hp
  | case6 p c s hin ih =>
    obtain ⟨hq, heq⟩ := h.bracket c s
    rw [ih hq, heq, if_pos hin]
  | case7 p c s hin => rw [(h.bracket c s).2, if_neg hin]
  | case8 x p s h1 h2 h3 ih =>
    have hp : Closed (readChar false x p).2 := by
      cases h with
      | char _ h => exact h
      | wild hx _ => simp_all
      | set => cases h3 rfl
    rw [ih hp, doFnmatch, if_pos] <;> simp_all [plain, fold]
  | case9 x p c s h1 h2 h3 hne => rw [doFnmatch, if_neg] <;> simp_all [plain, fold]

/-- On such patterns `glob_match` and `fnmatch` without flags decide the language of the pattern. -/
theorem globMatch_language {pat : List Char} (h : Closed pat) (name : List Char) :
    (globMatch pat name = true ↔ fnmatch pat name plain = 0) ∧
      (globMatch pat name = true ↔ Lang plain true pat name) := by
  have hlang : doFnmatch plain pat name false = true ↔ Lang plain true pat name :=
    doFnmatch_iff rfl rfl rfl nofun ⟨nofun, nofun⟩
  rw [globMatch_eq h, hlang, ← hlang, fnmatch]
  simp [plain, FNM_NOMATCH]

theorem globMatch_language_set :
    (globMatch ['[', 'a', ']', '*'] ['a', 'b'] = true ↔
    fnmatch ['[', 'a', ']', '*'] ['a', 'b'] plain = 0) ∧
      (globMatch ['[', 'a', ']', '*'] ['a', 'b'] = true ↔
        Lang plain true ['[', 'a', ']', '*'] ['a', 'b']) :=
  globMatch_language (@Closed.set ['a'] ['*'] _ ⟨.range nofun .close, nofun⟩ (by decide)
    (.wild (by decide) .nil)) _

end Sbunix.Shell.Glob
