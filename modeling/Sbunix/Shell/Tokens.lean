import Mathlib.Data.List.TakeWhile
import Sbunix.Lib.Bytes

/-!
# The tokens of a command line

`tokenize` and `expand_globs` of `bin/sh/sh.c`. A word that is not quoted ends at
a blank or at an operator, and the character that ends it is overwritten by the
NUL of the word and skipped: blanks are meant, operators are lost.
-/

namespace Sbunix.Shell

open List Lib

abbrev Word := List UInt8

def MAXLINE : ℕ := 256
def MAXTOK : ℕ := 128
def MAXARG : ℕ := 64

/-- `struct token`, as `tokenize` leaves it. -/
inductive Token
  | word (quoted : Bool) (val : Word)
  | pipe | redirIn | redirOut | redirAppend | and | bg | semi
  deriving DecidableEq, Repr

/-- A token for the line runner, which does not look at `quoted`; `fin` is `T_END`. -/
inductive Tok
  | word (val : Word)
  | pipe | redirIn | redirOut | redirAppend | and | bg | semi | fin
  deriving DecidableEq, Repr

def SPACE : UInt8 := 32
def TAB : UInt8 := 9
def PIPE : UInt8 := 124
def AMP : UInt8 := 38
def SEMI : UInt8 := 59
def LESS : UInt8 := 60
def GREATER : UInt8 := 62
def DQUOTE : UInt8 := 34
def QUOTE : UInt8 := 39

def isSpace (c : UInt8) : Bool := c = SPACE || c = TAB

def endsWord (c : UInt8) : Bool :=
  isSpace c || c = PIPE || c = LESS || c = GREATER || c = SEMI || c = AMP

/-- The token that starts with `c`, and where `tokenize` goes on. -/
def nextToken (c : UInt8) (p : List UInt8) : Token × List UInt8 :=
  if c = PIPE then (.pipe, p)
  else if c = AMP ∧ p.head? = some AMP then (.and, p.tail)
  else if c = AMP then (.bg, p)
  else if c = SEMI then (.semi, p)
  else if c = LESS then (.redirIn, p)
  else if c = GREATER then
    if p.head? = some GREATER then (.redirAppend, p.tail) else (.redirOut, p)
  else if c = DQUOTE ∨ c = QUOTE then
    (.word true (p.takeWhile (· ≠ c)), (p.dropWhile (· ≠ c)).tail)
  else
    -- the character that ended the word is skipped, whatever it is
    (.word false (c :: p.takeWhile (!endsWord ·)), (p.dropWhile (!endsWord ·)).tail)

/-- The loop of `tokenize`, with `n` tokens stored so far. -/
def tokenizeFrom : ℕ → ℕ → List UInt8 → List Token
  | 0, _, _ => []
  | fuel + 1, n, p =>
    if n < MAXTOK - 1 then
      match p.dropWhile isSpace with
      | [] => []
      | c :: p => (nextToken c p).1 :: tokenizeFrom fuel (n + 1) (nextToken c p).2
    else []

def tokenize (line : List UInt8) : List Token := tokenizeFrom (line.length + 1) 0 line

/-- What `readline`, `run_script` and `sh -c` keep of a line. -/
def linebuf (line : List UInt8) : List UInt8 := line.take (MAXLINE - 1)

/-! ### Texts of a token list -/

/-- The text `t` spells the tokens, with `sep` for what may follow an unquoted word. -/
inductive Spells (sep : UInt8 → Bool) : List UInt8 → List Token → Prop
  | nil : Spells sep [] []
  | blank {c : UInt8} {t : List UInt8} {ts : List Token} : isSpace c = true → Spells sep t ts →
    Spells sep (c :: t) ts
  | pipe {t : List UInt8} {ts : List Token} : Spells sep t ts → Spells sep (PIPE :: t) (.pipe :: ts)
  | and {t : List UInt8} {ts : List Token} :
    Spells sep t ts → Spells sep (AMP :: AMP :: t) (.and :: ts)
  | bg {t : List UInt8} {ts : List Token} : t.head? ≠ some AMP → Spells sep t ts →
    Spells sep (AMP :: t) (.bg :: ts)
  | semi {t : List UInt8} {ts : List Token} : Spells sep t ts → Spells sep (SEMI :: t) (.semi :: ts)
  | redirIn {t : List UInt8} {ts : List Token} : Spells sep t ts →
    Spells sep (LESS :: t) (.redirIn :: ts)
  | redirOut {t : List UInt8} {ts : List Token} : t.head? ≠ some GREATER → Spells sep t ts →
    Spells sep (GREATER :: t) (.redirOut :: ts)
  | redirAppend {t : List UInt8} {ts : List Token} : Spells sep t ts →
    Spells sep (GREATER :: GREATER :: t) (.redirAppend :: ts)
  | quoted {q : UInt8} {w t : List UInt8} {ts : List Token} : q = DQUOTE ∨ q = QUOTE → q ∉ w →
    Spells sep t ts → Spells sep (q :: (w ++ q :: t)) (.word true w :: ts)
  | word {c : UInt8} {w t : List UInt8} {ts : List Token} : c ≠ DQUOTE → c ≠ QUOTE →
    (∀ x ∈ c :: w, endsWord x = false) → (∀ x, t.head? = some x → sep x = true) →
    Spells sep t ts → Spells sep (c :: (w ++ t)) (.word false (c :: w) :: ts)

variable {p : UInt8 → Bool} {t : List UInt8} {ts : List Token} {fuel n : ℕ} {c : UInt8}
    {w : List UInt8}

theorem tokenizeFrom_blank (hc : isSpace c = true) :
    tokenizeFrom fuel n (c :: t) = tokenizeFrom fuel n t := by
  cases fuel with
  | zero => rfl
  | succ fuel => simp only [tokenizeFrom, dropWhile_cons_of_pos hc]

theorem tokenizeFrom_next {tok : Token} {rest : List UInt8} (hc : isSpace c = false)
    (hnext : nextToken c t = (tok, rest)) (hfuel : (c :: t).length < fuel)
    (hn : n + (tok :: ts).length ≤ MAXTOK - 1)
    (ih : ∀ {fuel n : ℕ}, t.length < fuel → n + ts.length ≤ MAXTOK - 1 →
      tokenizeFrom fuel n rest = ts) : tokenizeFrom fuel n (c :: t) = tok :: ts := by
  obtain ⟨fuel, rfl⟩ : ∃ f, fuel = f + 1 := ⟨fuel - 1, by omega⟩
  rw [length_cons] at hfuel hn
  have hdrop : (c :: t).dropWhile isSpace = c :: t := dropWhile_cons_of_neg (by simp [hc])
  rw [tokenizeFrom, if_pos (by omega), hdrop]
  simp only [hnext]
  rw [ih (by omega) (by omega)]

theorem takeWhile_word (hw : ∀ x ∈ w, p x = true)
    (ht : ∀ x, t.head? = some x → p x = false) : (w ++ t).takeWhile p = w := by
  rw [takeWhile_append_of_pos hw]
  cases t with
  | nil => simp
  | cons x t => simp [ht x rfl]

theorem dropWhile_word (hw : ∀ x ∈ w, p x = true)
    (ht : ∀ x, t.head? = some x → p x = false) : (w ++ t).dropWhile p = t := by
  rw [dropWhile_append_of_pos hw]
  cases t with
  | nil => rfl
  | cons x t => rw [dropWhile_cons_of_neg (by simp [ht x rfl])]

theorem nextToken_quoted (hq : c = DQUOTE ∨ c = QUOTE) (hw : c ∉ w) :
    nextToken c (w ++ c :: t) = (.word true w, t) := by
  have hne : ∀ x ∈ w, decide (x ≠ c) = true := fun x hx => by
    simpa using fun h : x = c => hw (h ▸ hx)
  have hstop : ∀ x, (c :: t).head? = some x → decide (x ≠ c) = false := fun x hx => by
    cases hx
    simp
  have hword : nextToken c (w ++ c :: t) = (.word true ((w ++ c :: t).takeWhile (· ≠ c)),
      ((w ++ c :: t).dropWhile (· ≠ c)).tail) := by
    rcases hq with rfl | rfl <;> rfl
  rw [hword, takeWhile_word hne hstop, dropWhile_word hne hstop, tail_cons]

theorem nextToken_word (h1 : c ≠ DQUOTE) (h2 : c ≠ QUOTE) (hw : ∀ x ∈ c :: w, endsWord x = false)
    (ht : ∀ x, t.head? = some x → endsWord x = true) :
    nextToken c (w ++ t) = (.word false (c :: w), t.tail) := by
  have hc := hw c (mem_cons_self ..)
  simp only [endsWord, Bool.or_eq_false_iff, decide_eq_false_iff_not] at hc
  obtain ⟨⟨⟨⟨⟨-, hpipe⟩, hless⟩, hgreater⟩, hsemi⟩, hamp⟩ := hc
  have hplain : ∀ x ∈ w, (!endsWord x) = true := fun x hx => by
    rw [hw x (mem_cons_of_mem c hx)]
    rfl
  have hstop : ∀ x, t.head? = some x → (!endsWord x) = false := fun x hx => by
    rw [ht x hx]
    rfl
  unfold nextToken
  rw [if_neg hpipe, if_neg fun h => hamp h.1, if_neg hamp, if_neg hsemi, if_neg hless,
    if_neg hgreater,
    if_neg (not_or_intro h1 h2), takeWhile_word hplain hstop, dropWhile_word hplain hstop]

/-- A text in which every unquoted word is followed by a blank is split into its tokens. -/
theorem Spells.tokenizeFrom (h : Spells isSpace t ts) (hfuel : t.length < fuel)
    (hn : n + ts.length ≤ MAXTOK - 1) : Shell.tokenizeFrom fuel n t = ts := by
  induction h generalizing fuel n with
  | nil =>
    cases fuel with
    | zero => rfl
    | succ fuel => simp [Shell.tokenizeFrom]
  | blank hc _ ih =>
    rw [tokenizeFrom_blank hc]
    exact ih (Nat.lt_of_succ_lt hfuel) hn
  | pipe _ ih | semi _ ih | redirIn _ ih => exact tokenizeFrom_next (by decide) rfl hfuel hn ih
  | and _ ih | redirAppend _ ih =>
    exact tokenizeFrom_next (by decide) rfl hfuel hn fun hf => ih (Nat.lt_of_succ_lt hf)
  | bg hne _ ih =>
    have hbg : ∀ {p : List UInt8}, p.head? ≠ some AMP → nextToken AMP p = (.bg, p) := by
      intro p hp
      rw [nextToken, if_neg (by decide), if_neg fun h => hp h.2, if_pos rfl]
    exact tokenizeFrom_next (by decide) (hbg hne) hfuel hn ih
  | redirOut hne _ ih => exact tokenizeFrom_next (by decide) (if_neg hne) hfuel hn ih
  | quoted hq hw _ ih =>
    refine tokenizeFrom_next ?_ (nextToken_quoted hq hw) hfuel hn fun hf => ih ?_
    · rcases hq with rfl | rfl <;> decide
    · simp only [length_append, length_cons] at hf
      omega
  | @word c w t ts h1 h2 hw ht _ ih =>
    have hc := hw c (mem_cons_self ..)
    have hblank : isSpace c = false := by
      simp only [endsWord, Bool.or_eq_false_iff] at hc
      exact hc.1.1.1.1.1
    have hends : ∀ x, t.head? = some x → endsWord x = true := fun x hx => by
      simp [endsWord, ht x hx]
    refine tokenizeFrom_next hblank (nextToken_word h1 h2 hw hends) hfuel hn fun hf hn => ?_
    have hall := ih (lt_of_le_of_lt (by simp) hf) hn
    -- the blank that the word ended at would have been skipped anyway
    cases t with
    | nil => exact hall
    | cons x t => rwa [tokenizeFrom_blank (ht x rfl)] at hall

theorem Spells.plain {sep : UInt8 → Bool} {w : List UInt8} (hne : w ≠ [])
    (hw : ∀ x ∈ w, endsWord x = false ∧ x ≠ DQUOTE ∧ x ≠ QUOTE)
    (ht : ∀ x, t.head? = some x → sep x = true) (h : Spells sep t ts) :
    Spells sep (w ++ t) (.word false w :: ts) := by
  cases w with
  | nil => exact absurd rfl hne
  | cons c w =>
    obtain ⟨-, h1, h2⟩ := hw c (mem_cons_self ..)
    exact .word h1 h2 (fun x hx => (hw x hx).1) ht h

theorem Spells.tokenize (h : Spells isSpace t ts)
    (hlen : ts.length ≤ MAXTOK - 1) : tokenize t = ts :=
  h.tokenizeFrom (Nat.lt_succ_self _) (by omega)

/-! ### Optional blanks -/

def isOperator (c : UInt8) : Bool := endsWord c && !isSpace c

/-- The characters of an operator. -/
def Token.operator : Token → List UInt8
  | .word _ _ => []
  | .pipe => [PIPE]
  | .redirIn => [LESS]
  | .redirOut => [GREATER]
  | .redirAppend => [GREATER, GREATER]
  | .and => [AMP, AMP]
  | .bg => [AMP]
  | .semi => [SEMI]

/-- The line with blanks before and after every operator. -/
def spaced : List UInt8 → List UInt8
  | [] => []
  | c :: t =>
    if (c = AMP ∨ c = GREATER) ∧ t.head? = some c then SPACE :: c :: c :: SPACE :: spaced t.tail
    else if isOperator c then SPACE :: c :: SPACE :: spaced t
    else c :: spaced t
termination_by t => t.length
decreasing_by all_goals simp; try omega

variable {sep : UInt8 → Bool}

/-- One more character of a word. -/
theorem Spells.prepend {x : UInt8} (h : Spells sep (x :: t) ts) (hx : endsWord x = false)
    (hxq : x ≠ DQUOTE ∧ x ≠ QUOTE) :
    ∃ w ts', ts = .word false w :: ts' ∧ ∀ c, endsWord c = false → c ≠ DQUOTE → c ≠ QUOTE →
      Spells sep (c :: x :: t) (.word false (c :: w) :: ts') := by
  cases h with
  | blank hb => simp [endsWord, hb] at hx
  | quoted hq => exact absurd hq (not_or_intro hxq.1 hxq.2)
  | @word _ w t _ _ _ hw ht h =>
    refine ⟨_, _, rfl, fun c hc h1 h2 => ?_⟩
    exact .word (w := x :: w) h1 h2 (forall_mem_cons.mpr ⟨hc, hw⟩) ht h
  | _ => simp [endsWord] at hx

theorem operator_spells (sep : UInt8 → Bool) (hc : isOperator c = true) : ∃ tok :
    Token, tok.operator = [c] ∧
    ∀ t ts, ¬((c = AMP ∨ c = GREATER) ∧ t.head? = some c) → Spells sep t ts →
      Spells sep (c :: t) (tok :: ts) := by
  simp only [isOperator, endsWord, Bool.and_eq_true, Bool.or_eq_true, decide_eq_true_eq,
    Bool.not_eq_true'] at hc
  obtain ⟨(((((h | rfl) | rfl) | rfl) | rfl) | rfl), hblank⟩ := hc
  · simp [h] at hblank
  · exact ⟨.pipe, rfl, fun _ _ _ h => .pipe h⟩
  · exact ⟨.redirIn, rfl, fun _ _ _ h => .redirIn h⟩
  · exact ⟨.redirOut, rfl, fun _ _ hn h => .redirOut (fun he => hn ⟨.inr rfl, he⟩) h⟩
  · exact ⟨.semi, rfl, fun _ _ _ h => .semi h⟩
  · exact ⟨.bg, rfl, fun _ _ hn h => .bg (fun he => hn ⟨.inl rfl, he⟩) h⟩

theorem spaced_plain (hc : isOperator c = false) : spaced (c :: t) = c :: spaced t := by
  have hne : ¬((c = AMP ∨ c = GREATER) ∧ t.head? = some c) := by
    rintro ⟨rfl | rfl, -⟩ <;> exact absurd hc (by decide)
  rw [spaced, if_neg hne, if_neg (by simp [hc])]

/-- Behind a word a blank is first, before an operator too. -/
theorem spaced_blank (ht : ∀ x, t.head? = some x → endsWord x = true) :
    ∀ x, (spaced t).head? = some x → isSpace x = true := by
  intro x hx
  rcases t with _ | ⟨y, t⟩
  · simp [spaced] at hx
  · by_cases hy : isOperator y = true
    · rw [spaced, if_pos hy] at hx
      split at hx <;> cases hx <;> rfl
    · have hends := ht y rfl
      rw [spaced_plain (by simpa using hy)] at hx
      cases hx
      simpa [isOperator, hends] using hy

/-- `b` does not follow `a` as an operator directly behind a word. -/
abbrev Separate (a b : UInt8) : Prop := isOperator b = true → endsWord a = true

/-- Every line without quotes spells tokens once it has blanks; and by itself, if no operator
directly follows a word. -/
theorem exists_spells {line : List UInt8} (hq : DQUOTE ∉ line ∧ QUOTE ∉ line) :
    ∃ ts, Spells isSpace (spaced line) ts ∧ ts.flatMap Token.operator = line.filter isOperator ∧
      (line.IsChain Separate → Spells isSpace line ts) := by
  fun_induction spaced line with
  | case1 => exact ⟨[], .nil, rfl, fun _ => .nil⟩
  | case2 c t hc ih =>
    obtain ⟨hc, hhead⟩ := hc
    rcases t with _ | ⟨d, t⟩
    · cases hhead
    cases hhead
    obtain ⟨ts, hs, hops, hl⟩ := ih (by simp_all)
    rcases hc with rfl | rfl
    · exact ⟨.and :: ts, .blank rfl (.and (.blank rfl hs)), congrArg (AMP :: AMP :: ·) hops,
        fun hch => .and (hl hch.tail.tail)⟩
    · exact ⟨.redirAppend :: ts, .blank rfl (.redirAppend (.blank rfl hs)),
        congrArg (GREATER :: GREATER :: ·) hops, fun hch => .redirAppend (hl hch.tail.tail)⟩
  | case3 c t hc hop ih =>
    obtain ⟨ts, hs, hops, hl⟩ := ih (by simp_all)
    obtain ⟨tok, htok, hspell⟩ := operator_spells isSpace hop
    refine ⟨tok :: ts, .blank rfl (hspell _ _ ?_ (.blank rfl hs)), ?_,
      fun hch => hspell t ts hc (hl hch.tail)⟩
    · rintro ⟨-, ⟨⟩⟩
      cases hop
    · rw [flatMap_cons, htok, hops, filter_cons_of_pos hop]
      rfl
  | case4 c t _ hop ih =>
    obtain ⟨ts, hs, hops, hl⟩ := ih (by simp_all)
    by_cases hblank : isSpace c = true
    · exact ⟨ts, .blank hblank hs, by rw [filter_cons_of_neg hop, hops],
        fun hch => .blank hblank (hl hch.tail)⟩
    have hc : endsWord c = false := by simpa [isOperator, hblank] using hop
    have h1 : c ≠ DQUOTE := by rintro rfl; simp at hq
    have h2 : c ≠ QUOTE := by rintro rfl; simp at hq
    by_cases hword : ∃ x, t.head? = some x ∧ endsWord x = false
    · -- the word goes on with `x`
      obtain ⟨x, hx, hends⟩ := hword
      rcases t with _ | ⟨y, t⟩
      · cases hx
      cases hx
      have hxq : x ≠ DQUOTE ∧ x ≠ QUOTE :=
        ⟨fun h => hq.1 (by simp [h]), fun h => hq.2 (by simp [h])⟩
      rw [spaced_plain (by simp [isOperator, hends])] at hs ⊢
      obtain ⟨w, ts, rfl, hword⟩ := hs.prepend hends hxq
      refine ⟨_, hword c hc h1 h2, by rw [filter_cons_of_neg hop]; exact hops, fun hch => ?_⟩
      obtain ⟨w', ts', he, hword⟩ := (hl hch.tail).prepend hends hxq
      cases he
      exact hword c hc h1 h2
    · -- the word is `c`
      have hends : ∀ x, t.head? = some x → endsWord x = true := by
        intro x hx
        by_contra hn
        exact hword ⟨x, hx, by simpa using hn⟩
      have hcw : ∀ x ∈ [c], endsWord x = false := by simpa using hc
      refine ⟨.word false [c] :: ts, .word h1 h2 hcw (spaced_blank hends) hs,
        by rw [filter_cons_of_neg hop]; exact hops,
          fun hch => .word h1 h2 hcw (fun x hx => ?_) (hl hch.tail)⟩
      rcases t with _ | ⟨y, t⟩
      · cases hx
      · cases hx
        have hop := (isChain_cons_cons.mp hch).1
        have hy := hends x rfl
        simpa [Separate, isOperator, hy, hc] using hop

theorem Spells.length_le (h : Spells sep t ts) : ts.length ≤ t.length := by
  induction h <;> simp <;> omega

theorem length_le_spaced (line : List UInt8) : line.length ≤ (spaced line).length := by
  fun_induction spaced line with
  | case1 => rfl
  | case2 c t h ih =>
    rcases t with _ | ⟨d, t⟩
    · exact absurd h.2 nofun
    · simp only [tail_cons, length_cons] at ih ⊢
      omega
  | case3 c t _ _ ih | case4 c t _ _ ih =>
    simp only [length_cons]
    omega

theorem isChain_of_countP (h : t.countP isOperator = 0) : t.IsChain Separate := by
  rw [countP_eq_zero] at h
  exact (pairwise_of_forall_mem_list fun _ _ b hb hop => absurd hop (h b hb)).isChain

theorem isChain_append_blanks {l : List UInt8} (hl : ∀ a ∈ l, endsWord a = true)
    (ht : t.IsChain Separate) : (l ++ t).IsChain Separate := by
  induction l with
  | nil => exact ht
  | cons a l ih =>
    rw [forall_mem_cons] at hl
    exact (ih hl.2).cons fun _ _ _ => hl.1

/-- A token has the operators of the text it takes, unless it is a word with an operator
right behind it. -/
theorem nextToken_operators (hq : DQUOTE ∉ c :: t ∧ QUOTE ∉ c :: t) (hc : isSpace c = false)
    {tok : Token} {rest : List UInt8} (h : nextToken c t = (tok, rest)) : rest <:+ t ∧
      tok.operator.length + rest.countP isOperator ≤ (c :: t).countP isOperator ∧
      (tok.operator.length + rest.countP isOperator = (c :: t).countP isOperator →
        rest.IsChain Separate → (c :: t).IsChain Separate) := by
  have one : ∀ {c : UInt8}, isOperator c = true → t <:+ t ∧
      1 + t.countP isOperator ≤ (c :: t).countP isOperator ∧
      (1 + t.countP isOperator = (c :: t).countP isOperator →
        t.IsChain Separate → (c :: t).IsChain Separate) := by
    intro c hop
    have hends : endsWord c = true := (Bool.and_eq_true_iff.mp hop).1
    rw [countP_cons_of_pos hop]
    exact ⟨suffix_rfl, by omega, fun _ ht => ht.cons fun _ _ _ => hends⟩
  have two : ∀ {c : UInt8}, isOperator c = true → t.head? = some c → t.tail <:+ t ∧
      2 + t.tail.countP isOperator ≤ (c :: t).countP isOperator ∧
      (2 + t.tail.countP isOperator = (c :: t).countP isOperator →
        t.tail.IsChain Separate → (c :: t).IsChain Separate) := by
    intro c hop hhead
    have hends : endsWord c = true := (Bool.and_eq_true_iff.mp hop).1
    obtain ⟨d, rfl⟩ : ∃ d, t = c :: d := ⟨t.tail, (cons_head?_tail hhead).symm⟩
    rw [tail_cons, countP_cons_of_pos hop, countP_cons_of_pos hop]
    refine ⟨suffix_cons _ _, by omega, fun _ ht => ?_⟩
    exact isChain_append_blanks (l := [c, c]) (by simp [hends]) ht
  unfold nextToken at h
  split_ifs at h with h1 h2 h3 h4 h5 h6 h7 h8 <;> cases h
  · exact one (by rw [h1]; rfl)
  · exact two (by rw [h2.1]; rfl) (h2.1 ▸ h2.2)
  · exact one (by rw [h3]; rfl)
  · exact one (by rw [h4]; rfl)
  · exact one (by rw [h5]; rfl)
  · exact two (by rw [h6]; rfl) (h6 ▸ h7)
  · exact one (by rw [h6]; rfl)
  · rcases h8 with rfl | rfl <;> simp at hq
  · -- a word, and the character behind it
    have hcw : endsWord c = false := by simp [endsWord, hc, h1, h3, h4, h5, h6]
    have hw : ∀ x ∈ c :: t.takeWhile (!endsWord ·), isOperator x = false := by
      refine forall_mem_cons.mpr ⟨by simp [isOperator, hcw], fun x hx => ?_⟩
      simpa [isOperator] using fun h => absurd (mem_takeWhile_imp hx) (by simp [h])
    have hsplit := takeWhile_append_dropWhile (p := (!endsWord ·)) (l := t)
    have hcount : (c :: t).countP isOperator = (t.dropWhile (!endsWord ·)).countP isOperator := by
      conv_lhs => rw [← hsplit, ← cons_append, countP_append]
      rw [countP_eq_zero.mpr (by simpa using hw), Nat.zero_add]
    refine ⟨(tail_suffix _).trans (dropWhile_suffix _), ?_, fun he hrest => ?_⟩
    · rw [hcount, Token.operator, length_nil, Nat.zero_add]
      exact (tail_sublist _).countP_le
    · rw [← hsplit, ← cons_append]
      rw [hcount, Token.operator, length_nil, Nat.zero_add] at he
      have hword : (c :: t.takeWhile (!endsWord ·)).IsChain Separate :=
        isChain_of_countP (countP_eq_zero.mpr (by simpa using hw))
      rcases hd : t.dropWhile (!endsWord ·) with _ | ⟨x, v⟩
      · simpa using hword
      · rw [hd, tail_cons] at he hrest
        have hx : endsWord x = true := by
          have := head?_dropWhile_not (!endsWord ·) t
          simpa [hd] using this
        have hnot : isOperator x ≠ true := fun h => by
          rw [countP_cons_of_pos h] at he
          omega
        refine isChain_append.mpr ⟨hword, hrest.cons fun _ _ _ => hx, ?_⟩
        rintro a - b ⟨⟩ hop
        exact absurd hop hnot

/-- The operators among the tokens are not more than those of the text; they are all of them
only if none directly follows a word. -/
theorem operators_le (fuel n : ℕ) (hq : DQUOTE ∉ t ∧ QUOTE ∉ t) :
    ((tokenizeFrom fuel n t).flatMap Token.operator).length ≤ t.countP isOperator ∧
      (((tokenizeFrom fuel n t).flatMap Token.operator).length = t.countP isOperator →
        t.IsChain Separate) := by
  induction fuel generalizing n t with
  | zero => exact ⟨Nat.zero_le _, fun h => isChain_of_countP h.symm⟩
  | succ fuel ih =>
    unfold tokenizeFrom
    split
    · have hsplit := takeWhile_append_dropWhile (p := isSpace) (l := t)
      have hblank : ∀ x ∈ t.takeWhile isSpace, isOperator x = false ∧ endsWord x = true := by
        intro x hx
        have hx := mem_takeWhile_imp hx
        simp [isOperator, endsWord, hx]
      have hcount : t.countP isOperator = (t.dropWhile isSpace).countP isOperator := by
        conv_lhs => rw [← hsplit, countP_append]
        rw [countP_eq_zero.mpr fun x hx => by simp [(hblank x hx).1], Nat.zero_add]
      have hchain : (t.dropWhile isSpace).IsChain Separate → t.IsChain Separate := fun h => by
        rw [← hsplit]
        exact isChain_append_blanks (fun x hx => (hblank x hx).2) h
      rw [hcount]
      rcases hd : t.dropWhile isSpace with _ | ⟨c, p⟩
      · exact ⟨Nat.zero_le _, fun _ => hchain (hd ▸ .nil)⟩
      · have hmem : ∀ x, x ∈ c :: p → x ∈ t := fun x hx =>
          (dropWhile_suffix isSpace).subset (hd ▸ hx)
        have hq' : DQUOTE ∉ c :: p ∧ QUOTE ∉ c :: p := ⟨mt (hmem _) hq.1, mt (hmem _) hq.2⟩
        have hc : isSpace c = false := by
          have := head?_dropWhile_not isSpace t
          simpa [hd] using this
        rcases hn : nextToken c p with ⟨tok, rest⟩
        obtain ⟨hsuf, hle, heq⟩ := nextToken_operators hq' hc hn
        have hsub : ∀ x, x ∈ rest → x ∈ c :: p := fun x hx => mem_cons_of_mem _ (hsuf.subset hx)
        obtain ⟨ihle, iheq⟩ := ih (n + 1) ⟨mt (hsub _) hq'.1, mt (hsub _) hq'.2⟩
        simp only [hn, flatMap_cons, length_append]
        refine ⟨by omega, fun h => hchain (hd ▸ heq (by omega) (iheq (by omega)))⟩
    · exact ⟨Nat.zero_le _, fun h => isChain_of_countP h.symm⟩

/-- For a line without quotes that fits into the buffer and the table of tokens, more blanks
change nothing and every operator is a token exactly if no operator directly follows a word. -/
theorem tokenize_spaced {line : List UInt8} (hq : DQUOTE ∉ line ∧ QUOTE ∉ line)
    (hfits : (spaced line).length < MAXLINE)
    (hlimit : ∀ ts, Spells isSpace (spaced line) ts → ts.length ≤ MAXTOK - 1) :
    (tokenize (linebuf line) = tokenize (linebuf (spaced line)) ∧
      (tokenize (linebuf line)).flatMap Token.operator = line.filter isOperator) ↔
    line.IsChain Separate := by
  have hline := length_le_spaced line
  rw [linebuf, linebuf, take_of_length_le (by omega), take_of_length_le (by omega)]
  obtain ⟨ts, hspaced, hops, hline⟩ := exists_spells hq
  have hlen := hlimit ts hspaced
  constructor
  · rintro ⟨-, h⟩
    refine (operators_le (line.length + 1) 0 hq).2 ?_
    rw [countP_eq_length_filter, ← h]
    rfl
  · intro hblank
    rw [(hline hblank).tokenize hlen, hspaced.tokenize hlen]
    exact ⟨rfl, hops⟩

/-- `ls -l >f &&cat <f |wc` -/
theorem tokenize_spaced_redirection :
    tokenize (linebuf (text "ls -l >f &&cat <f |wc")) =
        tokenize (linebuf (spaced (text "ls -l >f &&cat <f |wc"))) ∧
      (tokenize (linebuf (text "ls -l >f &&cat <f |wc"))).flatMap Token.operator =
        (text "ls -l >f &&cat <f |wc").filter isOperator :=
  (tokenize_spaced (by decide) (by decide +kernel)
    fun _ h => h.length_le.trans (by decide +kernel)).mpr (by decide)

/-- `a|b`: the pipe is overwritten by the end of the word `a`. -/
theorem tokenize_drops_operator : ∃ line, DQUOTE ∉ line ∧ QUOTE ∉ line ∧
    tokenize (linebuf line) = [.word false [97], .word false [98]] ∧
    tokenize (linebuf (spaced line)) = [.word false [97], .pipe, .word false [98]] :=
  ⟨text "a|b", by decide, by decide, by decide, by decide +kernel⟩

end Sbunix.Shell
