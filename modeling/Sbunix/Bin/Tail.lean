import Mathlib.Data.List.Induction
import Mathlib.Tactic

/-!
# tail

`tail_fd` of `bin/tail/tail.c`. The input comes as the amounts that `read`
delivers, and the result is what is given to `write`.
-/

namespace Sbunix.Tail

open List

def NL : UInt8 := 10

def BUF_SIZE : ℕ := 65536

/-- The loop over `read`, which ends with an empty amount. A full buffer keeps its second half. -/
def readLoop : List (List UInt8) → List UInt8 → List UInt8
  | [], buf => buf
  | got :: rest, buf =>
    if got = [] then buf
    else if BUF_SIZE ≤ (buf ++ got).length then readLoop rest ((buf ++ got).drop (BUF_SIZE / 2))
    else readLoop rest (buf ++ got)

/-- The backward loop, with `i` one above the index of the source. -/
def startFrom (buf : List UInt8) (target : ℤ) : ℕ → ℤ → ℕ
  | 0, _ => 0
  | i + 1, count =>
    if buf[i]? = some NL then
      if target < count + 1 then i + 1 else startFrom buf target i (count + 1)
    else startFrom buf target i count

def tailFd (reads : List (List UInt8)) (n : ℤ) : List UInt8 :=
  let buf := readLoop reads []
  if n ≤ 0 ∨ buf = [] then []
  else
    let target := if buf.getLast? = some NL then n else n - 1
    let start := if 0 < target then startFrom buf target buf.length 0 else 0
    buf.drop start

/-! ### Lines -/

/-- The lines with their newlines; what follows the last newline is a line too. -/
def lines : List UInt8 → List (List UInt8)
  | [] => []
  | b :: rest =>
    if b = NL then [b] :: lines rest
    else
      match lines rest with
      | [] => [[b]]
      | l :: ls => (b :: l) :: ls

def lastLines (n : ℕ) (input : List UInt8) : List UInt8 :=
  ((lines input).drop ((lines input).length - n)).flatten

/-- A line that has its newline. -/
def Ended (l : List UInt8) : Prop := ∃ m, NL ∉ m ∧ l = m ++ [NL]

variable {fs : List (List UInt8)} {m : List UInt8}

theorem lines_append (hm : NL ∉ m) (rest : List UInt8) :
    lines (m ++ NL :: rest) = (m ++ [NL]) :: lines rest := by
  induction m with
  | nil => simp [lines]
  | cons b m ih =>
    rw [mem_cons, not_or] at hm
    rw [cons_append, lines, if_neg (Ne.symm hm.1), ih hm.2]
    rfl

theorem lines_fragment (hm : NL ∉ m) : lines m = if m = [] then [] else [m] := by
  induction m with
  | nil => rfl
  | cons b m ih =>
    rw [mem_cons, not_or] at hm
    rw [lines, if_neg (Ne.symm hm.1), ih hm.2, if_neg (cons_ne_nil b m)]
    by_cases h : m = []
    · rw [h]
      rfl
    · rw [if_neg h]

/-- Ended lines, then a fragment that may be empty. -/
theorem lines_flatten (hfs : ∀ l ∈ fs, Ended l) (hm : NL ∉ m) :
    lines (fs.flatten ++ m) = fs ++ if m = [] then [] else [m] := by
  induction fs with
  | nil => exact lines_fragment hm
  | cons l fs ih =>
    obtain ⟨x, hx, rfl⟩ := hfs l mem_cons_self
    have htail := ih fun l hl => hfs l (mem_cons_of_mem _ hl)
    simp only [flatten_cons, append_assoc, cons_append, nil_append]
    rw [lines_append hx, htail]

theorem exists_lines (input : List UInt8) :
    ∃ (fs : List (List UInt8)) (m : List UInt8), (∀ l ∈ fs, Ended l) ∧ NL ∉ m ∧
      input = fs.flatten ++ m := by
  induction input with
  | nil => exact ⟨[], [], nofun, nofun, rfl⟩
  | cons b input ih =>
    obtain ⟨fs, m, hfs, hm, rfl⟩ := ih
    by_cases hb : b = NL
    · refine ⟨[b] :: fs, m, ?_, hm, rfl⟩
      rintro l (_ | ⟨_, hl⟩)
      · exact ⟨[], nofun, by rw [hb]; rfl⟩
      · exact hfs l hl
    · cases fs with
      | nil => exact ⟨[], b :: m, nofun, by simp [Ne.symm hb, hm], rfl⟩
      | cons l fs =>
        obtain ⟨x, hx, rfl⟩ := hfs l mem_cons_self
        refine ⟨(b :: (x ++ [NL])) :: fs, m, ?_, hm, rfl⟩
        rintro l (_ | ⟨_, hl⟩)
        · exact ⟨b :: x, by simp [Ne.symm hb, hx], rfl⟩
        · exact hfs l (mem_cons_of_mem _ hl)

/-! ### The loops -/

theorem readLoop_eq {reads : List (List UInt8)} (hne : ∀ got ∈ reads, got ≠ []) {buf : List UInt8}
    (hlen : (buf ++ reads.flatten).length < BUF_SIZE) :
    readLoop reads buf = buf ++ reads.flatten := by
  induction reads generalizing buf with
  | nil => simp [readLoop]
  | cons got reads ih =>
    rw [flatten_cons, ← append_assoc] at hlen ⊢
    have hshort : ¬BUF_SIZE ≤ (buf ++ got).length := by
      rw [length_append] at hlen
      omega
    rw [readLoop, if_neg (hne got mem_cons_self), if_neg hshort]
    exact ih (fun g hg => hne g (mem_cons_of_mem _ hg)) hlen

theorem getElem?_middle (a : List UInt8) (x : UInt8) (b : List UInt8) :
    (a ++ [x] ++ b)[a.length]? = some x := by
  simp

/-- The loop passes a fragment. -/
theorem startFrom_fragment (hm : NL ∉ m) (a b : List UInt8) (target count : ℤ) :
    startFrom (a ++ m ++ b) target (a ++ m).length count = startFrom (a ++ m ++ b) target
      a.length count := by
  induction m using List.reverseRecOn generalizing b with
  | nil => simp
  | append_singleton m x ih =>
    have hx : x ≠ NL := fun h => hm (by simp [h])
    have hlen : (a ++ (m ++ [x])).length = (a ++ m).length + 1 := by simp [Nat.add_assoc]
    have hget : (a ++ (m ++ [x]) ++ b)[(a ++ m).length]? = some x := by
      rw [← append_assoc]
      exact getElem?_middle (a ++ m) x b
    rw [hlen, startFrom, hget, if_neg (by simpa using hx)]
    have := ih (fun h => hm (by simp [h])) (x :: b)
    simpa using this

/-- The loop passes ended lines, one newline each, up to `target`. -/
theorem startFrom_lines (hfs : ∀ l ∈ fs, Ended l) (b : List UInt8) (target : ℤ)
    {count : ℤ} (hc : count ≤ target) :
    startFrom (fs.flatten ++ b) target fs.flatten.length count =
      (fs.take (fs.length - (target - count).toNat)).flatten.length := by
  induction fs using List.reverseRecOn generalizing b count with
  | nil => simp [startFrom]
  | append_singleton fs l ih =>
    obtain ⟨m, hm, rfl⟩ := hfs l (by simp)
    have hflat : (fs ++ [m ++ [NL]]).flatten = fs.flatten ++ m ++ [NL] := by simp
    have hlen : (fs.flatten ++ m ++ [NL]).length = (fs.flatten ++ m).length + 1 := length_append
    rw [hflat, hlen, startFrom, getElem?_middle, if_pos rfl]
    split_ifs with ht
    · have hall : (fs ++ [m ++ [NL]]).length - (target - count).toNat =
        (fs ++ [m ++ [NL]]).length := by omega
      rw [hall, take_length, hflat, hlen]
    · have hpass := startFrom_fragment hm fs.flatten ([NL] ++ b) target (count + 1)
      rw [← append_assoc] at hpass
      rw [hpass]
      have hrest := ih (fun l hl => hfs l (by simp [hl])) (m ++ [NL] ++ b)
        (by omega : count + 1 ≤ target)
      have htake : (fs ++ [m ++ [NL]]).length - (target - count).toNat =
          fs.length - (target - (count + 1)).toNat := by
        rw [length_append, length_singleton]
        omega
      rw [htake, take_append_of_le_length (Nat.sub_le _ _), ← hrest]
      simp

theorem drop_take_flatten (fs : List (List UInt8)) (k : ℕ) (m : List UInt8) :
    (fs.flatten ++ m).drop (fs.take k).flatten.length = (fs.drop k).flatten ++ m := by
  have hcut : fs.flatten = (fs.take k).flatten ++ (fs.drop k).flatten := by
    rw [← flatten_append, take_append_drop]
  rw [hcut, append_assoc, drop_left]

theorem getLast?_lines (hfs : ∀ l ∈ fs, Ended l) (hne : fs ≠ []) :
    fs.flatten.getLast? = some NL := by
  obtain ⟨fs, l, rfl⟩ := (eq_nil_or_concat fs).resolve_left hne
  obtain ⟨m, -, rfl⟩ := hfs l (by simp)
  simp

theorem getLast?_fragment (hm : NL ∉ m) (hne : m ≠ []) (a : List UInt8) :
    (a ++ m).getLast? ≠ some NL := by
  rw [getLast?_append_of_ne_nil _ hne]
  exact fun h => hm (mem_of_getLast? h)

/-- For every input below the size of the buffer, read in any amounts, the last lines are written
exactly if not the last line alone is asked for, or it has its newline, or it is the only one. -/
theorem tail_prints_last_lines {reads : List (List UInt8)} (hne : ∀ got ∈ reads, got ≠ [])
    (hlen : reads.flatten.length < BUF_SIZE) {n : ℤ} (hn : 1 ≤ n) :
    tailFd reads n = lastLines n.toNat reads.flatten ↔
      (n = 1 → reads.flatten.getLast? = some NL ∨ (lines reads.flatten).length ≤ 1) := by
  have hbuf : readLoop reads [] = reads.flatten := readLoop_eq hne hlen
  unfold tailFd lastLines
  rw [hbuf]
  generalize reads.flatten = input
  obtain ⟨fs, m, hfs, hm, rfl⟩ := exists_lines input
  rw [lines_flatten hfs hm]
  by_cases hmn : m = []
  · subst hmn
    by_cases hfn : fs = []
    · simp [hfn]
    have hnil : ¬fs.flatten = [] := fun h => by simpa [h] using getLast?_lines hfs hfn
    have hstart := startFrom_lines hfs [] n (by omega : 0 ≤ n)
    simp only [append_nil, sub_zero] at hstart ⊢
    rw [if_neg (by simp only [hnil, or_false]; omega), getLast?_lines hfs hfn]
    simp only [if_true, true_or, implies_true, iff_true]
    rw [if_pos (by omega), hstart]
    simpa using drop_take_flatten fs (fs.length - n.toNat) []
  · have hlast := getLast?_fragment hm hmn fs.flatten
    simp only [if_neg hmn, if_neg hlast]
    rw [if_neg (by simp only [append_eq_nil_iff, hmn, and_false, or_false]; omega)]
    rcases eq_or_lt_of_le hn with rfl | hn
    · -- everything is written, which is the last line only if there is no other
      by_cases hfn : fs = []
      · simp [hfn]
      have hnil : fs.flatten ≠ [] := fun h => by simpa [h] using getLast?_lines hfs hfn
      simp only [hlast, false_or]
      simp [hfn, hnil]
    · simp only [hn.ne', IsEmpty.forall_iff, iff_true]
      have hpass := startFrom_fragment hm fs.flatten [] (n - 1) 0
      have hstart := startFrom_lines hfs m (n - 1) (by omega : 0 ≤ n - 1)
      rw [append_nil] at hpass
      rw [if_pos (by omega), hpass, hstart, drop_take_flatten]
      have hdrop : (fs ++ [m]).length - n.toNat = fs.length - (n - 1 - 0).toNat := by
        rw [length_append, length_singleton]
        omega
      rw [hdrop, drop_append_of_le_length (Nat.sub_le _ _)]
      simp

theorem tail_prints_last_lines_two : tailFd [[97, 10, 98], [10, 99]] 2 = [98, 10, 99] := by
  have h : tailFd [[97, 10, 98], [10, 99]] 2 = lastLines 2 [97, 10, 98, 10, 99] :=
    (tail_prints_last_lines (by decide) (by decide) (by decide)).mpr (by decide)
  rw [h]
  decide

/-- The last line of three bytes is asked for, and all of them are written. -/
theorem unterminated_line_prints_all :
    ∃ input : List UInt8, tailFd [input] 1 = input ∧ lastLines 1 input ≠ input :=
  ⟨[97, 10, 98], by decide, by decide⟩

end Sbunix.Tail
