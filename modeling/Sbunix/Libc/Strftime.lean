import Mathlib.Data.Nat.Digits.Defs
import Sbunix.Lib.Sink
import Sbunix.Libc.Time

/-!
# Formatted times

`strftime` of `libc/time.c` with its helpers, for pointers that are not null. A
format is given without the NUL that ends it. The call is `none` if it looks at
the character behind that NUL, which it does for a format that ends within a
directive. Every other format is spelled by pieces, and the output is the text of
the pieces.
-/

namespace Sbunix.Libc.Strftime

open List Lib Function

def wdayShort : List String := ["Sun", "Mon", "Tue", "Wed", "Thu", "Fri", "Sat"]

def wdayLong : List String :=
  ["Sunday", "Monday", "Tuesday", "Wednesday", "Thursday", "Friday", "Saturday"]

def monShort : List String :=
  ["Jan", "Feb", "Mar", "Apr", "May", "Jun", "Jul", "Aug", "Sep", "Oct", "Nov", "Dec"]

def monLong : List String :=
  ["January", "February", "March", "April", "May", "June", "July", "August", "September", "October",
    "November", "December"]

/-- The cases of the switch; `h` is the same as `b`. -/
inductive Dir
  | percent | n | t | Y | y | C | m | d | e | j | H | I | M | S | p | P | a | A | b | B | u | w | s
  | F | T | R | D | r | c
  | other (ch : Char)

def Dir.ofChar : Char → Dir
  | '%' => percent | 'n' => n | 't' => t | 'Y' => Y | 'y' => y | 'C' => C | 'm' => m | 'd' => d
  | 'e' => e | 'j' => j | 'H' => H | 'I' => I | 'M' => M | 'S' => S | 'p' => p | 'P' => P | 'a' => a
  | 'A' => A | 'b' => b | 'h' => b | 'B' => B | 'u' => u | 'w' => w | 's' => s | 'F' => F | 'T' => T
  | 'R' => R | 'D' => D | 'r' => r | 'c' => c
  | ch => other ch

def digit (d : ℕ) : Char := Char.ofNat (48 + d)

/-- `&p` with `end`: `put_pad`. -/
def putPad (room : ℕ) (v : ℤ) (width : ℕ) (pad : Char) (s : Sink Char) : Sink Char :=
  let s := if v < 0 then s.put room '-' else s
  let v := if v < 0 then toInt (-v) else v
  let tmp := if v = 0 then ['0'] else (Nat.digits 10 v.toNat).map digit
  s.puts room (tmp ++ List.replicate (width - tmp.length) pad).reverse

def putLl (room : ℕ) (v : ℤ) (s : Sink Char) : Sink Char :=
  let s := if v < 0 then s.put room '-' else s
  let tmp := if v = 0 then ['0'] else (Nat.digits 10 v.natAbs).map digit
  s.puts room tmp.reverse

def hour12 (tm : Tm) : ℤ := if tm.hour.tmod 12 = 0 then 12 else tm.hour.tmod 12

/-- `tm->tm_wday & 7`, or 0 -/
def wdayIndex (tm : Tm) : ℕ := if 6 < tm.wday % 8 then 0 else (tm.wday % 8).toNat

def monIndex (tm : Tm) : ℕ := if tm.mon < 0 ∨ 11 < tm.mon then 0 else tm.mon.toNat

/-- The body of the switch. -/
def directive (room : ℕ) (tm : Tm) (s : Sink Char) (dir : Dir) : Sink Char :=
  let put := fun c (s : Sink Char) => s.put room c
  let emit := fun (t : String) (s : Sink Char) => s.puts room t.toList
  let pad := fun v width => putPad room v width '0'
  let year := toInt (tm.year + 1900)
  match dir with
  | .percent => s |> put '%'
  | .n => s |> put '\n'
  | .t => s |> put '\t'
  | .Y => s |> pad year 4
  | .y => s |> pad (year.tmod 100) 2
  | .C => s |> pad (year.tdiv 100) 2
  | .m => s |> pad (toInt (tm.mon + 1)) 2
  | .d => s |> pad tm.mday 2
  | .e => s |> putPad room tm.mday 2 ' '
  | .j => s |> pad (toInt (tm.yday + 1)) 3
  | .H => s |> pad tm.hour 2
  | .I => s |> pad (hour12 tm) 2
  | .M => s |> pad tm.min 2
  | .S => s |> pad tm.sec 2
  | .p => s |> emit (if tm.hour < 12 then "AM" else "PM")
  | .P => s |> emit (if tm.hour < 12 then "am" else "pm")
  | .a => s |> emit (wdayShort.getD (wdayIndex tm) "")
  | .A => s |> emit (wdayLong.getD (wdayIndex tm) "")
  | .b => s |> emit (monShort.getD (monIndex tm) "")
  | .B => s |> emit (monLong.getD (monIndex tm) "")
  | .u => s |> pad (if tm.wday = 0 then 7 else tm.wday) 1
  | .w => s |> pad tm.wday 1
  | .s => s |> putLl room (timegm tm).1
  | .F => s |> pad year 4 |> put '-' |> pad (toInt (tm.mon + 1)) 2 |> put '-' |> pad tm.mday 2
  | .T => s |> pad tm.hour 2 |> put ':' |> pad tm.min 2 |> put ':' |> pad tm.sec 2
  | .R => s |> pad tm.hour 2 |> put ':' |> pad tm.min 2
  | .D =>
    s |> pad (toInt (tm.mon + 1)) 2 |> put '/' |> pad tm.mday 2 |> put '/' |> pad (year.tmod 100) 2
  | .r =>
    s |> pad (hour12 tm) 2 |> put ':' |> pad tm.min 2 |> put ':' |> pad tm.sec 2 |> put ' '
      |> emit (if tm.hour < 12 then "AM" else "PM")
  | .c =>
    s |> emit (wdayShort.getD (wdayIndex tm) "") |> put ' ' |> emit
      (monShort.getD (monIndex tm) "") |> put ' '
      |> putPad room tm.mday 2 ' ' |> put ' ' |> pad tm.hour 2 |> put ':' |> pad tm.min 2 |> put ':'
      |> pad tm.sec 2 |> put ' ' |> pad year 4
  | .other ch => s |> put '%' |> put ch

def modifiers (fmt : List Char) : List Char :=
  match fmt.dropWhile fun c => c ∈ ['-', '_', '^', '#'] ∨ '0' ≤ c ∧ c ≤ '9' with
  | c :: f => if c = 'E' ∨ c = 'O' then f else c :: f
  | [] => []

theorem modifiers_length (fmt : List Char) : (modifiers fmt).length ≤ fmt.length := by
  unfold modifiers
  split
  · next c f hf =>
    have hle : (c :: f).length ≤ fmt.length := hf ▸ (dropWhile_suffix _).length_le
    split
    · exact (Nat.le_succ _).trans hle
    · exact hle
  · exact Nat.zero_le _

/-- `while (*fmt)` -/
def formatLoop (room : ℕ) (tm : Tm) (fmt : List Char) (s : Sink Char) : Option (Sink Char) :=
  match fmt with
  | [] => some s
  | c :: f =>
    if c ≠ '%' then formatLoop room tm f (s.put room c)
    else
      match _h : modifiers f with
      -- the conversion is the NUL, and `*fmt` is now the character behind it
      | [] => none
      | ch :: f' => formatLoop room tm f' (directive room tm s (Dir.ofChar ch))
termination_by fmt.length
decreasing_by
  · exact Nat.lt_succ_self _
  · have := modifiers_length f
    rw [_h] at this
    exact Nat.lt_succ_of_lt this

inductive Piece
  | lit (c : Char)
  | dir (x : Dir)

/-- The pieces of a format that does not end within a directive. -/
inductive Spells : List Char → List Piece → Prop
  | nil : Spells [] []
  | lit {c : Char} {f : List Char} {ps : List Piece} :
    c ≠ '%' → Spells f ps → Spells (c :: f) (.lit c :: ps)
  | dir {ch : Char} {f f' : List Char} {ps : List Piece} : modifiers f = ch :: f' → Spells f' ps →
    Spells ('%' :: f) (.dir (Dir.ofChar ch) :: ps)

def number (v : ℤ) (width : ℕ) (pad : Char) : List Char :=
  (if v < 0 then ['-'] else []) ++
    (if v = 0 then ['0'] else (Nat.digits 10 v.natAbs).map digit).reverse.leftpad width pad

/-- The expansion of a directive that stands for itself. -/
def basic (tm : Tm) : Dir → List Char
  | .percent => ['%']
  | .n => ['\n']
  | .t => ['\t']
  | .Y => number (tm.year + 1900) 4 '0'
  | .y => number ((tm.year + 1900).tmod 100) 2 '0'
  | .C => number ((tm.year + 1900).tdiv 100) 2 '0'
  | .m => number (tm.mon + 1) 2 '0'
  | .d => number tm.mday 2 '0'
  | .e => number tm.mday 2 ' '
  | .j => number (tm.yday + 1) 3 '0'
  | .H => number tm.hour 2 '0'
  | .I => number ((tm.hour + 11) % 12 + 1) 2 '0'
  | .M => number tm.min 2 '0'
  | .S => number tm.sec 2 '0'
  | .p => (if tm.hour < 12 then "AM" else "PM").toList
  | .P => (if tm.hour < 12 then "am" else "pm").toList
  | .a => (wdayShort.getD tm.wday.toNat "").toList
  | .A => (wdayLong.getD tm.wday.toNat "").toList
  | .b => (monShort.getD tm.mon.toNat "").toList
  | .B => (monLong.getD tm.mon.toNat "").toList
  | .u => number ((tm.wday + 6) % 7 + 1) 1 '0'
  | .w => number tm.wday 1 '0'
  | .s => number tm.instant 1 '0'
  | .other ch => ['%', ch]
  | _ => []

/-- The format that a directive abbreviates. -/
def Dir.parts : Dir → List Piece
  | F => [.dir Y, .lit '-', .dir m, .lit '-', .dir d]
  | T => [.dir H, .lit ':', .dir M, .lit ':', .dir S]
  | R => [.dir H, .lit ':', .dir M]
  | D => [.dir m, .lit '/', .dir d, .lit '/', .dir y]
  | r => [.dir I, .lit ':', .dir M, .lit ':', .dir S, .lit ' ', .dir p]
  | c =>
    [.dir a, .lit ' ', .dir b, .lit ' ', .dir e, .lit ' ', .dir H, .lit ':', .dir M, .lit ':',
    .dir S, .lit ' ',
      .dir Y]
  | x => [.dir x]

def Piece.basic (tm : Tm) : Piece → List Char
  | lit c => [c]
  | dir x => Strftime.basic tm x

def Piece.text (tm : Tm) : Piece → List Char
  | lit c => [c]
  | dir x => x.parts.flatMap (Piece.basic tm)

def text (tm : Tm) (ps : List Piece) : List Char := ps.flatMap (Piece.text tm)

variable {room : ℕ} {tm : Tm} {s : Sink Char} {fmt : List Char} {ps : List Piece}

theorem Spells.unique {ps' : List Piece} (h : Spells fmt ps) (h' : Spells fmt ps') : ps = ps' := by
  induction h generalizing ps' with
  | nil => cases h'; rfl
  | lit hc _ ih =>
    cases h' with
    | lit _ h' => rw [ih h']
    | dir => exact absurd rfl hc
  | dir hm _ ih =>
    cases h' with
    | lit hc => exact absurd rfl hc
    | dir hm' h' =>
      obtain ⟨rfl, rfl⟩ := List.cons.inj (hm.symm.trans hm')
      rw [ih h']

/-- A format that the loop reads to its end does not end within a directive. -/
theorem exists_spells (h : formatLoop room tm fmt s ≠ none) : ∃ ps, Spells fmt ps := by
  fun_induction formatLoop room tm fmt s with
  | case1 => exact ⟨[], .nil⟩
  | case2 s c f hc ih =>
    obtain ⟨ps, hps⟩ := ih h
    exact ⟨_, .lit hc hps⟩
  | case3 => exact absurd rfl h
  | case4 s c f hc ch f' hm ih =>
    obtain rfl : c = '%' := not_not.mp hc
    obtain ⟨ps, hps⟩ := ih h
    exact ⟨_, .dir hm hps⟩

end Sbunix.Libc.Strftime
