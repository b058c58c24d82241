import Sbunix.Shell.Model

/-!
# Command lists

What a command list means: every command behind `;` is executed, one behind `&&`
if the command executed last succeeded, and each stage of a pipeline has the
redirections written in it. The line runner does this for the lines described by
`Sane`, and for no others.
-/

namespace Sbunix.Shell

open List Lib

/-! ### The syntax -/

inductive Item
  | word (w : Word)
  | input (w : Word)
  | output (w : Word)
  | append (w : Word)
  deriving DecidableEq, Repr

/-- A simple command: words and redirections, among them the name of the command. -/
structure Simple where
  items : List Item
  named : ∃ w, Item.word w ∈ items

def Item.argument : Item → Option Word
  | .word w => some w
  | _ => none

def Item.source : Item → Option Word
  | .input w => some w
  | _ => none

def Item.target : Item → Option (Word × Bool)
  | .output w => some (w, false)
  | .append w => some (w, true)
  | _ => none

namespace Simple

def argv (s : Simple) : List Word := s.items.filterMap Item.argument

/-- The files of its `<`. -/
def ins (s : Simple) : List Word := s.items.filterMap Item.source

/-- The files of its `>` and `>>`, with a flag for the latter. -/
def outs (s : Simple) : List (Word × Bool) := s.items.filterMap Item.target

/-- The process for the command, with exactly the redirections written. -/
def spawned (s : Simple) : Spawned := ⟨s.argv, s.ins, s.outs⟩

end Simple

structure Pipeline where
  first : Simple
  rest : List Simple

def Pipeline.stages (p : Pipeline) : List Simple := p.first :: p.rest

inductive Conn
  | semi | and
  deriving DecidableEq, Repr

structure CmdList where
  first : Pipeline
  rest : List (Conn × Pipeline)

def Item.toks : Item → List Tok
  | .word w => [.word w]
  | .input w => [.redirIn, .word w]
  | .output w => [.redirOut, .word w]
  | .append w => [.redirAppend, .word w]

def Simple.toks (s : Simple) : List Tok := s.items.flatMap Item.toks

def Pipeline.toks (p : Pipeline) : List Tok :=
  p.first.toks ++ p.rest.flatMap fun s => .pipe :: s.toks

def Conn.tok : Conn → Tok
  | .semi => .semi
  | .and => .and

def restToks (rest : List (Conn × Pipeline)) : List Tok :=
    rest.flatMap fun cp => cp.1.tok :: cp.2.toks

def CmdList.toks (line : CmdList) : List Tok := line.first.toks ++ restToks line.rest

/-! ### The meaning -/

/-- The command is one that only the shell itself can carry out: there is no such
program, or the program does not know the jobs. -/
def needsShell (argv : List Word) : Bool :=
  match argv with
  | [] => false
  | name :: args =>
    [text "exit", text "exec", text "cd", text "jobs", text "fg", text "bg"].contains name ||
      (name = text "kill" && args.any fun w => w.head? = some 37)

/-- The event executes the pipeline: the shell carries out the builtin that it
consists of, or starts a process for each stage. -/
inductive Executes (env : Env) : Pipeline → Event → Prop
  | shell {s : Simple} {a : Action} {r : ℤ} : s.ins = [] → s.outs = [] →
    runBuiltin env s.toks = some (a, r) → Executes env ⟨s, []⟩ (.builtin a r)
  | processes {p : Pipeline} : (∀ s ∈ p.stages, needsShell s.argv = false) →
    Executes env p (.pipeline false (p.stages.map Simple.spawned))

/-- Whether the command in place `i` succeeded. -/
def succeeded (env : Env) (i : ℕ) : Event → Bool
  | .builtin _ r => r = 0
  | .pipeline _ _ => env.status i = 0

def Event.ends : Event → Bool
  | .builtin a _ => a.ends
  | .pipeline _ _ => false

/-- The events are those of the commands from place `i` on, where `ok` says whether
the command executed last succeeded. -/
def FollowsFrom (env : Env) : Bool → ℕ → List (Conn × Pipeline) → List Event → Prop
  | _, _, [], es => es = []
  | ok, i, (c, p) :: rest, es =>
    if c = .semi ∨ ok = true then
      ∃ e es', es = e :: es' ∧ Executes env p e ∧
        if e.ends then es' = [] else FollowsFrom env (succeeded env i e) (i + 1) rest es'
    else FollowsFrom env ok (i + 1) rest es

def Follows (env : Env) (line : CmdList) (es : List Event) : Prop :=
  FollowsFrom env true 0 ((.semi, line.first) :: line.rest) es

/-! ### When the shell does it -/

/-- The builtin fails on its own words. -/
def Fails (env : Env) (s : Simple) : Prop := ∃ a r, runBuiltin env s.toks = some (a, r) ∧ r ≠ 0

/-- `parse_cmd` stops here. -/
def Stops (tail : List Tok) : Prop :=
  ∀ t, tail.head? = some t → t = .pipe ∨ t = .fin

def Parsed.out (a : Parsed) : Option (Word × Bool) := a.redirOut.map fun w => (w, a.append)

/-- The process that the line runner starts for a stage: the words that fit, and the last
redirection of each direction, none for the output of a stage in front of a pipe. -/
def Simple.cut (s : Simple) (last : Bool) : Spawned where
  argv := s.argv.take (MAXARG - 1)
  ins := s.ins.getLast?.toList
  outs := if last then s.outs.getLast?.toList else []

variable {items : List Item} {tail : List Tok} {a : Parsed} {s : Simple}

variable {α : Type}

/-- The processes that the line runner starts from stage `j` on. -/
def started (env : Env) (i : ℕ) : ℕ → Simple → List Simple → List Spawned
  | j, s, [] => if env.fork i j then [s.cut true] else []
  | j, s, s' :: ss =>
    if env.pipe i j = true ∧ env.fork i j = true then s.cut false :: started env i (j + 1)
      s' ss else []

/-- The tokens behind a pipeline, with the separator made a `T_END`. -/
def Ended (tail : List Tok) : Prop := tail = [] ∨ ∃ rest, tail = .fin :: rest

variable {stages : List Spawned} {rest : List (Conn × Pipeline)} {r : ℤ} {line : CmdList}
  {env : Env} {i : ℕ}

theorem Ended.stops (h : Ended tail) : Stops tail := by
  intro t ht
  rcases h with rfl | ⟨rest, rfl⟩
  · cases ht
  · cases ht
    exact .inr rfl

variable {p : Pipeline}

variable {ok : Bool} {fuel : ℕ} {c : Conn} {es : List Event}

section

variable (h : c = .semi ∨ ok = true)
include h

end

section

variable {name : Word} {args : List Word} {sep : Tok} {more : List Tok} {a : Action}

variable (hsep : sep.asWord = none)
include hsep

end

end Sbunix.Shell
