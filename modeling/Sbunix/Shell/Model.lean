import Sbunix.Shell.Tokens

/-!
# The line runner of the shell

`expand_globs`, `parse_cmd`, `spawn_pipeline`, `run_pipeline` and `run_line` of
`bin/sh/sh.c`. What the shell does is the list of its events: a builtin that it
carries out itself, or the stages of a pipeline that it starts, with the files
that their input and output are redirected to. Whether `fork`, `pipe`, `chdir` and
`kill` succeed, what programs exit with and what a pattern matches is up to the
environment. The stages of a pipeline are those with a word: a child without one
returns from `run_simple` and goes on as a second shell.
-/

namespace Sbunix.Shell

open Lib

structure Env where
  chdir : Word → Bool
  kill : ℤ → ℤ → Bool
  /-- `jobs_find_by_id`, `jobs_most_recent`: the process group of a job -/
  findJob : ℤ → Option ℤ
  recentJob : Option ℤ
  /-- what waiting for a job in the foreground returns -/
  jobStatus : ℤ → ℤ
  /-- the names that a pattern matches, sorted -/
  globbed : Word → List Word
  /-- for each stage of each pipeline of the line -/
  pipe : ℕ → ℕ → Bool
  fork : ℕ → ℕ → Bool
  /-- what waiting for a pipeline of the line returns: the status of its last stage -/
  status : ℕ → ℤ

/-! ### Patterns -/

def globHasMeta : Word → Bool
  | [] => false
  | c :: s =>
    if c = 42 ∨ c = 63 ∨ c = 91 then true
    else
      match s with
      | [] => false
      | d :: s' => if c = 92 then globHasMeta s' else globHasMeta (d :: s')

def baseName (w : Word) : Word := (w.reverse.takeWhile (· ≠ 47)).reverse

def expandOne (env : Env) (pat : Word) (cap : ℕ) : List Word :=
  if cap = 0 then []
  else if globHasMeta pat = false ∨ globHasMeta (baseName pat) = false then [pat]
  else
    match (env.globbed pat).take (min cap MAXARG) with
    | [] => [pat]
    | names => names

/-- `expand_globs`, with `nc` tokens stored so far. -/
def expandFrom (env : Env) : ℕ → List Token → List Tok
  | _, [] => []
  | nc, t :: ts =>
    if nc < MAXTOK - 1 then
      match t with
      | .word false val =>
        let out := expandOne env val (MAXTOK - 1 - nc)
        out.map .word ++ expandFrom env (nc + out.length) ts
      | .word true val => .word val :: expandFrom env (nc + 1) ts
      | .pipe => .pipe :: expandFrom env (nc + 1) ts
      | .redirIn => .redirIn :: expandFrom env (nc + 1) ts
      | .redirOut => .redirOut :: expandFrom env (nc + 1) ts
      | .redirAppend => .redirAppend :: expandFrom env (nc + 1) ts
      | .and => .and :: expandFrom env (nc + 1) ts
      | .bg => .bg :: expandFrom env (nc + 1) ts
      | .semi => .semi :: expandFrom env (nc + 1) ts
    else []

def expandGlobs (env : Env) (ts : List Token) : List Tok := expandFrom env 0 ts

/-! ### A stage -/

/-- The words and redirections of a stage, as `parse_cmd` stores them. -/
structure Parsed where
  argv : List Word
  redirIn : Option Word
  redirOut : Option Word
  append : Bool

def Parsed.empty : Parsed := ⟨[], none, none, false⟩

/-- `argv[ac++]`, as long as there is room. -/
def Parsed.push (a : Parsed) (w : Word) : Parsed :=
  if a.argv.length < MAXARG - 1 then { a with argv := a.argv ++ [w] } else a

def Tok.asWord : Tok → Option Word
  | .word w => some w
  | _ => none

/-- `parse_cmd`: what it stores, and the tokens from where it stopped. -/
def parseCmd : List Tok → Parsed → Parsed × List Tok
  | [], a => (a, [])
  | .word w :: ts, a => parseCmd ts (a.push w)
  | .redirIn :: u :: ts, a => parseCmd ts { a with redirIn := u.asWord.or a.redirIn }
  | .redirOut :: u :: ts, a =>
    parseCmd ts { a with redirOut := u.asWord.or a.redirOut, append := false }
  | .redirAppend :: u :: ts, a =>
    parseCmd ts { a with redirOut := u.asWord.or a.redirOut, append := true }
  | [.redirIn], a => (a, [])
  | [.redirOut], a => ({ a with append := false }, [])
  | [.redirAppend], a => ({ a with append := true }, [])
  | t :: ts, a => (a, t :: ts)

/-- A process started for a stage: its words, and the files of its `<`, `>` and `>>`. -/
structure Spawned where
  argv : List Word
  ins : List Word
  outs : List (Word × Bool)
  deriving DecidableEq, Repr

/-- What `run_simple` is called with in the child, with the output redirection or without. -/
def Parsed.spawned (a : Parsed) (out : Bool) : Spawned where
  argv := a.argv
  ins := a.redirIn.toList
  outs := if out then a.redirOut.toList.map fun w => (w, a.append) else []

/-- `spawn_pipeline` from stage `j` of pipeline `i` on: the processes that it starts. -/
def spawnPipeline (env : Env) (i : ℕ) : ℕ → ℕ → List Tok → List Spawned
  | 0, _, _ => []
  | fuel + 1, j, ts =>
    let (a, next) := parseCmd ts .empty
    match next with
    | .pipe :: next =>
      if env.pipe i j = true ∧ env.fork i j = true then
        a.spawned false :: spawnPipeline env i fuel (j + 1) next
      else []
    | _ => if env.fork i j then [a.spawned true] else []

/-! ### Builtins -/

/-- What a builtin does. -/
inductive Action
  | exit (code : ℤ)
  | exec (argv : List Word)
  | nothing
  | chdir (dir : Word)
  | pwd
  | kill (pid sig : ℤ)
  -- a message, and nothing else
  | complain
  | echo (words : List Word)
  | jobs
  | fg (pgid : ℤ)
  | bg (pgid : ℤ)
  deriving DecidableEq, Repr

def Action.ends : Action → Bool
  | .exit _ | .exec _ => true
  | _ => false

inductive Event
  | builtin (a : Action) (ret : ℤ)
  | pipeline (bg : Bool) (stages : List Spawned)
  deriving DecidableEq, Repr

def parseInt (s : Word) : ℤ :=
  let (sign, s) := if s.head? = some 45 then ((-1 : ℤ), s.tail) else (1, s)
  sign * (s.takeWhile fun c => 48 ≤ c ∧ c ≤ 57).foldl (fun v c => v * 10 + ((c.toNat : ℤ) - 48)) 0

def wordAt (ts : List Tok) (i : ℕ) : Option Word := ts[i]?.bind Tok.asWord

def wexitstatus (st : ℤ) : ℤ := st / 256 % 256

/-- The builtin `kill`. -/
def runKill (env : Env) (ts : List Tok) : Action × ℤ :=
  let flagged := 2 < ts.length ∧ ((wordAt ts 1).bind List.head?) = some 45
  let sig := if flagged then parseInt ((wordAt ts 1).getD []).tail else 15
  match wordAt ts (if flagged then 2 else 1) with
  | none => (.complain, 1)
  | some arg =>
    let pid :=
      if arg.head? = some 37 then (env.findJob (parseInt arg.tail)).map (-·)
      else if parseInt arg = 0 ∧ arg ≠ [48] then none
      else some (parseInt arg)
    match pid with
    | none => (.complain, 1)
    | some pid => (.kill pid sig, if env.kill pid sig then 0 else 1)

/-- The builtins `fg` and `bg`. -/
def runFg (env : Env) (fg : Bool) (ts : List Tok) : Action × ℤ :=
  let job :=
    match wordAt ts 1 with
    | some (37 :: id) => env.findJob (parseInt id)
    | _ => env.recentJob
  match job with
  | none => (.complain, 1)
  | some pgid => if fg then (.fg pgid, wexitstatus (env.jobStatus pgid)) else (.bg pgid, 0)

/-- The part of `run_line` in front of the loop: the first word may name a builtin. -/
def runBuiltin (env : Env) (ts : List Tok) : Option (Action × ℤ) :=
  match wordAt ts 0 with
  | none => none
  | some name =>
    if name = text "exit" then some (.exit (((wordAt ts 1).map parseInt).getD 0 % 256), 0)
    else if name = text "exec" then
      if ts.length = 1 then some (.nothing, 0)
      else if ts.tail.all fun t => t.asWord.isSome then
        some (.exec ((ts.tail.filterMap Tok.asWord).take MAXARG), 127)
      else none
    else if name = text "cd" then
      let dir := (wordAt ts 1).getD (text "/")
      some (.chdir dir, if env.chdir dir then 0 else 1)
    else if name = text "pwd" then some (.pwd, 0)
    else if name = text "kill" then some (runKill env ts)
    else if name = text "echo" then
      if ts.tail.any fun t => t = .redirOut ∨ t = .redirAppend ∨ t = .pipe then none
      else some (.echo (ts.tail.filterMap Tok.asWord), 0)
    else if name = text "jobs" then some (.jobs, 0)
    else if name = text "fg" then some (runFg env true ts)
    else if name = text "bg" then some (runFg env false ts)
    else none

/-! ### The loop -/

def Tok.separates : Tok → Bool
  | .and | .bg | .semi | .fin => true
  | _ => false

/-- `run_pipeline` of pipeline `i`: with no process started it returns 0. -/
def runPipeline (env : Env) (i : ℕ) (ts : List Tok) (bg : Bool) : Event × ℤ :=
  let stages := spawnPipeline env i (ts.length + 1) 0 ts
  (.pipeline bg stages, if stages = [] ∨ bg then 0 else env.status i)

/-- The loop of `run_line`, from pipeline `i` on. -/
def runList (env : Env) : ℕ → ℕ → List Tok → List Event × ℤ
  | 0, _, _ => ([], 0)
  | fuel + 1, i, ts =>
    let seg := ts.takeWhile (!·.separates)
    match ts.dropWhile (!·.separates) with
    | [] =>
      let (e, st) := runPipeline env i seg false
      ([e], st)
    | sep :: rest =>
      -- the separator is made a `T_END` while the pipeline runs
      let (e, st) := runPipeline env i (seg ++ .fin :: rest) (sep = .bg)
      if sep = .and ∧ st ≠ 0 then ([e], st)
      else if rest = [] then ([e], st)
      else
        let (es, st') := runList env fuel (i + 1) rest
        (e :: es, st')

def runLine (env : Env) (ts : List Tok) : List Event × ℤ :=
  if ts = [] then ([], 0)
  else
    match runBuiltin env ts with
    | some (a, r) => ([.builtin a r], r)
    | none =>
      let (es, st) := runList env (ts.length + 1) 0 ts
      (es, wexitstatus st)

/-- A command line that `main` or `run_script` reads. -/
def shell (env : Env) (line : List UInt8) : List Event × ℤ :=
  runLine env (expandGlobs env (tokenize (linebuf line)))

end Sbunix.Shell
