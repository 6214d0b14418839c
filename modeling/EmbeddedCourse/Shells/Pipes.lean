import EmbeddedCourse.Shells.Line

/-! # The shell with pipes

`Channels/Bash_with_pipe/main.c`: the commands of a line are counted in a copy of
it, and then its tokens are stored in one row of `args` for each command. A read
behind the terminator of the copy or a store outside `args` is undefined.
-/

namespace EmbeddedCourse.Shells.Pipes

open CString Tokens

def bar : Bytes := ascii ['|']

/-- The loop of `find_number_command`, with a bound on its rounds. A round that skips the
terminator of the string would go on behind it, and has no result. -/
def findLoop : ℕ → Bytes → ℕ → Option ℕ
  | 0, _, _ => none
  | n + 1, str, numberCommand =>
    let size := strcspn str bar
    if size = (cstr str).length then some numberCommand
    else if (cstr str).length < size + 2 then none
    else
      findLoop n (memmove str (size + 2) ((cstr (str.drop (size + 2))).length + 1))
        (numberCommand + 1)

/-- `find_number_command`; each round takes at least two bytes off the string. -/
def findNumberCommand (str : Bytes) : Option ℕ := findLoop ((cstr str).length + 1) str 1

/-- The variables of the loop over the tokens. -/
structure Parser where
  i : ℕ
  indexComand : ℕ
  args : List (List Arg)
deriving DecidableEq, Repr

/-- `args[index_comand][i] = a` -/
def Parser.store (p : Parser) (a : Arg) : Except Stop Parser :=
  match p.args[p.indexComand]? with
  | none => .error .undefined
  | some row =>
    if p.i < row.length then .ok { p with args := p.args.set p.indexComand (row.set p.i a) }
    else .error .undefined

/-- The body of the loop over the tokens. -/
def parseToken (word : Bytes) (token : ℕ) (p : Parser) : Except Stop Parser :=
  if word = wordExit then .error .exited
  else if word = bar then
    (p.store .null).map fun p => { p with indexComand := p.indexComand + 1, i := 0 }
  else (p.store (.token token)).map fun p => { p with i := p.i + 1 }

/-- What `run_process` is called with, and the line that `args` points into. -/
structure Parsed where
  numberCommands : ℕ
  args : List (List Arg)
  line : Bytes
deriving DecidableEq, Repr

/-- A round of `main` from the cut line to the call of `run_process`. -/
def parse (line : Bytes) : Except Stop Parsed :=
  let str := strncpy [] line ((cstr line).length + 1)
  match findNumberCommand str with
  | none => .error .undefined
  | some numberCommands => do
    let args := List.replicate numberCommands (List.replicate maxNumberArguments Arg.indeterminate)
    let (line, p) ← eachToken space parseToken (line.length + 1) line 0
      { i := 0, indexComand := 0, args := args }
    let p ← p.store .null
    .ok { numberCommands := numberCommands, args := p.args, line := line }

/-- The commands that `run_process` starts. -/
def runProcess (p : Parsed) : Except Stop (List (List Bytes)) :=
  (p.args.take p.numberCommands).mapM fun row =>
    match argv p.line row with
    | none => .error .undefined
    | some words => .ok words

/-- What `main` keeps from one round to the next, and the input that is left. -/
structure State where
  line : Bytes
  stdin : Bytes

/-- A round of `main`: the commands that it starts, and the state for the next round. -/
def round (s : State) : Except Stop (List (List Bytes) × State) := do
  let (line, stdin) := readLine s.line s.stdin
  let p ← parse line
  let commands ← runProcess p
  .ok (commands, { line := p.line, stdin := stdin })

/-- `main` at its start, with what the stack held in place of the line. -/
def start (line stdin : Bytes) : State := { line := line, stdin := stdin }

end EmbeddedCourse.Shells.Pipes
