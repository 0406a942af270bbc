import ExactCover.CommandLine.Options

/-!
# Arguments

The grammar of the command line. There are four levels: the top one and the subcommands `file`,
`text` and `completions`. At each level an option is given at most once, and its value follows as
an argument of its own or is joined to it: `--opt value`, `--opt=value`, `-o value`, `-ovalue`,
`-o=value`. A value that begins with a dash must be joined. After `--` every argument stands for
itself. The options before a subcommand belong to the top level and do not reach it.

One path may be given at each level without an option. Only the one at the top counts, and only
if there is no subcommand.
-/

namespace ExactCover.CommandLine

open Sudoku (Method)

/-- What the user asks for. -/
inductive Request where
  /-- Solve the puzzle file, or the puzzle files below the directory, at a path. -/
  | path (options : Options) (path : String)
  /-- Solve a puzzle given in the arguments. -/
  | text (options : Options) (input : String)
  /-- Write a completion script for a shell. -/
  | completions (shell : String)
  /-- Explain the arguments. -/
  | help
  /-- Tell the version. -/
  | version
  /-- There was nothing to do. -/
  | nothing
  deriving DecidableEq, Repr

/-- The path that a request needs to be looked up. -/
def Request.path? : Request → Option String
  | .path _ place => some place
  | _ => none

/-- How reading the arguments ends early. -/
inductive Stop where
  /-- The arguments follow no rule. -/
  | usage
  /-- Help was asked for. -/
  | help
  /-- The version was asked for. -/
  | version
  deriving DecidableEq, Repr

/-- The options. -/
inductive Name where
  | debug | verify | stats | checkUnique | solver | selection | maxNodes
  | path | input | version | help
  deriving DecidableEq, Repr

/-- The levels of the command line. -/
inductive Level where
  | top | file | text | completions
  deriving DecidableEq, Repr

namespace Name

/-- The options with two dashes. -/
def long : List (String × Name) :=
  [("debug", debug), ("verify", verify), ("stats", stats), ("check-unique", checkUnique),
    ("solver", solver), ("selection", selection), ("max-nodes", maxNodes), ("path", path),
    ("input", input), ("version", version), ("help", help)]

/-- The options with one dash and one letter. -/
def short : List (Char × Name) :=
  [('d', debug), ('v', verify), ('s', stats), ('i', input), ('V', version), ('h', help)]

/-- The option is followed by a value. -/
def takesValue : Name → Bool
  | debug | checkUnique | version | help => false
  | _ => true

/-- The option belongs to a level. -/
def belongsTo (name : Name) (level : Level) : Bool :=
  match name, level with
  | help, _ => true
  | version, level => level = .top
  | path, level => level = .file
  | input, level => level = .text
  | _, level => level ≠ .completions

/-- The option of a level with two dashes. -/
def ofLong? (level : Level) (s : String) : Option Name :=
  (long.lookup s).filter (·.belongsTo level)

/-- The option of a level with one dash. -/
def ofShort? (level : Level) (c : Char) : Option Name :=
  (short.lookup c).filter (·.belongsTo level)

end Name

/-- The subcommands. -/
def subcommands : List (String × Level) :=
  [("file", .file), ("text", .text), ("completions", .completions)]

/-- The shells that have a completion script. -/
def shells : List String := ["bash", "elvish", "fish", "powershell", "zsh"]

/-! ## Values -/

/-- A truth value. -/
def readBool? : String → Option Bool
  | "true" => some true
  | "false" => some false
  | _ => none

/-- The number that decimal digits write, read after the number `n`. -/
def readDigits? (n : Nat) : List Char → Option Nat
  | [] => some n
  | c :: rest => if c.isDigit then readDigits? (10 * n + (c.toNat - '0'.toNat)) rest else none

/-- A word in decimal digits, perhaps after a plus sign. -/
def readWord? (s : String) : Option Nat :=
  let digits := match s.toList with
    | '+' :: rest => rest
    | chars => chars
  if digits.isEmpty then none
  else (readDigits? 0 digits).filter (· < wordBound)

/-- A path, which must not be empty. -/
def readPath? (s : String) : Option String := if s.isEmpty then none else some s

/-! ## One level -/

/-- What has been read at one level. -/
structure Reading where
  level : Level
  options : Options := {}
  /-- The options given so far. -/
  seen : List Name := []
  /-- The option whose value is the next argument. -/
  awaiting : Option Name := none
  /-- `--` has been given. -/
  literal : Bool := false
  /-- The arguments that belong to no option. -/
  operands : List String := []
  /-- The value of `--path`. -/
  path : Option String := none
  /-- The value of `--input`. -/
  input : Option String := none
  deriving DecidableEq, Repr

namespace Reading

/-- What must be there, or the arguments follow no rule. -/
def require (x : Option α) : Except Stop α :=
  match x with
  | some a => .ok a
  | none => .error .usage

/-- Marks an option as given. It must not have been given before, and no other option may wait
    for its value. -/
def mark (r : Reading) (name : Name) : Except Stop Reading :=
  if r.awaiting.isSome ∨ name ∈ r.seen then .error .usage
  else .ok { r with seen := name :: r.seen }

/-- Takes an option without value. `--debug` changes nothing in the answer: a run keeps no log. -/
def flag (r : Reading) (name : Name) : Except Stop Reading := do
  let r ← r.mark name
  match name with
  | .version => throw .version
  | .help => throw .help
  | .checkUnique => return { r with options := { r.options with checkUnique := true } }
  | _ => return r

/-- Takes the value of an option. -/
def value (r : Reading) (name : Name) (v : String) : Except Stop Reading := do
  let o := r.options
  match name with
  | .verify => return { r with options := { o with verify := ← require (readBool? v) } }
  | .stats => return { r with options := { o with stats := ← require (readBool? v) } }
  | .solver => return { r with options := { o with method := ← require (Method.ofName? v) } }
  | .selection =>
    return { r with options := { o with selection := ← require (Selection.ofName? v) } }
  | .maxNodes => return { r with options := { o with maxNodes := some (← require (readWord? v)) } }
  | .path => return { r with path := some (← require (readPath? v)) }
  | .input => return { r with input := some v }
  | _ => throw .usage

/-- Takes an option with two dashes and with the value joined to it, if any. -/
def long (r : Reading) (name : String) (joined : Option String) : Except Stop Reading := do
  let name ← require (Name.ofLong? r.level name)
  match name.takesValue, joined with
  | true, some v => (← r.mark name).value name v
  | true, none => return { (← r.mark name) with awaiting := some name }
  | false, none => r.flag name
  | false, some _ => throw .usage

/-- Takes the letters after one dash: options without value, and perhaps one with a value at
    the end. -/
def short (r : Reading) : List Char → Except Stop Reading
  | [] => .ok r
  | c :: rest => do
    let name ← require (Name.ofShort? r.level c)
    if name.takesValue then
      let r ← r.mark name
      match rest with
      | [] => return { r with awaiting := some name }
      | '=' :: v => r.value name (String.ofList v)
      | v => r.value name (String.ofList v)
    else
      short (← r.flag name) rest

/-- The most arguments without option that a level takes: the path that every level may have,
    and the shell before it. -/
def maxOperands : Level → Nat
  | .completions => 2
  | _ => 1

/-- Takes an argument that belongs to no option. A shell must be known and a path must not be
    empty. -/
def operand (r : Reading) (v : String) : Except Stop Reading :=
  if r.operands.length < maxOperands r.level ∧
      (if r.level = .completions ∧ r.operands = [] then v ∈ shells else v ≠ "") then
    .ok { r with operands := r.operands ++ [v] }
  else .error .usage

/-- The option name and the joined value of an argument with two dashes. -/
def splitJoined (s : List Char) : String × Option String :=
  match s.span (· ≠ '=') with
  | (name, '=' :: v) => (String.ofList name, some (String.ofList v))
  | (name, _) => (String.ofList name, none)

/-- Takes the next argument. -/
def next (r : Reading) (arg : String) : Except Stop Reading :=
  if r.literal then r.operand arg
  else
    match arg.toList with
    | ['-', '-'] => if r.awaiting.isSome then .error .usage else .ok { r with literal := true }
    | '-' :: '-' :: rest =>
      let (name, joined) := splitJoined rest
      r.long name joined
    | '-' :: c :: rest => r.short (c :: rest)
    | _ =>
      match r.awaiting with
      | some name => { r with awaiting := none }.value name arg
      | none => r.operand arg

/-- What the level asks for, once all arguments are read. -/
def finish (r : Reading) : Except Stop Request := do
  if r.awaiting.isSome then
    throw .usage
  match r.level with
  | .top =>
    match r.operands with
    | path :: _ => return .path r.options path
    | [] => return .nothing
  | .file => return .path r.options (← require r.path)
  | .text => return .text r.options (← require r.input)
  | .completions => return .completions (← require r.operands.head?)

/-- Reads the arguments of a level that has no subcommands. -/
def all (r : Reading) (args : List String) : Except Stop Request := do
  (← args.foldlM next r).finish

end Reading

/-! ## All levels -/

/-- Reads what follows `help`: the name of a subcommand, if anything. -/
def readHelp (args : List String) : Stop :=
  match args with
  | [] => .help
  | [name] => if name = "help" ∨ (subcommands.lookup name).isSome then .help else .usage
  | _ => .usage

/-- Reads arguments from the top level on. A subcommand is one wherever no option waits for its
    value. -/
def readTop (r : Reading) : List String → Except Stop Request
  | [] => r.finish
  | arg :: args =>
    if r.literal ∨ r.awaiting.isSome then do readTop (← r.next arg) args
    else if arg = "help" then .error (readHelp args)
    else
      match subcommands.lookup arg with
      | some level => Reading.all { level } args
      | none => do readTop (← r.next arg) args

/-- What the arguments ask for, or none if they follow no rule. -/
def readArguments (args : List String) : Option Request :=
  match readTop { level := .top } args with
  | .ok request => some request
  | .error .help => some .help
  | .error .version => some .version
  | .error .usage => none

end ExactCover.CommandLine
