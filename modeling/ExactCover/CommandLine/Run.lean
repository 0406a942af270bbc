import ExactCover.CommandLine.Arguments
import ExactCover.CommandLine.Files
import ExactCover.CommandLine.Report

/-!
# Runs

A run of the program as a function of its arguments and of the files it finds. A directory is
searched for puzzle files; they are solved in the order of their paths, and the first failure
ends the run.
-/

namespace ExactCover.CommandLine

open Sudoku

/-- What a run leaves behind. -/
structure Result where
  /-- The exit code: 0 for success, 1 for a failure, 2 for wrong arguments. -/
  exit : Nat
  /-- The lines of standard output. -/
  stdout : List String := []
  /-- The messages on standard error. -/
  stderr : List String := []
  deriving DecidableEq, Repr, Inhabited

namespace Result

/-- The text of standard output. Every line is ended. -/
def text (r : Result) : String := String.join (r.stdout.map (· ++ "\n"))

/-- The result of printing a transcript. -/
def ofTranscript (t : Transcript) : Result :=
  match t.failure with
  | none => { exit := 0, stdout := t.lines }
  | some failure =>
    { exit := 1, stdout := t.lines, stderr := [s!"Error: {failure.message}"] }

end Result

/-- The report on a puzzle file, given what stands in it or why it cannot be read. -/
def solveFile (o : Options) (path : String) : Except PathError ByteArray → Transcript
  | .ok content => Report.ofParsed o (some path) (Puzzle.parseBytes content)
  | .error why => { failure := some (.parse (.unreadable why.message)) }

/-- The reports on some puzzle files, one after the other up to the first failure. -/
def solveFiles (o : Options) : List (String × Except PathError ByteArray) → Transcript
  | [] => {}
  | (path, content) :: files =>
    (solveFile o path content).andThen fun _ => solveFiles o files

/-- The reports on the puzzle files below a directory. -/
def solveDirectory (o : Options) (path : String) (entries : List (String × Entry)) :
    Transcript :=
  solveFiles o (Entry.puzzlesIn path (Entry.sortAll entries))

/-- The report on an entry at a path. A link is followed. -/
def solveEntry (o : Options) (path : String) : Entry → Transcript
  | .directory entries access => if access.shows then solveDirectory o path entries else {}
  | .file content => solveFile o path (.ok content)
  | .unreadable why => solveFile o path (.error why)
  | .special content => solveFile o path content
  | .link (.ok e) => solveEntry o path e
  | .link (.error why) => solveFile o path (.error why)

/-- The report on what was found at a path. -/
def solvePath (o : Options) (path : String) (found : Except PathError Entry) : Transcript :=
  match found with
  | .ok e => solveEntry o path e
  | .error why => solveFile o path (.error why)

/-- The report on a puzzle given in the arguments. -/
def solveText (o : Options) (input : String) : Transcript :=
  Report.ofParsed o none (Puzzle.parse input)

/-- The name and the version of the program. -/
def versionLine : String := "dlx-sudoku 0.1.0"

/-- How the program is called. -/
def usageLine : String :=
  "Usage: dlx-sudoku [OPTIONS] [PATH] [file --path <PATH> | text --input <TEXT>]"

/-- Answers a request. `lookup` finds the entry at a path. -/
def answer (lookup : String → Except PathError Entry) : Request → Result
  | .path o path => .ofTranscript (solvePath o path (lookup path))
  | .text o input => .ofTranscript (solveText o input)
  | .completions _ => { exit := 0 }
  | .help => { exit := 0, stdout := [usageLine] }
  | .version => { exit := 0, stdout := [versionLine] }
  | .nothing =>
    { exit := 1, stderr := ["No command provided. Use --help for more information."] }

/-- Runs the program on its arguments. `lookup` finds the entry at a path. -/
def run (lookup : String → Except PathError Entry) (args : List String) : Result :=
  match readArguments args with
  | some request => answer lookup request
  | none => { exit := 2, stderr := [usageLine] }

/-- Runs the program in a directory with the given content. -/
def runIn (tree : Entry) (args : List String) : Result := run tree.resolve args

end ExactCover.CommandLine
