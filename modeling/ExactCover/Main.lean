import ExactCover.CommandLine.Run

/-!
# The program

Looks up the one path that the arguments ask for, runs, and prints.
-/

namespace ExactCover

open CommandLine

/-- The number and the words of the operating system for an error. -/
def CommandLine.PathError.ofError : IO.Error → PathError
  | .noFileOrDirectory _ code details | .interrupted _ code details
  | .alreadyExists _ code details | .invalidArgument _ code details
  | .permissionDenied _ code details | .resourceExhausted _ code details
  | .inappropriateType _ code details | .noSuchThing _ code details
  | .otherError code details | .resourceBusy code details | .resourceVanished code details
  | .unsupportedOperation code details | .hardwareFault code details
  | .unsatisfiedConstraints code details | .illegalOperation code details
  | .protocolError code details | .timeExpired code details => ⟨code.toNat, details⟩
  | .unexpectedEof => ⟨0, "end of file"⟩
  | .userError details => ⟨0, details⟩

/-- The result of an action, or why the operating system refuses it. -/
def attempt {α : Type} (action : IO α) : IO (Except PathError α) := do
  try
    return .ok (← action)
  catch error =>
    return .error (.ofError error)

/-- Reads a file. An error is that of opening it, in the words of the operating system. -/
def readFile (path : String) : IO (Except PathError ByteArray) :=
  attempt do (← IO.FS.Handle.mk path .read).readBinToEnd

/-- A regular file. -/
def loadFile (path : String) : IO Entry := do
  match ← readFile path with
  | .ok content => return .file content
  | .error why => return .unreadable why

/-- The entries of a directory that a walk below it looks at: directories, and puzzle files, also
    as links. An entry that the system says nothing about is left out. -/
partial def loadDirectory (path : String) : IO Entry := do
  let place := (IO.FS.DirEntry.mk path "").root
  let .ok listed ← attempt place.readDir | return .directory [] { list := false }
  let mut entries := []
  for entry in listed do
    let path := entry.path.toString
    if path.utf8ByteSize ≤ Entry.maxPathBytes then
      let .ok own ← attempt entry.path.symlinkMetadata | continue
      if own.type == .dir then
        entries := (entry.fileName, ← loadDirectory path) :: entries
      else if Entry.isPuzzleName entry.fileName then
        let .ok led ← attempt entry.path.metadata | continue
        if led.type == .file then
          let file ← loadFile path
          let e := if own.type == .symlink then .link (.ok file) else file
          entries := (entry.fileName, e) :: entries
  return .directory entries

/-- What stands at a path, or why it cannot be opened. -/
def lookUp (path : String) : IO (Except PathError Entry) := do
  let place := (IO.FS.DirEntry.mk path "").root
  match (← attempt place.metadata).toOption.map IO.FS.Metadata.type with
  | some .dir => return .ok (← loadDirectory path)
  | some .file => return .ok (← loadFile path)
  | some _ => return .ok (.special (← readFile path))
  | none => return (← readFile path).map .file

end ExactCover

open ExactCover CommandLine in
/-- Runs the program on the arguments of the command line. -/
def main (args : List String) : IO UInt32 := do
  let found ← match (readArguments args).bind Request.path? with
    | some path => lookUp path
    | none => pure (.error PathError.notFound)
  let result := run (fun _ => found) args
  IO.print result.text
  for message in result.stderr do
    IO.eprintln message
  return result.exit.toUInt32
