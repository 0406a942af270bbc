/-!
# A tree of files

A directory holds named entries, each a file, a link or a directory again. A path is looked up name
by name. Where that fails, or a file cannot be read, the reason has the words of the operating
system.
-/

namespace ExactCover.CommandLine

/-- Why the operating system refuses a path: its number and its words. -/
structure PathError where
  code : Nat
  details : String
  deriving DecidableEq, Repr

namespace PathError

/-- The text of the error. -/
def message (why : PathError) : String := s!"{why.details} (os error {why.code})"

def notFound : PathError := ⟨2, "No such file or directory"⟩

def permissionDenied : PathError := ⟨13, "Permission denied"⟩

def notADirectory : PathError := ⟨20, "Not a directory"⟩

def nameTooLong : PathError := ⟨36, "File name too long"⟩

end PathError

/-- What the permissions of a directory allow. -/
structure Access where
  /-- Its entries can be listed. -/
  list : Bool := true
  /-- Its entries can be opened. -/
  search : Bool := true
  deriving DecidableEq, Repr

/-- A walk sees the entries of the directory. -/
def Access.shows (access : Access) : Bool := access.list && access.search

/-- What stands under a name. The entries of a directory have different names, in any order. -/
inductive Entry where
  | file (content : ByteArray)
  /-- A regular file that cannot be read. -/
  | unreadable (why : PathError)
  /-- No regular file, as a device, with what reading it gives. -/
  | special (content : Except PathError ByteArray)
  | directory (entries : List (String × Entry)) (access : Access := {})
  /-- A link with what it leads to in the end. A cycle of links is followed as far as the
      operating system does, and leads to its refusal there. -/
  | link (target : Except PathError Entry)

namespace Entry

instance : Inhabited Entry := ⟨directory []⟩

/-- The entry is a directory. -/
def isDirectory : Entry → Bool
  | directory .. => true
  | _ => false

/-- The entry is a link. -/
def isLink : Entry → Bool
  | link _ => true
  | _ => false

/-- What the entry leads to: itself, unless it is a link. -/
def target : Entry → Except PathError Entry
  | link (.ok e) => target e
  | link (.error why) => .error why
  | e => .ok e

/-- The regular file that the entry is or leads to: what stands in it, or why it cannot be
    read. -/
def regular? : Entry → Option (Except PathError ByteArray)
  | file content => some (.ok content)
  | unreadable why => some (.error why)
  | link (.ok e) => regular? e
  | _ => none

/-- The entry of a given name. -/
def find? (name : String) : List (String × Entry) → Option Entry
  | [] => none
  | (n, e) :: entries => if n = name then some e else find? name entries

/-- Puts an entry under a name, in the place of an entry of that name if there is one. -/
def put (name : String) (e : Entry) : List (String × Entry) → List (String × Entry)
  | [] => [(name, e)]
  | (n, e') :: entries =>
    if n = name then (n, e) :: entries else (n, e') :: put name e entries

/-- Adds an entry at the place that some names lead to. Directories on the way are made. A
    directory that is there already stays as it is. -/
def insert (e : Entry) : List String → Entry → Entry
  | [], at_ => if at_.isDirectory ∧ e.isDirectory then at_ else e
  | name :: names, at_ =>
    let (entries, access) := match at_ with
      | directory entries access => (entries, access)
      | _ => ([], {})
    directory (put name (insert e names ((find? name entries).getD (directory []))) entries) access

/-- Adds an entry at the place that a path leads to, given the path's names. `above` holds the
    names that lead to the directory the path has come to, the last one first. An empty name, as
    between two strokes, and `.` mean that directory itself; `..` means the one above. -/
def insertAlong (e : Entry) (above : List String) : List String → Entry → Entry
  | [], tree => insert e above.reverse tree
  | name :: names, tree =>
    if name = "" ∨ name = "." then insertAlong e above names tree
    else if name = ".." then insertAlong e above.tail names tree
    else if names = [] then insert e (name :: above).reverse tree
    else
      insertAlong e (name :: above) names (insert (directory []) (name :: above).reverse tree)

/-- The directory that holds the given files, each named by a path. -/
def ofFiles (files : List (String × Entry)) : Entry :=
  files.foldl (fun tree (path, e) => insertAlong e [] (path.splitOn "/") tree) (directory [])

/-- The most bytes that a path to be opened may have. -/
def maxPathBytes : Nat := 4095

/-- The most bytes that a name may have. -/
def maxNameBytes : Nat := 255

/-- Follows names from an entry. `above` holds the directories that lead to it, the nearest
    first. Nothing is known above the directory that a link leads to. -/
def follow (above : List Entry) (e : Entry) : List String → Except PathError Entry
  | [] => .ok e
  | name :: rest =>
    let above := if e.isLink then [] else above
    match e.target with
    | .error why => .error why
    | .ok (directory entries access) =>
      if name = "" then follow above (directory entries access) rest
      else if access.search = false then .error .permissionDenied
      else if maxNameBytes < name.utf8ByteSize then .error .nameTooLong
      else if name = "." then follow above (directory entries access) rest
      else if name = ".." then
        match above with
        | parent :: above => follow above parent rest
        | [] => .error .notFound
      else
        match find? name entries with
        | some next => follow (directory entries access :: above) next rest
        | none => .error .notFound
    | .ok _ => .error .notADirectory

/-- The entry at a path that starts in a given directory. Nothing is known outside of that
    directory. -/
def resolve (tree : Entry) (path : String) : Except PathError Entry :=
  if maxPathBytes < path.utf8ByteSize then .error .nameTooLong
  else if path.startsWith "/" then .error .notFound
  else follow [] tree (path.splitOn "/")

/-! ## Puzzle files -/

/-- The part of a file name after its last point. A point at the beginning starts no
    extension. -/
def extension? (name : String) : Option String :=
  match name.toList.splitOn '.' with
  | [] | [_] => none
  | first :: rest =>
    if first = [] ∧ rest.length = 1 then none else rest.getLast?.map String.ofList

/-- The file holds a puzzle. -/
def isPuzzleName (name : String) : Bool := extension? name = some "sudoku"

/-- The path of an entry of a directory. -/
def join (path name : String) : String :=
  if path.endsWith "/" then path ++ name else path ++ "/" ++ name

/-- Puts an entry before the first entry whose name is not smaller. -/
def insertSorted (name : String) (e : Entry) : List (String × Entry) → List (String × Entry)
  | [] => [(name, e)]
  | (n, e') :: entries =>
    if n < name then (n, e') :: insertSorted name e entries else (name, e) :: (n, e') :: entries

mutual

/-- The same tree with the entries of each directory in the order of their names. Names are
    compared character by character, which is also the order of their bytes. -/
def sort : Entry → Entry
  | directory entries access => directory (sortAll entries) access
  | e => e

/-- Entries in the order of their names, each of them sorted. -/
def sortAll : List (String × Entry) → List (String × Entry)
  | [] => []
  | (name, e) :: entries => insertSorted name (sort e) (sortAll entries)

end

/-- The puzzle at a path, if a regular file stands there, or a link to one, and the name is that
    of a puzzle. A file whose path is too long to be opened is passed over. -/
def puzzle (path name : String) (e : Entry) : List (String × Except PathError ByteArray) :=
  match e.regular? with
  | some content =>
    if isPuzzleName name ∧ path.utf8ByteSize ≤ maxPathBytes then [(path, content)] else []
  | none => []

mutual

/-- The puzzle files of an entry with the given path and name, with their paths, in the order in
    which they stand in the tree. A directory whose entries cannot be seen is passed over, and a
    link to a directory is not followed. -/
def puzzlesAt (path name : String) : Entry → List (String × Except PathError ByteArray)
  | directory entries access => if access.shows then puzzlesIn path entries else []
  | e => puzzle path name e

/-- The puzzle files below the directory at the given path. -/
def puzzlesIn (path : String) :
    List (String × Entry) → List (String × Except PathError ByteArray)
  | [] => []
  | (name, e) :: entries => puzzlesAt (join path name) name e ++ puzzlesIn path entries

end

end Entry

end ExactCover.CommandLine
