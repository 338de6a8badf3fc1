/-
Files and directories held in memory.

A path is followed name by name.  An empty name and `.` stay where they are
and `..` goes up, but only in a directory.  The top of a tree is where a path
begins, unless the path begins with a slash; around the tree there are only
directories, and no name leads from them to anything.

* `Place.step` says where one name leads.
* `FileTree.read` is the content of the file at a path, or why there is none.
-/
import ScriptSyntax.Text.Utf8

namespace ScriptSyntax

/-- Why a file cannot be read. -/
inductive ReadError where
  | notFound
  | notDirectory
  | isDirectory
  /-- The content of the file is not UTF-8. -/
  | notText
  /-- Any other reason, in its own words. -/
  | other (message : String)
  deriving DecidableEq, Repr

/-- The wording of an error. -/
def ReadError.message : ReadError → String
  | notFound => "No such file or directory (os error 2)"
  | notDirectory => "Not a directory (os error 20)"
  | isDirectory => "Is a directory (os error 21)"
  | notText => "stream did not contain valid UTF-8"
  | other message => message

/-- The text that bytes spell. -/
def readText (bytes : List UInt8) : Except ReadError String :=
  match Utf8.decode? bytes with
  | some cs => .ok (String.ofList cs)
  | none => .error .notText

/-- The names of a path, the empty ones included. -/
def names (path : List Char) : List (List Char) :=
  match path with
  | [] => [[]]
  | c :: cs =>
    if c = '/' then [] :: names cs
    else match names cs with
      | [] => [[c]]
      | n :: ns => (c :: n) :: ns

/-- The names of a path that lead somewhere else. -/
def properNames (path : String) : List (List Char) :=
  (names path.toList).filter fun n => n ≠ [] ∧ n ≠ ['.']

/-- Where a path can lead: to names below the top of a tree, or into one of
the directories around it. -/
inductive Place where
  | inside (path : List (List Char))
  | around
  deriving DecidableEq, Repr

namespace Place

/-- Where a path begins. -/
def start (path : String) : Place :=
  if path.toList.head? = some '/' then around else inside []

/-- The directory above a place. -/
def up : Place → Place
  | inside [] => around
  | inside (n :: ns) => inside (n :: ns).dropLast
  | around => around

/-- Where a name leads from a place. -/
def step (here : Place) (n : List Char) : Option Place :=
  if n = [] ∨ n = ['.'] then some here
  else if n = ['.', '.'] then some here.up
  else match here with
    | inside path => some (inside (path ++ [n]))
    | around => none

end Place

/-- What is found at a place. -/
inductive Entry where
  | file (content : List UInt8)
  | directory
  deriving DecidableEq, Repr

/-- Entries under the names that lead to them.  Where names are given twice,
the first entry counts. -/
structure FileTree where
  entries : List (List (List Char) × Entry)

namespace FileTree

/-- No files. -/
def empty : FileTree := ⟨[]⟩

/-- What stands at a place. -/
def entry? (t : FileTree) : Place → Option Entry
  | .inside [] => some .directory
  | .inside path => t.entries.lookup path
  | .around => some .directory

/-- Puts an entry at a place in the tree. -/
def putAt (t : FileTree) (e : Entry) : Place → FileTree
  | .inside path => ⟨(path, e) :: t.entries⟩
  | .around => t

/-- Puts an entry where names lead to, and directories on the way there. -/
def putFrom (t : FileTree) (e : Entry) (here : Place) : List (List Char) → FileTree
  | [] => t.putAt e here
  | n :: ns =>
    match here.step n with
    | some there => putFrom (t.putAt .directory here) e there ns
    | none => t

/-- Puts an entry at a path. -/
def put (t : FileTree) (path : String) (e : Entry) : FileTree :=
  t.putFrom e (.start path) (names path.toList)

/-- What names lead to from a place. -/
def find (t : FileTree) (here : Place) : List (List Char) → Except ReadError Entry
  | [] => (t.entry? here).elim (.error .notFound) .ok
  | n :: ns =>
    match t.entry? here, here.step n with
    | some .directory, some there => find t there ns
    | some (.file _), _ => .error .notDirectory
    | _, _ => .error .notFound

/-- The content of the file at a path. -/
def read (t : FileTree) (path : String) : Except ReadError (List UInt8) := do
  match ← t.find (.start path) (names path.toList) with
  | .file content => return content
  | .directory => throw .isDirectory

/-- The text of the file at a path. -/
def readText (t : FileTree) (path : String) : Except ReadError String := do
  ScriptSyntax.readText (← t.read path)

end FileTree

end ScriptSyntax
