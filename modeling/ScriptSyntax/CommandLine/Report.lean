/-
What the commands print.

A command is given the texts of its files by a function, so that what it
prints depends on nothing else.  What it prints for several files is what it
prints for each of them, one after another, and it fails if it fails for one.

* `Report.append` puts reports after one another.
* `listTokens`, `dumpTree` and `checkFile` are the commands for one file.
* `Repl.line` reads one line, and `repl` all lines of an input.
* `commandLine` is the whole command line.
-/
import ScriptSyntax.CommandLine.Arguments
import ScriptSyntax.CommandLine.FileTree
import ScriptSyntax.Session

namespace ScriptSyntax

/-- What has been printed, and the exit code. -/
@[ext]
structure Report where
  stdout : String := ""
  stderr : String := ""
  code : Nat := 0
  deriving DecidableEq, Repr

namespace Report

/-- One report after another.  The worse exit code counts. -/
def append (a b : Report) : Report :=
  ⟨a.stdout ++ b.stdout, a.stderr ++ b.stderr, max a.code b.code⟩

instance : Append Report := ⟨append⟩

@[simp] theorem stdout_append (a b : Report) : (a ++ b).stdout = a.stdout ++ b.stdout := rfl

@[simp] theorem stderr_append (a b : Report) : (a ++ b).stderr = a.stderr ++ b.stderr := rfl

@[simp] theorem code_append (a b : Report) : (a ++ b).code = max a.code b.code := rfl

/-- A line on the standard output. -/
def line (text : String) : Report :=
  { stdout := text ++ "\n" }

/-- A line on the standard error, for a failure. -/
def failure (text : String) : Report :=
  { stderr := text ++ "\n", code := 1 }

end Report

/-! ### Files -/

/-- The program in the file at a path, or why there is none. -/
inductive LoadError where
  | unreadable (path : String) (e : ReadError)
  | syntaxError (d : Diagnostic)
  deriving DecidableEq, Repr

/-- The wording of an error. -/
def LoadError.message : LoadError → String
  | unreadable path e => path ++ ": " ++ e.message
  | syntaxError d => d.text

/-- Reads the program in the file at a path. -/
def loadProgram (read : String → Except ReadError String) (path : String) :
    Except LoadError Tree := do
  let text ← (read path).mapError (.unreadable path)
  (parseText text).mapError .syntaxError

/-- The tree of a text under some options. -/
def treeOf (o : ParseOptions) (text : String) : Tree :=
  parseTokens o (tokenize text)

/-- The exit code of a tree. -/
def codeOf (t : Tree) : Nat :=
  if t.isBad then 1 else 0

/-- The line of a token: its place, its kind and its text.  The kind is as wide as it is. -/
def tokenLine (path : String) (t : Token) : String :=
  path ++ ":" ++ t.span.text ++ "\t" ++ t.kind.display .left ' ' none 0 ++ "\t" ++
    Text.shown t.text ++ "\n"

/-- Lists the tokens of a file. -/
def listTokens (path text : String) : Report :=
  { stdout := String.join ((tokenize text).map (tokenLine path)) }

/-- Dumps the tree of a file. -/
def dumpTree (o : ParseOptions) (text : String) : Report :=
  { stdout := (treeOf o text).dumpLines, code := codeOf (treeOf o text) }

/-- The name under which the program of a file is kept: the last name of its
path up to the last point in it, or the path if it ends in no name. -/
def moduleName (path : String) : String :=
  match (properNames path).getLast? with
  | none => path
  | some name =>
    if name = ['.', '.'] then path
    else
      let stem := (name.reverse.dropWhile (· ≠ '.')).drop 1
      if stem = [] then String.ofList name else String.ofList stem.reverse

/-- Checks a file, and keeps its program with those of the files before it. -/
def checkFile (o : ParseOptions) (imports : Imports) (path text : String) : Report × Imports :=
  let (p, s) := ((Session.withImports (tokenize text) imports).withOptions o).parse
  match p.root with
  | .bad d => (.failure (path ++ ": " ++ d.text), s.imports)
  | root =>
    let count := (root.statements?.getD []).length
    let (kept, s) := s.register (moduleName path) root
    ({ stderr := path ++ ": valid (" ++ toString count ++ " statement(s))\n",
       code := if kept then 0 else 1 }, s.imports)

/-- Does something for each file in turn that can be read. -/
def forFiles {σ : Type} (read : String → Except ReadError String)
    (action : σ → String → String → Report × σ) (state : σ) : List String → Report
  | [] => {}
  | path :: paths =>
    match read path with
    | .error e => .failure (path ++ ": " ++ e.message) ++ forFiles read action state paths
    | .ok text =>
      (action state path text).1 ++ forFiles read action (action state path text).2 paths

/-! ### Lines -/

namespace Repl

/-- What is printed before each line. -/
def prompt : String := "> "

/-- The session before the first line. -/
def start (o : ParseOptions) : Session :=
  (Session.ofTokens []).withOptions o

/-- Reads the program on one line. -/
def line (s : Session) (text : String) : Report × Session :=
  let (p, s) := (s.reuse (tokenize text)).parse
  match p.root with
  | .bad d => ({ stderr := d.text ++ "\n" }, s)
  | root => ({ stdout := root.dumpLines }, s)

/-- Cuts bytes into lines, each with its line break. -/
def lines : List UInt8 → List (List UInt8)
  | [] => []
  | b :: bs =>
    if b = 0x0A then [b] :: lines bs
    else match lines bs with
      | [] => [[b]]
      | l :: ls => (b :: l) :: ls

/-- Reads lines until one is no text. -/
def run (s : Session) : List (List UInt8) → Report
  | [] => { stdout := prompt ++ "\n" }
  | l :: ls =>
    { stdout := prompt } ++
    match readText l with
    | .error e => .failure ("stdin: " ++ e.message)
    | .ok text => (line s text).1 ++ run (line s text).2 ls

end Repl

/-- Reads programs line by line. -/
def repl (o : ParseOptions) (stdin : List UInt8) : Report :=
  Repl.run (Repl.start o) (Repl.lines stdin)

/-! ### Requests -/

/-- The name and version of the program. -/
def versionText : String := "seabow-syntax 0.1.0"

/-- Carries out a command. -/
def Command.run (read : String → Except ReadError String) (stdin : List UInt8)
    (o : ParseOptions) : Command → Report
  | .tokens files => forFiles read (fun _ path text => (listTokens path text, ())) () files
  | .ast files => forFiles read (fun _ _ text => (dumpTree o text, ())) () files
  | .check files => forFiles read (checkFile o) .empty files
  | .repl => ScriptSyntax.repl o stdin

/-- The command line: what arguments ask for, or the exit code of a usage
error. -/
def commandLine (read : String → Except ReadError String) (stdin : List UInt8)
    (arguments : List String) : Report :=
  match Request.ofArguments arguments with
  | .error _ => { code := 2 }
  | .ok .version => .line versionText
  | .ok (.run o command) => command.run read stdin o

end ScriptSyntax
