/-
Arguments of the command line.

Flags stand before the command or after it.  At each of the two places a flag
that is a switch is given at most once, and being quiet does not go together
with being verbose.  Asking for the version ends the reading of arguments at
once, and it is asked before the command.  After `--` no argument is a flag.

* `Request.ofArguments` reads the arguments.
-/
import ScriptSyntax.Parser.Mode

namespace ScriptSyntax

/-- What the command line can be asked to do. -/
inductive Command where
  /-- List the tokens of files. -/
  | tokens (files : List String)
  /-- Dump the trees of files. -/
  | ast (files : List String)
  /-- Check that files are programs. -/
  | check (files : List String)
  /-- Read programs line by line. -/
  | repl
  deriving DecidableEq, Repr

/-- The files that a command needs. -/
def Command.files : Command → List String
  | tokens files | ast files | check files => files
  | repl => []

/-- What arguments ask for. -/
inductive Request where
  | version
  | run (options : ParseOptions) (command : Command)
  deriving DecidableEq, Repr

/-- The ways in which arguments make no sense. -/
inductive UsageError where
  /-- No flag, command or file is expected here. -/
  | unexpected (argument : String)
  /-- A flag is given a value. -/
  | valued (argument : String)
  /-- A switch is given twice. -/
  | repeated
  /-- Quiet and verbose at once. -/
  | conflict
  /-- A command that needs files has none. -/
  | noFiles
  /-- A file has no name. -/
  | emptyName
  deriving DecidableEq, Repr

/-! ### Flags -/

/-- A flag. -/
inductive Flag where
  | verbose | quiet | loopControl | functionControl | version
  deriving DecidableEq, Repr

namespace Flag

/-- The flag of a letter. -/
def ofLetter? : Char → Option Flag
  | 'v' => some verbose
  | 'q' => some quiet
  | 'V' => some version
  | _ => none

/-- The flag of a name. -/
def ofName? : String → Option Flag
  | "verbose" => some verbose
  | "quiet" => some quiet
  | "allow-loop-control" => some loopControl
  | "allow-function-control" => some functionControl
  | "version" => some version
  | _ => none

end Flag

/-- The flags given at one place. -/
structure Flags where
  verbose : Nat := 0
  quiet : Bool := false
  loopControl : Bool := false
  functionControl : Bool := false
  deriving DecidableEq, Repr

/-- Why the reading of arguments stops. -/
inductive Stop where
  | version
  | usage (e : UsageError)
  deriving DecidableEq, Repr

namespace Flags

/-- Turns a switch on that must be off. -/
def switch (on : Bool) (turned : Flags) : Except Stop Flags :=
  if on then .error (.usage .repeated) else .ok turned

/-- Adds a flag.  `top` says whether the version can be asked for. -/
def add (top : Bool) (argument : String) (fs : Flags) : Flag → Except Stop Flags
  | .verbose => .ok { fs with verbose := fs.verbose + 1 }
  | .quiet => switch fs.quiet { fs with quiet := true }
  | .loopControl => switch fs.loopControl { fs with loopControl := true }
  | .functionControl => switch fs.functionControl { fs with functionControl := true }
  | .version => .error (if top then .version else .usage (.unexpected argument))

/-- Adds the flags of some letters. -/
def addLetters (top : Bool) (argument : String) (fs : Flags) : List Char → Except Stop Flags
  | [] => .ok fs
  | c :: cs =>
    match Flag.ofLetter? c with
    | none => .error (.usage (.unexpected argument))
    | some f => do addLetters top argument (← fs.add top argument f) cs

/-- Adds the flags of an argument that begins with a hyphen. -/
def addArgument (top : Bool) (argument : String) (fs : Flags) : Except Stop Flags :=
  match argument.toList with
  | '-' :: '-' :: name =>
    if '=' ∈ name then .error (.usage (.valued argument))
    else match Flag.ofName? (String.ofList name) with
      | none => .error (.usage (.unexpected argument))
      | some f => fs.add top argument f
  | _ :: letters => fs.addLetters top argument letters
  | [] => .ok fs

/-- Refuses flags that do not go together. -/
def check (fs : Flags) : Except Stop Unit :=
  if fs.quiet ∧ 0 < fs.verbose then .error (.usage .conflict) else .ok ()

/-- What flags before and after the command allow together. -/
def options (before after : Flags) : ParseOptions where
  loopControl := before.loopControl || after.loopControl
  functionControl := before.functionControl || after.functionControl

end Flags

/-- Whether an argument is made of flags. -/
def isFlagged (argument : String) : Bool :=
  match argument.toList with
  | '-' :: _ :: _ => true
  | _ => false

/-! ### Commands -/

/-- Reads flags up to the name of a command, if there is one. -/
def readBefore (fs : Flags) : List String → Except Stop (Flags × Option (String × List String))
  | [] => .ok (fs, none)
  | a :: as =>
    if a = "--" then
      match as with
      | [] => .ok (fs, none)
      | b :: _ => .error (.usage (.unexpected b))
    else if isFlagged a then do readBefore (← fs.addArgument true a) as
    else .ok (fs, some (a, as))

/-- Reads flags and files after the name of a command.  `ended` says that there
are no more flags. -/
def readAfter (ended : Bool) (fs : Flags) (files : List String) :
    List String → Except Stop (Flags × List String)
  | [] => .ok (fs, files)
  | a :: as =>
    if ended then readAfter true fs (files ++ [a]) as
    else if a = "--" then readAfter true fs files as
    else if isFlagged a then do readAfter false (← fs.addArgument false a) files as
    else readAfter false fs (files ++ [a]) as

/-- The command of a name, with its files. -/
def Command.ofName (name : String) (files : List String) : Except Stop Command :=
  let needing (command : List String → Command) : Except Stop Command :=
    if "" ∈ files then .error (.usage .emptyName)
    else if files.isEmpty then .error (.usage .noFiles)
    else .ok (command files)
  match name with
  | "tokens" => needing .tokens
  | "ast" => needing .ast
  | "check" => needing .check
  | "repl" =>
    match files with
    | [] => .ok .repl
    | f :: _ => .error (.usage (.unexpected f))
  | _ => .error (.usage (.unexpected name))

/-- Reads the arguments, or says why they cannot be read.  Without a command,
programs are read line by line. -/
def readArguments (arguments : List String) : Except Stop (ParseOptions × Command) := do
  let (before, rest) ← readBefore {} arguments
  match rest with
  | none =>
    before.check
    return (before.options {}, .repl)
  | some (name, more) =>
    let (after, files) ← readAfter false {} [] more
    let command ← Command.ofName name files
    after.check
    before.check
    return (before.options after, command)

/-- What arguments ask for. -/
def Request.ofArguments (arguments : List String) : Except UsageError Request :=
  match readArguments arguments with
  | .ok (options, command) => .ok (.run options command)
  | .error .version => .ok .version
  | .error (.usage e) => .error e

end ScriptSyntax
