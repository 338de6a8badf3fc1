/-
The command line at work: arguments, files and streams.
-/
import ScriptSyntax.CommandLine.Report

namespace ScriptSyntax

/-- Why the system could not read a file. -/
def ReadError.ofSystem : IO.Error → ReadError
  | .noFileOrDirectory .. => .notFound
  | .inappropriateType _ code _ => if code = 21 then .isDirectory else .notDirectory
  | e => .other (toString e)

/-- Reads the text of a file. -/
def readFile (path : String) : IO (Except ReadError String) := do
  try
    return readText (← IO.FS.readBinFile path).toList
  catch e =>
    return .error (.ofSystem e)

/-- Prints a report, and gives its exit code. -/
def printReport (r : Report) : IO UInt32 := do
  IO.print r.stdout
  IO.eprint r.stderr
  return r.code.toUInt32

/-- Prints some text at once. -/
def printNow (text : String) : IO Unit := do
  IO.print text
  (← IO.getStdout).flush

/-- Reads programs from a stream, line by line as they come.  `pending` is the
part of a line that has come so far. -/
partial def converse (input : IO.FS.Stream) (s : Session) (pending : List UInt8) :
    IO UInt32 := do
  let bytes := (← input.read 4096).toList
  let cut := Repl.lines (pending ++ bytes)
  let whole := if bytes.isEmpty then cut else cut.filter (·.getLast? == some 0x0A)
  let left := if bytes.isEmpty then [] else (cut.filter (·.getLast? != some 0x0A)).flatten
  let mut s := s
  for l in whole do
    match readText l with
    | .error e => return ← printReport (.failure ("stdin: " ++ e.message))
    | .ok text =>
      let (r, next) := Repl.line s text
      let _ ← printReport r
      printNow Repl.prompt
      s := next
  if bytes.isEmpty then printReport { stdout := "\n" } else converse input s left

end ScriptSyntax

open ScriptSyntax in
/-- Reads what the arguments need, and carries out what they ask for. -/
def main (arguments : List String) : IO UInt32 := do
  match Request.ofArguments arguments with
  | .ok (.run o .repl) =>
    printNow Repl.prompt
    converse (← IO.getStdin) (Repl.start o) []
  | .ok (.run _ command) =>
    let texts ← command.files.mapM fun path => return (path, ← readFile path)
    let read := fun path => (texts.lookup path).getD (.error .notFound)
    printReport (commandLine read [] arguments)
  | _ => printReport (commandLine (fun _ => .error .notFound) [] arguments)
