/-
Diagnostics: a named error with a message and a place.
-/
import ScriptSyntax.Span

namespace ScriptSyntax

/-- An error as it is shown to the writer of a script. -/
structure Diagnostic where
  name : String
  message : String
  span : Span
  deriving DecidableEq, Repr

namespace Diagnostic

/-- The name of every error found in a script. -/
def syntaxErrorName : String := "SyntaxError"

/-- A diagnostic that has no place yet. -/
def unplaced (name message : String) : Diagnostic :=
  ⟨name, message, .nowhere⟩

/-- An error found in a script at `p`. -/
def syntaxError (message : String) (p : Span) : Diagnostic :=
  ⟨syntaxErrorName, message, p⟩

/-- The same diagnostic at another place. -/
def moveTo (d : Diagnostic) (p : Span) : Diagnostic :=
  { d with span := p }

/-- The line that shows a diagnostic. -/
def text (d : Diagnostic) : String :=
  d.name ++ ": " ++ d.message ++ " at line " ++ toString d.span.line
    ++ ", column " ++ toString d.span.column

end Diagnostic

end ScriptSyntax
