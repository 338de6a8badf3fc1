/-
What can be wrong with a program.
-/
import ScriptSyntax.Diagnostic

namespace ScriptSyntax

/-- The greatest number of brackets, blocks, conversions and operators before
operands that may stand one inside the other. -/
def maxNesting : Nat := 128

/-- The ways in which tokens fail to be a program. -/
inductive ParseError where
  /-- One token is needed and another was found. -/
  | expected (wanted found : String)
  /-- A statement does not end where the next one begins. -/
  | missingSeparator
  /-- A token that begins no expression. -/
  | incorrectStatement
  /-- The operator `?` before an operand. -/
  | unsupportedQuestion
  /-- A bad token, with its message. -/
  | lexical (message : String)
  /-- Nesting beyond the limit. -/
  | tooDeeplyNested
  deriving DecidableEq, Repr

namespace ParseError

/-- The wording of an error. -/
def message : ParseError → String
  | expected wanted found => "Expected '" ++ wanted ++ "' but was '" ++ found ++ "'"
  | missingSeparator => "Need new line or semi-colon between two statements"
  | incorrectStatement => "Incorrect statement found"
  | unsupportedQuestion => "Question operator is not supported yet"
  | lexical message => message
  | tooDeeplyNested => "Nesting exceeds " ++ toString maxNesting ++ " levels"

/-- The diagnostic of an error found at `p`. -/
def diagnostic (e : ParseError) (p : Span) : Diagnostic :=
  .syntaxError e.message p

end ParseError

/-- An error and the place where it was found. -/
structure Failure where
  cause : ParseError
  span : Span
  deriving DecidableEq, Repr

/-- The diagnostic of a failure. -/
def Failure.diagnostic (f : Failure) : Diagnostic :=
  f.cause.diagnostic f.span

end ScriptSyntax
