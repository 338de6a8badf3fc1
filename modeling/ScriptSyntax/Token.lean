/-
Tokens: a kind, the text it carries, and the place where it was found.
-/
import ScriptSyntax.Span
import ScriptSyntax.Token.Kind

namespace ScriptSyntax

/-- One token of a script. -/
structure Token where
  kind : TokenKind
  text : String
  span : Span
  deriving DecidableEq, Repr

/-- The token that ends a text, found at `p`. -/
def Token.endAt (p : Span) : Token :=
  ⟨.endOfInput, TokenKind.endOfInput.spelling, p⟩

end ScriptSyntax
