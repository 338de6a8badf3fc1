/-
Levels of nesting.

Brackets, blocks, conversions and operators before operands contain what the
grammar has one level further down.  A grammar is built from the grammar below
it, and the lowest one from none: what it would contain is nested too deeply.
-/
import ScriptSyntax.Parser.Basic
import ScriptSyntax.Parser.Mode

namespace ScriptSyntax

/-- What can be read at some level of nesting. -/
structure Grammar where
  /-- A statement of some mode. -/
  statement : StatementMode → Parser Tree
  /-- An expression whose operators between operands bind tighter than some
  precedence. -/
  expression : Nat → Parser Tree

/-- Reads something one level further down.  If there is no such level, fails
at `p`. -/
def Parser.nested {α : Type} (below : Option Grammar) (p : Span) (read : Grammar → Parser α) :
    Parser α :=
  match below with
  | none => fail .tooDeeplyNested p
  | some g => read g

end ScriptSyntax
