/-
What a statement may be where it stands.
-/

namespace ScriptSyntax

/-- What the writer of a program is allowed at its top level. -/
structure ParseOptions where
  /-- `break` and `continue` are statements. -/
  loopControl : Bool := false
  /-- `return` with a value is a statement. -/
  functionControl : Bool := false
  deriving DecidableEq, Repr, Inhabited

/-- What is asked of a statement, and what it may be. -/
structure StatementMode where
  /-- A line break or a semicolon must follow. -/
  separator : Bool := false
  loopControl : Bool := false
  functionControl : Bool := false
  deriving DecidableEq, Repr, Inhabited

namespace StatementMode

/-- The mode inside brackets: no separator, and no control statement. -/
def expression : StatementMode := {}

/-- The same mode, with a separator. -/
def withSeparator (m : StatementMode) : StatementMode :=
  { m with separator := true }

end StatementMode

/-- The mode of the statements of a program. -/
def ParseOptions.statementMode (o : ParseOptions) : StatementMode where
  separator := true
  loopControl := o.loopControl
  functionControl := o.functionControl

end ScriptSyntax
