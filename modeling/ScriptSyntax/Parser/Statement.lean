/-
Statements.

A statement is a block, a conversion, a control statement where the mode
allows one, or an expression.  A separator follows it if the mode asks for
one, except after a block.  Inside brackets and after `return` any statement
but a control statement may stand, and no separator follows.
-/
import ScriptSyntax.Parser.Expression

namespace ScriptSyntax

namespace Parser

/-- A conversion to a type whose keyword is the next token. -/
def conversion (below : Option Grammar) (target : ValueType) : Parser Tree := do
  let keyword ← advance
  let _ ← expect .leftParen
  let inner ← nested below keyword.span fun g => g.statement .expression
  let _ ← expect .rightParen
  return .convert keyword.span target inner

/-- A block whose opening brace is the next token, with statements of the
grammar `g`. -/
def block (g : Grammar) (mode : StatementMode) : Parser Tree := do
  let opening ← advance
  let ss ← statements (fun k => k = .rightBrace ∨ k = .endOfInput)
    (g.statement mode.withSeparator)
  let _ ← expect .rightBrace
  return .compound opening.span ss

/-- A control statement that the mode allows, or else what `otherwise` reads.
After `return` stands what `value` reads. -/
def controlled (mode : StatementMode) (value otherwise : Parser Tree) : Parser Tree := do
  let t ← peek
  if mode.loopControl ∧ t.kind = .controller ∧ t.text = "break" then do
    let _ ← advance
    return .breakLoop t.span
  else if mode.loopControl ∧ t.kind = .controller ∧ t.text = "continue" then do
    let _ ← advance
    return .continueLoop t.span
  else if mode.functionControl ∧ t.kind = .word ∧ t.text = "return" then do
    let _ ← advance
    let expression ← value
    return .returnValue t.span expression
  else otherwise

/-- The type that a token names. -/
def typeOf? (t : Token) : Option ValueType :=
  if t.kind = .word then ValueType.ofKeyword? t.text else none

/-- A statement other than a block, without its separator.  `control` adds the
control statements to what it is given. -/
def simple (below : Option Grammar) (control : Parser Tree → Parser Tree) : Parser Tree := do
  let s ← input
  match typeOf? s.current with
  | some target =>
    if s.followedBy .leftParen then conversion below target
    else do
      note .declarationUnavailable
      control (expression below 0)
  | none => control (expression below 0)

/-- A separator: a semicolon, which is read, or a line break or the end of the
input before the next token. -/
def separator : Parser PUnit := do
  let s ← input
  if s.current.kind = .semicolon then do
    let _ ← advance
  else if s.current.kind = .endOfInput ∨ s.afterBreak then return
  else fail .missingSeparator s.current.span

/-- A statement, to whose expressions `control` adds control statements. -/
def statementWith (below : Option Grammar) (control : Parser Tree → Parser Tree)
    (mode : StatementMode) : Parser Tree := do
  let t ← peek
  if t.kind = .endOfInput then fail .incorrectStatement t.span
  else if t.kind = .leftBrace then nested below t.span fun g => block g mode
  else do
    let x ← simple below control
    if mode.separator then separator
    note (.statement x.name x.span)
    return x

/-- A statement inside brackets or after `return`. -/
def inner (below : Option Grammar) : Parser Tree :=
  statementWith below id .expression

/-- A statement of some mode. -/
def statement (below : Option Grammar) (mode : StatementMode) : Parser Tree :=
  statementWith below (controlled mode (inner below)) mode

end Parser

end ScriptSyntax
