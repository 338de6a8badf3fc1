/-
Expressions.

An expression is an operand, and then operators with their right operands for
as long as these bind tighter than what the expression stands in.  An operator
before an operand counts only if it binds at least as tight as that, and what
it takes is an expression one level further down.  An operator after an
operand ends the expression.
-/
import ScriptSyntax.Parser.Nesting
import ScriptSyntax.Token.Precedence

namespace ScriptSyntax

namespace Parser

/-- The rest of a group whose parenthesis at `p` has been read. -/
def group (below : Option Grammar) (p : Span) : Parser Tree := do
  let inner ← nested below p fun g => g.statement .expression
  let _ ← expect .rightParen
  return .group p inner

/-- A literal or a group. -/
def primary (below : Option Grammar) : Parser Tree := do
  let t ← advance
  match t.kind with
  | .leftParen => group below t.span
  | .bad => fail (.lexical t.text) t.span
  | _ =>
    match Literal.ofToken? t with
    | some v => return .literal t.span v
    | none => fail .incorrectStatement t.span

/-- An operand of an operator of precedence `least`. -/
def operand (below : Option Grammar) (least : Nat) : Parser Tree := do
  let t ← peek
  let precedence := t.kind.unaryPrecedence
  if precedence = 0 ∨ precedence < least then primary below
  else if precedence = TokenKind.questionPrecedence then do
    note .questionUnavailable
    let _ ← advance
    fail .unsupportedQuestion t.span
  else do
    let _ ← advance
    let inner ← nested below t.span fun g => g.expression precedence
    return .unary t.span t.kind inner

/-- Reads on after `left` for as long as operators bind tighter than `least`,
past at most as many of them in a row as `bound` has items. -/
def operatorsWithin (operand : Nat → Parser Tree) : List Item → Nat → Tree → Parser Tree
  | [], _, left => return left
  | _ :: bound, least, left => do
    let t ← peek
    let precedence := t.kind.binaryPrecedence
    if precedence ≤ least then return left
    else do
      let _ ← advance
      if precedence = TokenKind.postfixPrecedence then return .trailing t.span t.kind left
      else do
        let first ← operand precedence
        let right ← operatorsWithin operand bound precedence first
        operatorsWithin operand bound least (.binary t.span t.kind left right)

/-- Reads on after `left` for as long as operators bind tighter than `least`.
Every operator is an item, so there are no more of them than items. -/
def operators (operand : Nat → Parser Tree) (least : Nat) (left : Tree) : Parser Tree := do
  operatorsWithin operand (← input).items least left

/-- An expression whose operators bind tighter than `least`. -/
def expression (below : Option Grammar) (least : Nat) : Parser Tree := do
  let first ← operand below least
  operators (operand below) least first

end Parser

end ScriptSyntax
