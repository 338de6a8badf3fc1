/-
How tightly operators bind.

A greater number binds tighter, and zero means that the kind is no operator
of that sort.  Operators of one precedence associate to the left.
-/
import ScriptSyntax.Token.Kind

namespace ScriptSyntax

namespace TokenKind

/-- The precedence of `++` and `--` written after their operand. -/
def postfixPrecedence : Nat := 17

/-- The precedence of the operator `?`. -/
def questionPrecedence : Nat := 2

/-- The precedence of a kind as an operator written before its operand. -/
def unaryPrecedence : TokenKind → Nat
  | dollar => 18
  | increment | decrement => 16
  | bang | tilde | plus | minus => 15
  | question => questionPrecedence
  | _ => 0

/-- The precedence of a kind as an operator written after its left operand. -/
def binaryPrecedence : TokenKind → Nat
  | increment | decrement => postfixPrecedence
  | star | slash | percent => 13
  | plus | minus => 12
  | shiftLeft | shiftRight => 11
  | isIn | notIn | isType => 10
  | less | lessEqual | greater | greaterEqual => 9
  | equal | notEqual => 8
  | amp => 7
  | caret => 6
  | pipe => 5
  | ampAmp => 4
  | pipePipe => 3
  | assign | plusAssign | minusAssign | starAssign | slashAssign | percentAssign
  | shiftLeftAssign | shiftRightAssign | ampAssign | caretAssign | pipeAssign => 1
  | _ => 0

end TokenKind

end ScriptSyntax
