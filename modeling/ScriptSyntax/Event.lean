/-
The log of what was done.

Reading a script leaves a log: an entry for every token and every statement
read, one for a syntax error, one for a program that is kept under a name, and
one wherever the grammar has a gap.
-/
import ScriptSyntax.Diagnostic
import ScriptSyntax.Text.Printable
import ScriptSyntax.Token

namespace ScriptSyntax

/-- How much an entry of the log matters. -/
inductive Level where
  | trace | debug
  deriving DecidableEq, Repr

/-- What an entry of the log says beside its wording. -/
structure Fields where
  kind? : Option TokenKind := none
  place? : Option Span := none
  name? : Option String := none
  deriving DecidableEq, Repr

/-- An entry of the log as it is written. -/
structure LogRecord where
  level : Level
  message : String
  fields : Fields
  deriving DecidableEq, Repr

/-- An entry of the log. -/
inductive Event where
  /-- A token was read. -/
  | token (t : Token)
  /-- A statement other than a block was read. -/
  | statement (name : String) (span : Span)
  /-- A word names a type, but no conversion follows. -/
  | declarationUnavailable
  /-- The operator `?` stands before an operand. -/
  | questionUnavailable
  /-- The program could not be read. -/
  | syntaxError (error : Diagnostic)
  /-- A program is kept under a name. -/
  | imported (name : String)
  deriving DecidableEq, Repr

namespace Event

/-- Errors and kept programs matter more than the rest. -/
def level : Event → Level
  | token t => if t.kind = .bad then .debug else .trace
  | syntaxError _ | imported _ => .debug
  | statement .. | declarationUnavailable | questionUnavailable => .trace

/-- The wording of an entry. -/
def message : Event → String
  | token t => if t.kind = .bad then "bad token: " ++ t.text else "token " ++ Text.shown t.text
  | statement name _ => "parsed " ++ name ++ " statement"
  | declarationUnavailable => "declaration parsing is not available"
  | questionUnavailable => "question operator parsing is not available"
  | syntaxError d => "syntax error: " ++ d.message
  | imported _ => "registered import"

/-- The fields of an entry.  The kind of a bad token is not written. -/
def fields : Event → Fields
  | token t => { kind? := if t.kind = .bad then none else some t.kind, place? := some t.span }
  | statement _ p => { place? := some p }
  | declarationUnavailable | questionUnavailable => {}
  | syntaxError d => { place? := some d.span }
  | imported name => { name? := some name }

/-- An entry as it is written. -/
def record (e : Event) : LogRecord :=
  ⟨e.level, e.message, e.fields⟩

end Event

end ScriptSyntax
