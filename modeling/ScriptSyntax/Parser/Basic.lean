/-
Parsers over tokens.

A parser reads from an input and either gives a value or fails.  In both cases
it says what it has left of the input and what it has logged.

* `Parser` is a monad, in which the first failure ends a sequence.
* `Parser.bind_ok` and `Parser.bind_error` say what a sequence does.
* `Parser.statements` reads statements up to a token that ends them.
-/
import ScriptSyntax.Event
import ScriptSyntax.Parser.Error
import ScriptSyntax.Parser.Input
import ScriptSyntax.Tree.Basic

namespace ScriptSyntax

/-- What has come of reading: a value or a failure, the input left, and the
log. -/
structure Outcome (α : Type) where
  result : Except Failure α
  rest : Input
  log : List Event

/-- A way of reading values from inputs. -/
def Parser (α : Type) : Type :=
  Input → Outcome α

namespace Parser

variable {α β : Type}

/-- Gives a value and reads nothing. -/
def pure (a : α) : Parser α := fun s =>
  ⟨.ok a, s, []⟩

/-- One parser, and then the one that its value selects. -/
def bind (p : Parser α) (f : α → Parser β) : Parser β := fun s =>
  match p s with
  | ⟨.error e, rest, log⟩ => ⟨.error e, rest, log⟩
  | ⟨.ok a, rest, log⟩ =>
    let o := f a rest
    ⟨o.result, o.rest, log ++ o.log⟩

/-- What one parser gives, changed. -/
def map (f : α → β) (p : Parser α) : Parser β := fun s =>
  let o := p s
  ⟨o.result.map f, o.rest, o.log⟩

instance : Monad Parser where
  pure := Parser.pure
  bind := Parser.bind
  map := Parser.map

/-- Fails at some place and reads nothing. -/
def fail (cause : ParseError) (p : Span) : Parser α := fun s =>
  ⟨.error ⟨cause, p⟩, s, []⟩

/-- Logs an event. -/
def note (e : Event) : Parser PUnit := fun s =>
  ⟨.ok ⟨⟩, s, [e]⟩

/-- The input itself. -/
def input : Parser Input := fun s =>
  ⟨.ok s, s, []⟩

/-- The next token, which stays unread. -/
def peek : Parser Token := fun s =>
  ⟨.ok s.current, s, []⟩

/-- Reads the next token. -/
def advance : Parser Token := fun s =>
  ⟨.ok s.current, s.advance, []⟩

/-! ### Sequences -/

@[simp] theorem map_run (f : α → β) (p : Parser α) (s : Input) :
    (f <$> p) s = ⟨(p s).result.map f, (p s).rest, (p s).log⟩ := rfl

theorem bind_run (p : Parser α) (f : α → Parser β) (s : Input) :
    (p >>= f) s = Parser.bind p f s := rfl

theorem bind_ok {p : Parser α} {f : α → Parser β} {s rest : Input} {a : α} {log : List Event}
    (h : p s = ⟨.ok a, rest, log⟩) :
    (p >>= f) s = ⟨(f a rest).result, (f a rest).rest, log ++ (f a rest).log⟩ := by
  simp [bind_run, Parser.bind, h]

theorem bind_error {p : Parser α} {f : α → Parser β} {s rest : Input} {e : Failure}
    {log : List Event} (h : p s = ⟨.error e, rest, log⟩) :
    (p >>= f) s = ⟨.error e, rest, log⟩ := by
  simp [bind_run, Parser.bind, h]

/-! ### Tokens and statements -/

/-- Reads a token of some kind, and fails at any other. -/
def expect (kind : TokenKind) : Parser Token := do
  let t ← advance
  if t.kind = kind then return t
  else fail (.expected kind.spelling t.text) t.span

/-- Reads statements up to a token that ends them, at most as many as
`bound` has items. -/
def statementsWithin (ends : TokenKind → Bool) (statement : Parser Tree) :
    List Item → Parser (List Tree)
  | [] => return []
  | _ :: bound => do
    let t ← peek
    if ends t.kind then return []
    else
      let first ← statement
      (first :: ·) <$> statementsWithin ends statement bound

/-- Reads statements up to a token that ends them.  Since a statement takes at
least one item, there are no more of them than items. -/
def statements (ends : TokenKind → Bool) (statement : Parser Tree) : Parser (List Tree) := do
  statementsWithin ends statement (← input).items

end Parser

end ScriptSyntax
