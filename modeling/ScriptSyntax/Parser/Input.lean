/-
Tokens as the grammar sees them.

Line breaks are no tokens of the grammar.  All that counts of them is whether
one stands before a token, and so the grammar reads *items*: tokens other than
line breaks, each with that one bit.  After the last item the input goes on
with its end token for ever.

* `Input.ofTokens` makes an input of any list of tokens.
* `Input.current` is the next token, and `Input.advance` goes past it.
-/
import ScriptSyntax.Token

namespace ScriptSyntax

/-- A token that is no line break. -/
structure Item where
  token : Token
  /-- Whether a line break stands between the token and the one before it. -/
  afterBreak : Bool
  deriving DecidableEq, Repr

/-- The items still to be read, and the end token that follows them. -/
structure Input where
  items : List Item
  final : Token
  deriving DecidableEq, Repr

namespace Input

/-- The items of some tokens, the first of which follows a line break if
`broken` says so. -/
def itemsFrom (broken : Bool) : List Token → List Item
  | [] => []
  | t :: ts =>
    if t.kind = .newLine then itemsFrom true ts
    else ⟨t, broken⟩ :: itemsFrom false ts

/-- The input of a list of tokens.  If its last token is no end token, one
follows in the place of the last token. -/
def ofTokens (ts : List Token) : Input :=
  match ts.getLast? with
  | none => ⟨[], .endAt .start⟩
  | some t =>
    if t.kind = .endOfInput then ⟨itemsFrom false ts.dropLast, t⟩
    else ⟨itemsFrom false ts, .endAt t.span⟩

/-- The next token. -/
def current (s : Input) : Token :=
  match s.items with
  | [] => s.final
  | x :: _ => x.token

/-- Whether a line break stands before the next token. -/
def afterBreak (s : Input) : Bool :=
  match s.items with
  | [] => false
  | x :: _ => x.afterBreak

/-- The input after the next token. -/
def advance (s : Input) : Input :=
  ⟨s.items.tail, s.final⟩

/-- Whether the token after the next one is of some kind and on the same
line. -/
def followedBy (s : Input) (kind : TokenKind) : Bool :=
  !s.advance.afterBreak && s.advance.current.kind == kind

end Input

end ScriptSyntax
