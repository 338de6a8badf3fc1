/-
The lexer: lexemes in their places.

A lexer is a position and the text still unread from there on.  It never
fails: what is no token becomes a bad token, and reading goes on after it.

* `Lexer.next` reads one token; at the end of the text it gives the end token
  again and again.
* `Lexer.drain` reads all tokens that are left, up to and with the end token.
* `tokenize` reads all tokens of a text.
-/
import ScriptSyntax.Lexical.Scan

namespace ScriptSyntax

/-- Where a text has been read to, and what is left of it. -/
structure Lexer where
  position : Span
  unread : List Char
  deriving DecidableEq, Repr

/-- The tokens of lexemes whose characters begin at `p`. -/
def Lexeme.place (p : Span) : List Lexeme → List Token
  | [] => []
  | x :: xs => x.tokenAt p :: place (p.after x.source) xs

namespace Lexer

/-- The lexer at the beginning of a text. -/
def ofText (text : String) : Lexer :=
  ⟨.start, text.toList⟩

/-- The lexer after the characters of a lexeme. -/
def skip (l : Lexer) (r : Reading) : Lexer :=
  ⟨l.position.after r.lexeme.source, r.rest⟩

/-- Reads the next token. -/
def next (l : Lexer) : Token × Lexer :=
  let r := Scan.next l.unread
  (r.lexeme.tokenAt l.position, l.skip r)

/-- Reads all tokens that are left. -/
def drain (l : Lexer) : List Token × Lexer :=
  (Lexeme.place l.position (Scan.lexemes l.unread), ⟨l.position.after l.unread, []⟩)

end Lexer

/-- The tokens of a text. -/
def tokenize (text : String) : List Token :=
  (Lexer.ofText text).drain.1

end ScriptSyntax
