/-
Lexemes: pieces of text that make one token each.

A lexeme remembers the characters it was cut from, split at the place where
its token is reported.  For most lexemes everything from the first character
of the token on is `body`, and `lead` is the blank space before it; a numeral
that goes wrong in the middle is reported there, and a comment that ends a
line is reported after its last character.

* `Reading.Cuts` says that nothing is lost: what a reading took and what it
  left are the text it was given.
-/
import ScriptSyntax.Lexical.Error
import ScriptSyntax.Token

namespace ScriptSyntax

/-- A token without its place, and the characters it was cut from. -/
structure Lexeme where
  kind : TokenKind
  text : String
  /-- The characters before the place where the token is reported. -/
  lead : List Char
  /-- The characters from that place on. -/
  body : List Char
  deriving DecidableEq, Repr

namespace Lexeme

/-- All characters of a lexeme. -/
def source (x : Lexeme) : List Char :=
  x.lead ++ x.body

/-- The token of a lexeme whose characters begin at `p`. -/
def tokenAt (x : Lexeme) (p : Span) : Token :=
  ⟨x.kind, x.text, p.after x.lead⟩

/-- A lexeme that is reported at its first character. -/
def whole (kind : TokenKind) (text : List Char) (body : List Char) : Lexeme :=
  ⟨kind, String.ofList text, [], body⟩

/-- A bad lexeme that is reported at its first character. -/
def bad (e : LexicalError) (body : List Char) : Lexeme :=
  ⟨.bad, e.message, [], body⟩

/-- The same lexeme with more characters before it. -/
def behind (gap : List Char) (x : Lexeme) : Lexeme :=
  { x with lead := gap ++ x.lead }

@[simp] theorem source_whole (k : TokenKind) (t b : List Char) : (whole k t b).source = b := rfl

@[simp] theorem source_bad (e : LexicalError) (b : List Char) : (bad e b).source = b := rfl

@[simp] theorem source_behind (g : List Char) (x : Lexeme) :
    (behind g x).source = g ++ x.source := by
  simp [behind, source]

end Lexeme

/-- A lexeme cut off the front of a text, and the text after it. -/
structure Reading where
  lexeme : Lexeme
  rest : List Char
  deriving DecidableEq, Repr

/-- A reading of `s` is a cut of `s`. -/
def Reading.Cuts (r : Reading) (s : List Char) : Prop :=
  r.lexeme.source ++ r.rest = s

end ScriptSyntax
