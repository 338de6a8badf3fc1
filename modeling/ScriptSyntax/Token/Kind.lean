/-
The kinds of tokens.

A kind either has one fixed spelling (marks and operators) or stands for a
family of lexemes (words, numerals, texts), in which case its spelling is the
name under which messages and listings show it.

* `TokenKind.spelling` gives that spelling or name, and `TokenKind.display` puts
  it into a column.
* `TokenKind.marks` lists the kinds that are written with punctuation, the
  longer spellings first, so that the first spelling that a text starts with
  is the longest.
* `TokenKind.reserved?` says which words are not ordinary words.
-/
import ScriptSyntax.Text.Padding

namespace ScriptSyntax

/-- What a token is. -/
inductive TokenKind where
  -- the ends of texts and lines, and what could not be read
  | endOfInput | newLine | bad
  -- words and literals
  | word | char | string
  | integer | longInteger | decimal | longDecimal | hexadecimal | octal | binary
  | boolean | controller | null
  -- operators that are words
  | isIn | isType | asType | notIn
  -- brackets and single marks
  | leftParen | rightParen | leftBrace | rightBrace | leftBracket | rightBracket
  | semicolon | comma | colon | dot | question | dollar | atSign | hash
  -- operators
  | assign | equal | bang | notEqual
  | plus | plusAssign | increment
  | minus | minusAssign | decrement
  | star | starAssign | slash | slashAssign | percent | percentAssign
  | less | lessEqual | shiftLeft | shiftLeftAssign
  | greater | greaterEqual | shiftRight | shiftRightAssign
  | tilde | caret | caretAssign
  | amp | ampAssign | ampAmp | pipe | pipeAssign | pipePipe
  deriving DecidableEq, Repr

namespace TokenKind

/-- The spelling of a kind, or the name of the family it stands for. -/
def spelling : TokenKind → String
  | endOfInput => "<EOF>"
  | newLine => "<NL>"
  | bad => "<bad>"
  | word => "word"
  | char => "char"
  | string => "string"
  | integer => "integer"
  | longInteger => "long integer"
  | decimal => "decimal"
  | longDecimal => "long decimal"
  | hexadecimal => "hexadecimal"
  | octal => "octal"
  | binary => "binary"
  | boolean => "boolean"
  | controller => "controller"
  | null => "null"
  | isIn => "in"
  | isType => "is"
  | asType => "as"
  | notIn => "!in"
  | leftParen => "("
  | rightParen => ")"
  | leftBrace => "\x7b"
  | rightBrace => "\x7d"
  | leftBracket => "["
  | rightBracket => "]"
  | semicolon => ";"
  | comma => ","
  | colon => ":"
  | dot => "."
  | question => "?"
  | dollar => "$"
  | atSign => "@"
  | hash => "#"
  | assign => "="
  | equal => "=="
  | bang => "!"
  | notEqual => "!="
  | plus => "+"
  | plusAssign => "+="
  | increment => "++"
  | minus => "-"
  | minusAssign => "-="
  | decrement => "--"
  | star => "*"
  | starAssign => "*="
  | slash => "/"
  | slashAssign => "/="
  | percent => "%"
  | percentAssign => "%="
  | less => "<"
  | lessEqual => "<="
  | shiftLeft => "<<"
  | shiftLeftAssign => "<<="
  | greater => ">"
  | greaterEqual => ">="
  | shiftRight => ">>"
  | shiftRightAssign => ">>="
  | tilde => "~"
  | caret => "^"
  | caretAssign => "^="
  | amp => "&"
  | ampAssign => "&="
  | ampAmp => "&&"
  | pipe => "|"
  | pipeAssign => "|="
  | pipePipe => "||"

/-- A kind as it is shown in a column. -/
def display (align : Text.Align) (fill : Char) (most : Option Nat) (width : Nat) (k : TokenKind) :
    String :=
  Text.fit align fill most width k.spelling

theorem toList_spelling_ne_nil (k : TokenKind) : k.spelling.toList ≠ [] := by
  cases k <;> decide

/-- The kinds written with punctuation, longer spellings before shorter ones. -/
def marks : List TokenKind :=
  [notIn, shiftLeftAssign, shiftRightAssign,
   equal, notEqual, plusAssign, increment, minusAssign, decrement, starAssign,
   slashAssign, percentAssign, lessEqual, shiftLeft, greaterEqual, shiftRight,
   caretAssign, ampAssign, ampAmp, pipeAssign, pipePipe,
   leftParen, rightParen, leftBrace, rightBrace, leftBracket, rightBracket,
   semicolon, comma, colon, dot, question, dollar, atSign, hash,
   assign, bang, plus, minus, star, slash, percent, less, greater,
   tilde, caret, amp, pipe]

/-- The kinds of tokens that carry a value. -/
def isLiteral : TokenKind → Bool
  | char | string | integer | longInteger | decimal | longDecimal
  | hexadecimal | octal | binary | boolean | null => true
  | _ => false

/-- The kind of a word that is not an ordinary word. -/
def reserved? : String → Option TokenKind
  | "null" => some null
  | "true" | "false" => some boolean
  | "break" | "continue" => some controller
  | "is" => some isType
  | "in" => some isIn
  | "as" => some asType
  | _ => none

end TokenKind

end ScriptSyntax
