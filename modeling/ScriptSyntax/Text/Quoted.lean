/-
Quoted texts.

A text is quoted between two equal marks.  Inside, a backslash, the mark
itself and the characters that would break a line are written with a
backslash, and characters that cannot be shown are written by their number in
hexadecimal.  Which characters those are is up to the reader of the text, so
the functions take it as an argument.
-/

namespace ScriptSyntax

namespace Text

/-- A character written by its number. -/
def byNumber (c : Char) : List Char :=
  ['\\', 'u', '\x7b'] ++ Nat.toDigits 16 c.toNat ++ ['\x7d']

/-- A character as it stands between two quotation marks. -/
def quoteChar (mark : Char) (hidden : Char → Bool) (c : Char) : List Char :=
  if c = '\\' then ['\\', '\\']
  else if c = '\n' then ['\\', 'n']
  else if c = '\t' then ['\\', 't']
  else if c = '\r' then ['\\', 'r']
  else if c = '\x00' then ['\\', '0']
  else if c = mark then ['\\', mark]
  else if hidden c then byNumber c
  else [c]

/-- A text between quotation marks. -/
def quote (mark : Char) (hidden : Char → Bool) (cs : List Char) : List Char :=
  mark :: cs.flatMap (quoteChar mark hidden) ++ [mark]

end Text

end ScriptSyntax
