/-
Texts in columns.

A text may be cut to a greatest length and is then padded to a least width.
Lengths and widths count characters, and a text that is wide enough stays as
it is.
-/

namespace ScriptSyntax

namespace Text

/-- Where a text stands in its column. -/
inductive Align where
  | left | right | centre
  deriving DecidableEq, Repr

/-- The characters of padding that stand before a text, out of `n`.  In the
centre an odd one stands after it. -/
def Align.before (n : Nat) : Align → Nat
  | left => 0
  | right => n
  | centre => n / 2

/-- A text of at most `most` characters, in a column of at least `width`. -/
def fit (align : Align) (fill : Char) (most : Option Nat) (width : Nat) (text : String) :
    String :=
  let cs := text.toList.take (most.getD text.length)
  let n := width - cs.length
  let before := align.before n
  String.ofList (List.replicate before fill ++ cs ++ List.replicate (n - before) fill)

end Text

end ScriptSyntax
