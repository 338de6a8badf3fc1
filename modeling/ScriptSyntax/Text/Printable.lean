/-
Which characters can be shown as they are.

Listings show a text on one line, so a character that has no shape of its own
there is written by its number instead: one that is not visible, and a mark
that combines with the character before it.

* `isHidden` says which characters are written by their number.
* `shown` is a text as listings show it.
-/
import ScriptSyntax.Text.Combining
import ScriptSyntax.Text.Quoted
import ScriptSyntax.Text.Shapeless

namespace ScriptSyntax

namespace Text

/-- Whether a number lies in one of some closed ranges. -/
def inRanges (ranges : List (Nat × Nat)) (n : Nat) : Bool :=
  ranges.any fun r => r.1 ≤ n && n ≤ r.2

/-- The characters that a listing writes by their number. -/
def isHidden (c : Char) : Bool :=
  let n := c.toNat
  n < 0x20 || 0x7F ≤ n && (inRanges shapelessRanges n || inRanges combiningRanges n)

/-- A text as listings show it, on one line. -/
def shown (text : String) : String :=
  String.ofList (quote '"' isHidden text.toList)

end Text

end ScriptSyntax
