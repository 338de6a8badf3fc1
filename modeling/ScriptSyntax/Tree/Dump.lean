/-
Trees as text.

A tree is written as a nested list whose first word names what it is, so that
`1 + 2 * 3` becomes `(+ 1 (* 2 3))`.  A program is written with one statement
on each line.

* `Tree.write t tail` is the text of `t` with `tail` after it, and
  `Tree.write_eq_append` says so.
* `Tree.dump` writes one tree, and `Tree.dumpLines` a program.
-/
import ScriptSyntax.Text.Quoted
import ScriptSyntax.Tree.Basic

namespace ScriptSyntax

/-- A quoted text in a dump: what cannot be shown is shown all the same. -/
def Literal.quoted (mark : Char) (text : String) : List Char :=
  Text.quote mark (fun _ => false) text.toList

/-- A literal in a dump, with base mark and suffix. -/
def Literal.dump : Literal → List Char
  | integer text | decimal text => text.toList
  | longInteger text => text.toList ++ ['L']
  | longDecimal text => text.toList ++ ['D']
  | hexadecimal text => '0' :: 'x' :: text.toList
  | octal text => '0' :: 'o' :: text.toList
  | binary text => '0' :: 'b' :: text.toList
  | char text => quoted '\'' text
  | string text => quoted '"' text
  | boolean value => (if value then "true" else "false").toList
  | null => "null".toList

namespace Tree

/-- A word with `tail` after it. -/
def word (name : String) (tail : List Char) : List Char :=
  name.toList ++ tail

/-- The beginning of a nested list that a word names, with `tail` after it. -/
def form (name : String) (tail : List Char) : List Char :=
  '(' :: word name (' ' :: tail)

mutual

/-- The text of a tree, with `tail` after it. -/
def write (t : Tree) (tail : List Char) : List Char :=
  match t with
  | compound _ ss => '(' :: word "block" (writeAll ss (')' :: tail))
  | bad d =>
    form "error" (Literal.quoted '"' d.message ++ ' ' :: '@' :: word d.span.text (')' :: tail))
  | literal _ v => v.dump ++ tail
  | group _ t => form "group" (write t (')' :: tail))
  | convert _ target t => form "convert" (word target.keyword (' ' :: write t (')' :: tail)))
  | unary _ op t => form op.spelling (write t (')' :: tail))
  | binary _ op l r => form op.spelling (write l (' ' :: write r (')' :: tail)))
  | trailing _ op t => form "postfix" (word op.spelling (' ' :: write t (')' :: tail)))
  | returnValue _ t => form "return" (write t (')' :: tail))
  | breakLoop _ => word "break" tail
  | continueLoop _ => word "continue" tail

/-- The texts of some trees with a space before each, and `tail` after them. -/
def writeAll (ts : List Tree) (tail : List Char) : List Char :=
  match ts with
  | [] => tail
  | t :: ts => ' ' :: write t (writeAll ts tail)

end

/-- The text of one tree. -/
def dump (t : Tree) : String :=
  String.ofList (t.write [])

/-- The text of a program: a line for each statement, or for the whole tree if
it is no program. -/
def dumpLines (t : Tree) : String :=
  let lines := t.statements?.getD [t]
  String.ofList (lines.flatMap fun s => s.write ['\n'])

theorem writeAll_eq_append {ts : List Tree}
    (h : ∀ t ∈ ts, ∀ tail, write t tail = write t [] ++ tail) (tail : List Char) :
    writeAll ts tail = writeAll ts [] ++ tail := by
  induction ts generalizing tail with
  | nil => rfl
  | cons t ts ih =>
    have ht := h t List.mem_cons_self
    have hs := ih fun u hu => h u (List.mem_cons_of_mem t hu)
    rw [writeAll, writeAll, ht, hs, ht (writeAll ts []), List.cons_append, List.append_assoc]

/-- Writing before `tail` is writing, and `tail` after it. -/
theorem write_eq_append (t : Tree) (tail : List Char) : write t tail = write t [] ++ tail := by
  induction t generalizing tail with
  | compound p ss ih =>
    rw [write, write, writeAll_eq_append ih, writeAll_eq_append ih [')']]
    simp [word]
  | bad | literal | breakLoop | continueLoop => simp [write, form, word]
  | group _ t ih | convert _ _ t ih | unary _ _ t ih | trailing _ _ t ih
  | returnValue _ t ih =>
    rw [write, write, ih, ih [')']]
    simp [form, word]
  | binary _ _ l r ihl ihr =>
    rw [write, write, ihl, ihr, ihl (' ' :: write r [')']), ihr [')']]
    simp [form, word]

end Tree

end ScriptSyntax
