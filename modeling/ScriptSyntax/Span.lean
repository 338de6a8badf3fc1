/-
Positions in a script.

A span names a line and a column, both counted from one in a text; the span
`(0, 0)` stands for "nowhere" and is the default.  Columns count characters,
not bytes.

* `Span.after p cs` is the position reached from `p` once the characters `cs`
  have been read.
* `Span.after_append` says that reading in two stages is reading in one.
-/

namespace ScriptSyntax

/-- A place in a script: line and column. -/
structure Span where
  line : Nat
  column : Nat
  deriving DecidableEq, Repr

namespace Span

/-- The span of whatever has no place in a text. -/
def nowhere : Span := ⟨0, 0⟩

instance : Inhabited Span := ⟨nowhere⟩

/-- The place of the first character of a text. -/
def start : Span := ⟨1, 1⟩

/-- Reading one character moves one column on, or to the start of the next
line if the character is a line break. -/
def step (p : Span) (c : Char) : Span :=
  if c = '\n' then ⟨p.line + 1, 1⟩ else ⟨p.line, p.column + 1⟩

/-- The position reached from `p` by reading `cs`. -/
def after (p : Span) (cs : List Char) : Span :=
  cs.foldl step p

@[simp] theorem after_nil (p : Span) : p.after [] = p := rfl

@[simp] theorem after_cons (p : Span) (c : Char) (cs : List Char) :
    p.after (c :: cs) = (p.step c).after cs := rfl

@[simp] theorem after_append (p : Span) (cs ds : List Char) :
    p.after (cs ++ ds) = (p.after cs).after ds :=
  List.foldl_append

/-- Spans are compared by line first and by column second. -/
def order (p q : Span) : Ordering :=
  (compare p.line q.line).then (compare p.column q.column)

instance : LT Span := ⟨fun p q => p.line < q.line ∨ p.line = q.line ∧ p.column < q.column⟩

instance (p q : Span) : Decidable (p < q) :=
  inferInstanceAs (Decidable (p.line < q.line ∨ p.line = q.line ∧ p.column < q.column))

theorem lt_iff (p q : Span) :
    p < q ↔ p.line < q.line ∨ p.line = q.line ∧ p.column < q.column :=
  Iff.rfl

/-- A span is written as line and column with a colon between them. -/
def text (p : Span) : String :=
  toString p.line ++ ":" ++ toString p.column

end Span

end ScriptSyntax
