/-
Programs.

A program is what stands before the first end token.  Reading it gives its
tree, or the error that stopped the reading; either way it can be read on from
where the reading stopped.

* `grammar n` is the grammar with `n` levels of nesting below it.
* `parse` reads a program.
-/
import ScriptSyntax.Lexical.Lexer
import ScriptSyntax.Parser.Statement

namespace ScriptSyntax

/-- The grammar above some grammar, or above none. -/
def Grammar.above (below : Option Grammar) : Grammar where
  statement := Parser.statement below
  expression := Parser.expression below

/-- The grammar with some number of levels below it. -/
def grammar : Nat → Grammar
  | 0 => .above none
  | n + 1 => .above (some (grammar n))

/-- The statements up to the end of the input. -/
def Parser.program (o : ParseOptions) : Parser Tree := do
  let ss ← statements (· = .endOfInput) ((grammar maxNesting).statement o.statementMode)
  return .compound .nowhere ss

/-- What has come of reading a program. -/
structure Parsed where
  root : Tree
  rest : Input
  log : List Event

/-- Reads a program. -/
def parse (o : ParseOptions) (s : Input) : Parsed :=
  match Parser.program o s with
  | ⟨.ok root, rest, log⟩ => ⟨root, rest, log⟩
  | ⟨.error f, rest, log⟩ => ⟨.bad f.diagnostic, rest, log ++ [.syntaxError f.diagnostic]⟩

/-- The tree of a list of tokens. -/
def parseTokens (o : ParseOptions) (ts : List Token) : Tree :=
  (parse o (.ofTokens ts)).root

/-- The tree of a text, or the error in it. -/
def parseText (text : String) : Except Diagnostic Tree :=
  (parseTokens {} (tokenize text)).toExcept

end ScriptSyntax
