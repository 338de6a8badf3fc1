/-
Sessions: one parser for many programs.

A session has an input that is read on from where the last reading stopped,
options, and a table of programs kept under names.

* `Session.parse` reads a program from the input.
* `Session.register` keeps a program under a name.
* `Lexer.nextLogged` reads a token and logs it, and `logOf` is the log of all that is
  done with a text.
* `Imports.find?_insert` says that the last program kept under a name is the
  one that is found.
-/
import ScriptSyntax.Parser.Program
import ScriptSyntax.Tree.Dump

namespace ScriptSyntax

/-- Programs kept under names, in the order of the names. -/
structure Imports where
  entries : List (String × Tree)
  deriving Repr, DecidableEq

namespace Imports

/-- No programs. -/
def empty : Imports := ⟨[]⟩

/-- Puts a program into a list of entries. -/
def insertInto (name : String) (root : Tree) : List (String × Tree) → List (String × Tree)
  | [] => [(name, root)]
  | e :: es =>
    if name < e.1 then (name, root) :: e :: es
    else if name = e.1 then (name, root) :: es
    else e :: insertInto name root es

/-- Keeps a program under a name, in place of any other. -/
def insert (i : Imports) (name : String) (root : Tree) : Imports :=
  ⟨insertInto name root i.entries⟩

/-- The program kept under a name. -/
def find? (i : Imports) (name : String) : Option Tree :=
  i.entries.lookup name

theorem lookup_cons (other name : String) (root : Tree) (es : List (String × Tree)) :
    ((name, root) :: es).lookup other = if other = name then some root else es.lookup other := by
  by_cases h : other = name
  · simp [h]
  · rw [List.lookup_cons, beq_false_of_ne h, if_neg h]

theorem lookup_insertInto (name : String) (root : Tree) (es : List (String × Tree))
    (other : String) :
    (insertInto name root es).lookup other =
      if other = name then some root else es.lookup other := by
  induction es with
  | nil => rw [insertInto, lookup_cons]
  | cons e es ih =>
    obtain ⟨n, t⟩ := e
    unfold insertInto
    split
    · rw [lookup_cons]
    · split
      · next hn =>
        obtain rfl : name = n := hn
        rw [lookup_cons, lookup_cons]
        split <;> rfl
      · next hn =>
        rw [lookup_cons, lookup_cons, ih]
        split
        · next h => rw [if_neg fun he => hn (he.symm.trans h)]
        · rfl

theorem find?_insert (i : Imports) (name : String) (root : Tree) (other : String) :
    (i.insert name root).find? other = if other = name then some root else i.find? other :=
  lookup_insertInto name root i.entries other

end Imports

/-- A parser at work on one program after another. -/
structure Session where
  input : Input
  options : ParseOptions
  imports : Imports

namespace Session

/-- A session over some tokens that takes over the programs kept so far. -/
def withImports (ts : List Token) (imports : Imports) : Session :=
  ⟨.ofTokens ts, {}, imports⟩

/-- A new session over some tokens. -/
def ofTokens (ts : List Token) : Session :=
  withImports ts .empty

/-- The same session with other options. -/
def withOptions (s : Session) (o : ParseOptions) : Session :=
  { s with options := o }

/-- The same session over other tokens. -/
def reuse (s : Session) (ts : List Token) : Session :=
  { s with input := .ofTokens ts }

/-- Reads a program. -/
def parse (s : Session) : Parsed × Session :=
  let p := ScriptSyntax.parse s.options s.input
  (p, { s with input := p.rest })

/-- Keeps a program under a name, and says whether it did: only what is a
program can be kept. -/
def register (s : Session) (name : String) (root : Tree) : Bool × Session :=
  match root with
  | .compound .. => (true, { s with imports := s.imports.insert name root })
  | _ => (false, s)

end Session

namespace Lexer

/-- Reads the next token, and logs it. -/
def nextLogged (l : Lexer) : Token × List Event × Lexer :=
  (l.next.1, [.token l.next.1], l.next.2)

/-- Reads all tokens that are left, up to and with the end token, and logs what it does. -/
def drainLogged (l : Lexer) : List Token × List Event × Lexer :=
  let r := l.nextLogged
  if r.1.kind = .endOfInput then ([r.1], r.2)
  else
    let more := drainLogged r.2.2
    (r.1 :: more.1, r.2.1 ++ more.2.1, more.2.2)
  termination_by l.unread.length
  decreasing_by exact Scan.length_rest_next_lt ‹_›

end Lexer

/-- The log of reading a text and keeping its program under a name. -/
def logOf (o : ParseOptions) (text name : String) : List Event :=
  let (ts, log, _) := (Lexer.ofText text).drainLogged
  let (p, s) := ((Session.ofTokens ts).withOptions o).parse
  log ++ p.log ++ if (s.register name p.root).1 then [.imported name] else []

end ScriptSyntax
