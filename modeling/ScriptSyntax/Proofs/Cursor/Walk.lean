/-
Parsing with a cursor.

A cursor stands in a list of tokens, line breaks included, and counts the levels of
nesting that it is in.  A walk moves it, and may give a value, fail, or go on for
ever.  Nothing here keeps a cursor within its tokens or its depth in balance.

* `Walk.statement`, `Walk.expression` and so on read what the parsers of the same
  names read;
* `Walk.program` reads a program;
* `Walker` is a parser at work on one program after another, and `Walker.parse`
  reads the next of them.

Design notes: the functions call each other without a measure, and loops go on until
a token ends them.  Every call takes some gas, and a walk that runs out of it, or that
looks for a token where there is none, has the value `none`.  A walk comes to an end
if there is an amount of gas with which it has a value, the same with any more.
-/
import ScriptSyntax.Session

namespace ScriptSyntax

/-- A place in a list of tokens, and the levels of nesting around it. -/
structure Cursor where
  tokens : List Token
  position : Nat
  depth : Nat

/-- A way to move a cursor and read a value. -/
abbrev Walk (α : Type) : Type :=
  ExceptT Failure (StateT Cursor Option) α

namespace Walk

variable {α : Type}

/-! ### Tokens -/

/-- The token at some distance.  The last token stands for all behind it. -/
def peekAt (distance : Nat) : Walk Token := fun c =>
  c.tokens[min (c.position + distance) (c.tokens.length - 1)]?.map fun t => (.ok t, c)

/-- The token at the cursor. -/
def current : Walk Token :=
  peekAt 0

/-- Moves one token on. -/
def move : Walk PUnit :=
  modify fun c => { c with position := c.position + 1 }

/-- There is no gas left. -/
def exhausted : Walk α := fun _ =>
  none

/-- Moves past line breaks. -/
def skipBreaks : Nat → Walk PUnit
  | 0 => exhausted
  | gas + 1 => do
    let t ← current
    if t.kind = .newLine then
      move
      skipBreaks gas
    else return

/-- Moves past the token at the cursor, unless the cursor is behind all tokens, and
past the line breaks that follow. -/
def advance (gas : Nat) : Walk Token := do
  let t ← current
  let c ← get
  if c.position < c.tokens.length then move
  skipBreaks gas
  return t

/-- Whether the token before the cursor is a line break. -/
def afterBreak : Walk Bool := do
  let c ← get
  return c.position ≠ 0 ∧ (c.tokens[c.position - 1]?).any (·.kind = .newLine)

/-- Moves past a token of some kind, and fails at any other. -/
def expect (gas : Nat) (kind : TokenKind) : Walk Token := do
  let t ← advance gas
  if t.kind = kind then return t
  else throw ⟨.expected kind.spelling t.text, t.span⟩

/-! ### Levels of nesting -/

/-- Goes one level down, and fails at `p` if there is no such level. -/
def enter (p : Span) : Walk PUnit := do
  if maxNesting ≤ (← get).depth then throw ⟨.tooDeeplyNested, p⟩
  else modify fun c => { c with depth := c.depth + 1 }

/-- Comes back from the level below with what has been read there. -/
def leave (result : Except Failure α) : Walk α := do
  modify fun c => { c with depth := c.depth - 1 }
  MonadExcept.ofExcept result

/-- Reads something one level further down. -/
def nested (p : Span) (read : Walk α) : Walk α := do
  enter p
  let result ← ExceptT.lift read.run
  leave result

/-! ### Statements and expressions -/

/-- The separator behind a statement. -/
def separator (gas : Nat) : Walk PUnit := do
  let t ← current
  if t.kind = .semicolon then
    let _ ← advance gas
  else if t.kind = .endOfInput then return
  else if ← afterBreak then return
  else throw ⟨.missingSeparator, t.span⟩

mutual

/-- A statement, or nothing at the end of the input. -/
def statement? : Nat → StatementMode → Walk (Option Tree)
  | 0, _ => exhausted
  | gas + 1, mode => do
    skipBreaks gas
    let t ← current
    if t.kind = .endOfInput then return none
    else if t.kind = .leftBrace then
      let x ← nested t.span (block gas mode)
      return some x
    else
      let x ← simple gas mode
      if mode.separator then separator gas
      return some x

/-- A statement where there must be one. -/
def statement : Nat → StatementMode → Walk Tree
  | 0, _ => exhausted
  | gas + 1, mode => do
    match ← statement? gas mode with
    | some x => return x
    | none =>
      let t ← current
      throw ⟨.incorrectStatement, t.span⟩

/-- A block whose opening brace is at the cursor. -/
def block : Nat → StatementMode → Walk Tree
  | 0, _ => exhausted
  | gas + 1, mode => do
    let opening ← advance gas
    let ss ← blockStatements gas mode.withSeparator
    let _ ← expect gas .rightBrace
    return .compound opening.span ss

/-- The statements of a block. -/
def blockStatements : Nat → StatementMode → Walk (List Tree)
  | 0, _ => exhausted
  | gas + 1, mode => do
    let t ← current
    if t.kind = .rightBrace ∨ t.kind = .endOfInput then return []
    else
      match ← statement? gas mode with
      | none => return []
      | some x =>
        let xs ← blockStatements gas mode
        return x :: xs

/-- A statement other than a block, without its separator. -/
def simple : Nat → StatementMode → Walk Tree
  | 0, _ => exhausted
  | gas + 1, mode => do
    let t ← current
    match Parser.typeOf? t with
    | some target =>
      if (← peekAt 1).kind = .leftParen then conversion gas target
      else controlled gas mode
    | none => controlled gas mode

/-- A conversion to a type whose keyword is at the cursor. -/
def conversion : Nat → ValueType → Walk Tree
  | 0, _ => exhausted
  | gas + 1, target => do
    let keyword ← advance gas
    let _ ← expect gas .leftParen
    let inner ← nested keyword.span (statement gas .expression)
    let _ ← expect gas .rightParen
    return .convert keyword.span target inner

/-- A control statement that the mode allows, or else an expression. -/
def controlled : Nat → StatementMode → Walk Tree
  | 0, _ => exhausted
  | gas + 1, mode => do
    let t ← current
    if mode.loopControl ∧ t.kind = .controller ∧ t.text = "break" then
      let _ ← advance gas
      return .breakLoop t.span
    else if mode.loopControl ∧ t.kind = .controller ∧ t.text = "continue" then
      let _ ← advance gas
      return .continueLoop t.span
    else if mode.functionControl ∧ t.kind = .word ∧ t.text = "return" then
      let _ ← advance gas
      let x ← statement gas .expression
      return .returnValue t.span x
    else expression gas 0

/-- An expression whose operators bind tighter than `least`. -/
def expression : Nat → Nat → Walk Tree
  | 0, _ => exhausted
  | gas + 1, least => do
    let first ← operand gas least
    operators gas least first

/-- An operand of an operator of precedence `least`. -/
def operand : Nat → Nat → Walk Tree
  | 0, _ => exhausted
  | gas + 1, least => do
    let t ← current
    let precedence := t.kind.unaryPrecedence
    if precedence = 0 ∨ precedence < least then primary gas
    else if precedence = TokenKind.questionPrecedence then
      let _ ← advance gas
      throw ⟨.unsupportedQuestion, t.span⟩
    else
      let _ ← advance gas
      let inner ← nested t.span (expression gas precedence)
      return .unary t.span t.kind inner

/-- A literal or a group. -/
def primary : Nat → Walk Tree
  | 0 => exhausted
  | gas + 1 => do
    let t ← advance gas
    match t.kind with
    | .leftParen =>
      let inner ← nested t.span (statement gas .expression)
      let _ ← expect gas .rightParen
      return .group t.span inner
    | .bad => throw ⟨.lexical t.text, t.span⟩
    | _ =>
      match Literal.ofToken? t with
      | some v => return .literal t.span v
      | none => throw ⟨.incorrectStatement, t.span⟩

/-- Reads on after `left` for as long as operators bind tighter than `least`. -/
def operators : Nat → Nat → Tree → Walk Tree
  | 0, _, _ => exhausted
  | gas + 1, least, left => do
    let t ← current
    let precedence := t.kind.binaryPrecedence
    if precedence ≤ least then return left
    else
      let _ ← advance gas
      if precedence = TokenKind.postfixPrecedence then return .trailing t.span t.kind left
      else
        let right ← expression gas precedence
        operators gas least (.binary t.span t.kind left right)

end

/-- The statements up to the end of the input. -/
def statements : Nat → StatementMode → Walk (List Tree)
  | 0, _ => exhausted
  | gas + 1, mode => do
    match ← statement? gas mode with
    | none => return []
    | some x =>
      let xs ← statements gas mode
      return x :: xs

/-- A program, whatever the depth has been before. -/
def program (gas : Nat) (o : ParseOptions) : Walk Tree := do
  modify fun c => { c with depth := 0 }
  let ss ← statements gas o.statementMode
  return .compound .nowhere ss

end Walk

/-! ### One program after another -/

namespace Cursor

/-- The tokens with an end token behind them, if they do not end with one. -/
def terminated (ts : List Token) : List Token :=
  match ts.getLast? with
  | none => [.endAt .start]
  | some t => if t.kind = .endOfInput then ts else ts ++ [.endAt t.span]

/-- The cursor in front of some tokens. -/
def ofTokens (ts : List Token) : Cursor :=
  ⟨terminated ts, 0, 0⟩

end Cursor

/-- What can be asked of a parser at work. -/
inductive Session.Request where
  | parse
  | reuse (ts : List Token)
  | withOptions (o : ParseOptions)
  | register (name : String) (root : Tree)

/-- A session does what is asked of it. -/
def Session.serve (s : Session) : Request → Session
  | .parse => s.parse.2
  | .reuse ts => s.reuse ts
  | .withOptions o => s.withOptions o
  | .register name root => (s.register name root).2

/-- A parser at work that walks over its tokens. -/
structure Walker where
  cursor : Cursor
  options : ParseOptions
  imports : Imports

namespace Walker

/-- A walker over some tokens that takes over the programs kept so far. -/
def withImports (ts : List Token) (imports : Imports) : Walker :=
  ⟨.ofTokens ts, {}, imports⟩

/-- The tree of a program, or the error that has been found. -/
def rootOf : Except Failure Tree → Tree
  | .ok root => root
  | .error f => .bad f.diagnostic

/-- Reads a program. -/
def parse (gas : Nat) (w : Walker) : Option (Tree × Walker) :=
  (Walk.program gas w.options w.cursor).map fun r => (rootOf r.1, { w with cursor := r.2 })

/-- Does what is asked, if that comes to an end. -/
def serve (gas : Nat) (w : Walker) : Session.Request → Option Walker
  | .parse => (w.parse gas).map Prod.snd
  | .reuse ts => some { w with cursor := .ofTokens ts }
  | .withOptions o => some { w with options := o }
  | .register name root =>
    match root with
    | .compound .. => some { w with imports := w.imports.insert name root }
    | _ => some w

end Walker

end ScriptSyntax
