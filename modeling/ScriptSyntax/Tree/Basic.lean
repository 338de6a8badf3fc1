/-
Syntax trees.

A tree is a program, a block, a statement or an expression, with the place of
the token that names it.  A syntax error is a tree too: it stands for the
whole program that could not be read.

* `Tree.induct` is induction over trees, in which a block may assume the claim
  of each of its statements; `induction` uses it.
* `Tree.compoundOf`, `Tree.groupOf` and so on build a tree from parts of which
  some may be errors: the first error is the result.
* Equality of trees, places included, is decidable.
-/
import ScriptSyntax.Diagnostic
import ScriptSyntax.Token
import ScriptSyntax.ValueType

namespace ScriptSyntax

/-! ### Literals -/

/-- The value of a literal as it is written.  Numerals keep their text
without underscores, base mark and suffix. -/
inductive Literal where
  | integer (text : String)
  | longInteger (text : String)
  | decimal (text : String)
  | longDecimal (text : String)
  | hexadecimal (text : String)
  | octal (text : String)
  | binary (text : String)
  | char (text : String)
  | string (text : String)
  | boolean (value : Bool)
  | null
  deriving DecidableEq, Repr

/-- The literal that a token carries. -/
def Literal.ofToken? (t : Token) : Option Literal :=
  match t.kind with
  | .integer => some (integer t.text)
  | .longInteger => some (longInteger t.text)
  | .decimal => some (decimal t.text)
  | .longDecimal => some (longDecimal t.text)
  | .hexadecimal => some (hexadecimal t.text)
  | .octal => some (octal t.text)
  | .binary => some (binary t.text)
  | .char => some (char t.text)
  | .string => some (string t.text)
  | .boolean => some (boolean (t.text == "true"))
  | .null => some null
  | _ => none

/-- A token carries a literal exactly if its kind says so. -/
theorem Literal.isSome_ofToken? (t : Token) : (ofToken? t).isSome = t.kind.isLiteral := by
  unfold ofToken? TokenKind.isLiteral
  split <;> simp_all

/-! ### Trees -/

/-- A syntax tree. -/
inductive Tree where
  /-- A program or a block. -/
  | compound (span : Span) (statements : List Tree)
  /-- A program that could not be read. -/
  | bad (error : Diagnostic)
  | literal (span : Span) (value : Literal)
  /-- A parenthesised statement. -/
  | group (span : Span) (inner : Tree)
  | convert (span : Span) (target : ValueType) (inner : Tree)
  /-- An operator before its operand. -/
  | unary (span : Span) (operator : TokenKind) (operand : Tree)
  /-- An operator between its operands. -/
  | binary (span : Span) (operator : TokenKind) (left right : Tree)
  /-- An operator after its operand. -/
  | trailing (span : Span) (operator : TokenKind) (operand : Tree)
  | returnValue (span : Span) (expression : Tree)
  | breakLoop (span : Span)
  | continueLoop (span : Span)
  deriving Repr

namespace Tree

/-- Induction over trees: a block may assume the claim of each statement. -/
@[elab_as_elim, induction_eliminator]
theorem induct {motive : Tree → Prop}
    (compound : ∀ p ss, (∀ t ∈ ss, motive t) → motive (compound p ss))
    (bad : ∀ d, motive (bad d))
    (literal : ∀ p v, motive (literal p v))
    (group : ∀ p t, motive t → motive (group p t))
    (convert : ∀ p ty t, motive t → motive (convert p ty t))
    (unary : ∀ p op t, motive t → motive (unary p op t))
    (binary : ∀ p op l r, motive l → motive r → motive (binary p op l r))
    (trailing : ∀ p op t, motive t → motive (trailing p op t))
    (returnValue : ∀ p t, motive t → motive (returnValue p t))
    (breakLoop : ∀ p, motive (breakLoop p))
    (continueLoop : ∀ p, motive (continueLoop p))
    (t : Tree) : motive t :=
  @Tree.rec motive (fun ss => ∀ t ∈ ss, motive t)
    compound bad literal group convert unary binary trailing returnValue breakLoop
    continueLoop (fun _ h => absurd h List.not_mem_nil)
    (fun _ _ ht hts u hu => (List.mem_cons.1 hu).elim (fun h => h ▸ ht) (hts u)) t

/-! ### Equality -/

mutual

/-- Whether two trees are the same, places included. -/
def same : Tree → Tree → Bool
  | compound p ss, compound q ts => p == q && sameAll ss ts
  | bad d, bad e => d == e
  | literal p v, literal q w => p == q && v == w
  | group p t, group q u => p == q && same t u
  | convert p ty t, convert q uy u => p == q && ty == uy && same t u
  | unary p op t, unary q pp u => p == q && op == pp && same t u
  | binary p op l r, binary q pp m s => p == q && op == pp && same l m && same r s
  | trailing p op t, trailing q pp u => p == q && op == pp && same t u
  | returnValue p t, returnValue q u => p == q && same t u
  | breakLoop p, breakLoop q => p == q
  | continueLoop p, continueLoop q => p == q
  | _, _ => false

/-- Whether two lists of trees are the same. -/
def sameAll : List Tree → List Tree → Bool
  | [], [] => true
  | t :: ts, u :: us => same t u && sameAll ts us
  | _, _ => false

end

theorem sameAll_iff {ss : List Tree} (h : ∀ t ∈ ss, ∀ u, same t u = true ↔ t = u)
    (ts : List Tree) : sameAll ss ts = true ↔ ss = ts := by
  induction ss generalizing ts with
  | nil => cases ts <;> simp [sameAll]
  | cons t ss ih =>
    have ht := h t List.mem_cons_self
    have hs := ih fun u hu => h u (List.mem_cons_of_mem t hu)
    cases ts <;> simp [sameAll, ht, hs]

theorem same_iff (t u : Tree) : same t u = true ↔ t = u := by
  induction t generalizing u with
  | compound p ss ih => cases u <;> simp [same, sameAll_iff ih]
  | bad | literal | breakLoop | continueLoop => cases u <;> simp [same]
  | group _ _ ih | convert _ _ _ ih | unary _ _ _ ih | trailing _ _ _ ih
  | returnValue _ _ ih => cases u <;> simp [same, ih, and_assoc]
  | binary _ _ _ _ ihl ihr => cases u <;> simp [same, ihl, ihr, and_assoc]

instance : DecidableEq Tree := fun t u =>
  decidable_of_iff (same t u = true) (same_iff t u)

/-! ### Views -/

/-- The short name of what a tree is. -/
def name : Tree → String
  | compound .. => "compound"
  | bad .. => "bad"
  | literal .. => "literal"
  | group .. => "parenthesized"
  | convert .. => "convert"
  | unary .. => "unary"
  | binary .. | trailing .. => "binary"
  | returnValue .. => "return"
  | breakLoop .. => "break"
  | continueLoop .. => "continue"

/-- The place of a tree; an error stands where its diagnostic does. -/
def span : Tree → Span
  | bad d => d.span
  | compound p _ | literal p _ | group p _ | convert p _ _ | unary p _ _ | binary p _ _ _
  | trailing p _ _ | returnValue p _ | breakLoop p | continueLoop p => p

/-- Whether a tree is an error. -/
def isBad : Tree → Bool
  | bad _ => true
  | _ => false

/-- The error that a tree is. -/
def error? : Tree → Option Diagnostic
  | bad d => some d
  | _ => none

/-- The statements of a program or block. -/
def statements? : Tree → Option (List Tree)
  | compound _ ss => some ss
  | _ => none

/-- A tree that is no error, or the error that it is. -/
def toExcept : Tree → Except Diagnostic Tree
  | bad d => .error d
  | t => .ok t

/-! ### Building trees from parts that may be errors -/

/-- A block of statements, or the first of them that is an error. -/
def compoundOf (p : Span) (ss : List Tree) : Tree :=
  (ss.find? isBad).getD (compound p ss)

/-- What `build` makes of a part, unless the part is an error. -/
def unlessBad (t : Tree) (build : Tree → Tree) : Tree :=
  if t.isBad then t else build t

/-- A parenthesised part. -/
def groupOf (p : Span) (t : Tree) : Tree :=
  t.unlessBad (group p)

/-- A conversion of a part. -/
def convertOf (p : Span) (target : ValueType) (t : Tree) : Tree :=
  t.unlessBad (convert p target)

/-- An operator before a part. -/
def unaryOf (p : Span) (operator : TokenKind) (t : Tree) : Tree :=
  t.unlessBad (unary p operator)

/-- An operator between two parts, or after one if there is no second. -/
def binaryOf (p : Span) (operator : TokenKind) (left : Tree) (right? : Option Tree) : Tree :=
  left.unlessBad fun l =>
    match right? with
    | some r => r.unlessBad (binary p operator l)
    | none => trailing p operator l

/-- The return of a part. -/
def returnOf (p : Span) (t : Tree) : Tree :=
  t.unlessBad (returnValue p)

end Tree

end ScriptSyntax
