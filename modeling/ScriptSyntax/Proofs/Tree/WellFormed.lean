/-
Trees as they should be, whatever they were read from.

* `Tree.Within u t` says that `u` is `t` or a part of it;
* `Tree.RespectsPrecedence` says of the top of a tree that its operands bind as
  tight as its operator asks;
* `Tree.nesting` counts the levels that a parser needs to read a tree;
* `Tree.WellFormed` describes trees of which one can tell, without looking at
  how trees are read, that their tokens are not those of another tree.

Design notes: what a statement may be depends on where it stands, and an
expression is both a statement and a part of one, so that one relation with a
`Role` covers both.  A block passes on what it is allowed; brackets and
`return` allow nothing.
-/
import ScriptSyntax.Parser.Mode
import ScriptSyntax.Proofs.Token.Operators
import ScriptSyntax.Tree.Basic

namespace ScriptSyntax

namespace Tree

/-! ### Parts -/

/-- The trees directly below a tree, from left to right. -/
def children : Tree → List Tree
  | compound _ ss => ss
  | bad _ | literal .. | breakLoop _ | continueLoop _ => []
  | group _ t | convert _ _ t | unary _ _ t | trailing _ _ t | returnValue _ t => [t]
  | binary _ _ l r => [l, r]

/-- Whether a tree is a block. -/
def isBlock : Tree → Bool
  | compound .. => true
  | _ => false

/-- Being a part of a tree, the tree itself included. -/
inductive Within (u : Tree) : Tree → Prop where
  | self : Within u u
  | child {v t : Tree} (hchild : v ∈ t.children) (h : Within u v) : Within u t

/-- A claim about all parts of a tree is one about the tree and one about the
parts of its children. -/
theorem forall_within_iff {P : Tree → Prop} {t : Tree} :
    (∀ u, u.Within t → P u) ↔ P t ∧ ∀ v ∈ t.children, ∀ u, u.Within v → P u := by
  constructor
  · intro h
    exact ⟨h t .self, fun v hv u hu => h u (.child hv hu)⟩
  · rintro ⟨ht, hchildren⟩ u hu
    cases hu with
    | self => exact ht
    | child hchild h => exact hchildren _ hchild u h

/-! ### Operands -/

/-- The precedence of an operation between two operands. -/
def precedence? : Tree → Option Nat
  | binary _ op _ _ => some op.binaryPrecedence
  | _ => none

/-- The precedence of an operator before its operand. -/
def unaryPrecedence? : Tree → Option Nat
  | unary _ op _ => some op.unaryPrecedence
  | _ => none

/-- The operands of an operation bind as tight as its operator asks. -/
def RespectsPrecedence : Tree → Prop
  | binary _ op l r =>
    (∀ q, l.precedence? = some q → op.binaryPrecedence ≤ q) ∧
      ∀ q, r.precedence? = some q → op.binaryPrecedence < q
  | unary _ _ t | trailing _ _ t => t.precedence? = none
  | _ => True

/-! ### Nesting -/

mutual

/-- The levels of nesting of a tree: the most groups, blocks, conversions and
operators before their operands on a way down from its top. -/
def nesting : Tree → Nat
  | compound _ ss => nestingAll ss + 1
  | group _ t | convert _ _ t | unary _ _ t => nesting t + 1
  | binary _ _ l r => max (nesting l) (nesting r)
  | trailing _ _ t | returnValue _ t => nesting t
  | bad _ | literal .. | breakLoop _ | continueLoop _ => 0

/-- The levels of nesting of the deepest of some trees. -/
def nestingAll : List Tree → Nat
  | [] => 0
  | t :: ts => max (nesting t) (nestingAll ts)

end

/-! ### Well-formed trees -/

/-- Where a tree stands. -/
inductive Role where
  /-- In an expression. -/
  | expression
  /-- As a statement, where some control statements are allowed. -/
  | statement (o : ParseOptions)

/-- Trees that can be written as tokens and read back. -/
inductive WellFormed : Role → Tree → Prop where
  | literal {p : Span} {v : Literal} : WellFormed .expression (.literal p v)
  | group {p : Span} {t : Tree} (hinner : WellFormed (.statement {}) t) :
      WellFormed .expression (.group p t)
  | unary {p : Span} {op : TokenKind} {t : Tree} (hoperator : op.IsUnary)
      (hrespects : (unary p op t).RespectsPrecedence)
      (hunary : ∀ q, t.unaryPrecedence? = some q → op.unaryPrecedence ≤ q)
      (hoperand : WellFormed .expression t) : WellFormed .expression (.unary p op t)
  | binary {p : Span} {op : TokenKind} {l r : Tree} (hoperator : op.IsBinary)
      (hrespects : (binary p op l r).RespectsPrecedence)
      (hleft : WellFormed .expression l) (hright : WellFormed .expression r) :
      WellFormed .expression (.binary p op l r)
  | value {o : ParseOptions} {t : Tree} (h : WellFormed .expression t) :
      WellFormed (.statement o) t
  | convert {o : ParseOptions} {p : Span} {target : ValueType} {t : Tree}
      (hinner : WellFormed (.statement {}) t) : WellFormed (.statement o) (.convert p target t)
  | block {o : ParseOptions} {p : Span} {ss : List Tree}
      (hstatements : ∀ t ∈ ss, WellFormed (.statement o) t) :
      WellFormed (.statement o) (.compound p ss)
  | breakLoop {o : ParseOptions} {p : Span} (hallowed : o.loopControl) :
      WellFormed (.statement o) (.breakLoop p)
  | continueLoop {o : ParseOptions} {p : Span} (hallowed : o.loopControl) :
      WellFormed (.statement o) (.continueLoop p)
  | returnValue {o : ParseOptions} {p : Span} {t : Tree} (hallowed : o.functionControl)
      (hvalue : WellFormed (.statement {}) t) : WellFormed (.statement o) (.returnValue p t)

namespace WellFormed

variable {t : Tree}

theorem isBlock_eq_false (h : WellFormed .expression t) : t.isBlock = false := by
  cases h <;> rfl

theorem precedence?_pos {q : Nat} (h : WellFormed .expression t) (hq : t.precedence? = some q) :
    0 < q := by
  cases h with
  | binary hoperator =>
    obtain rfl := Option.some.inj hq
    exact Nat.pos_of_ne_zero hoperator.1
  | _ => exact nomatch hq

/-- An operator before an operand binds tighter than one before that. -/
theorem lt_unaryPrecedence? {k : TokenKind} {q : Nat} (h : WellFormed .expression t)
    (hk : k.IsBinary) (hq : t.unaryPrecedence? = some q) : k.binaryPrecedence < q := by
  cases h with
  | unary hoperator =>
    obtain rfl := Option.some.inj hq
    exact TokenKind.binaryPrecedence_lt_unaryPrecedence hk.2 hoperator
  | _ => exact nomatch hq

end WellFormed

end Tree

end ScriptSyntax
