/-
Kinds of tokens by the part they play in a tree.

* `TokenKind.IsUnary` and `TokenKind.IsBinary` are the operators before an
  operand and between two operands; the former bind tighter than the latter
  (`TokenKind.binaryPrecedence_lt_unaryPrecedence`).
* `TokenKind.BeginsOperand` is what an operand can begin with, and with it an
  expression.
* `TokenKind.isSubstantial` leaves out what only stands between the parts of a
  tree.
-/
import ScriptSyntax.Token.Precedence

namespace ScriptSyntax

namespace TokenKind

/-- An operator that can stand before an operand. -/
def IsUnary (k : TokenKind) : Prop :=
  k.unaryPrecedence ≠ 0 ∧ k.unaryPrecedence ≠ questionPrecedence

/-- An operator that stands between two operands. -/
def IsBinary (k : TokenKind) : Prop :=
  k.binaryPrecedence ≠ 0 ∧ k.binaryPrecedence ≠ postfixPrecedence

instance (k : TokenKind) : Decidable k.IsUnary :=
  inferInstanceAs (Decidable (_ ∧ _))

instance (k : TokenKind) : Decidable k.IsBinary :=
  inferInstanceAs (Decidable (_ ∧ _))

/-- Every operator before an operand binds tighter than every one between two
operands. -/
theorem binaryPrecedence_lt_unaryPrecedence {j k : TokenKind}
    (hj : j.binaryPrecedence ≠ postfixPrecedence) (hk : k.IsUnary) :
    j.binaryPrecedence < k.unaryPrecedence := by
  have h₁ : j.binaryPrecedence ≤ 13 := by
    cases j <;> first | decide | exact absurd rfl hj
  have h₂ : 15 ≤ k.unaryPrecedence := by
    cases k <;> first | decide | exact absurd hk (by decide)
  omega

/-- Nothing between two operands binds as tight as what stands after one. -/
theorem binaryPrecedence_lt_postfix {k : TokenKind} (h : k.IsBinary) :
    k.binaryPrecedence < postfixPrecedence := by
  cases k <;> first | decide | exact absurd h (by decide)

/-- The end of the input is no operator. -/
theorem IsUnary.ne_endOfInput {k : TokenKind} (h : k.IsUnary) : k ≠ .endOfInput := by
  rintro rfl
  exact h.1 rfl

theorem ne_endOfInput_of_lt_binaryPrecedence {k : TokenKind} {least : Nat}
    (h : least < k.binaryPrecedence) : k ≠ .endOfInput := by
  rintro rfl
  exact Nat.not_lt_zero _ h

/-- A token that can begin an operand. -/
def BeginsOperand (k : TokenKind) : Prop :=
  k.isLiteral ∨ k = .leftParen ∨ k.IsUnary

/-- Nothing that begins an operand ends the input or begins another statement. -/
theorem BeginsOperand.ne {k : TokenKind} (h : k.BeginsOperand) :
    k ≠ .endOfInput ∧ k ≠ .leftBrace ∧ k ≠ .word ∧ k ≠ .controller ∧ k ≠ .rightBrace := by
  rcases h with h | rfl | h
  · refine ⟨?_, ?_, ?_, ?_, ?_⟩ <;> rintro rfl <;> exact absurd h (by decide)
  · decide
  · refine ⟨?_, ?_, ?_, ?_, ?_⟩ <;> rintro rfl <;> exact absurd h (by decide)

/-! ### Kinds that are part of a tree -/

/-- A kind of token that is part of a tree, and not only between its parts. -/
def isSubstantial : TokenKind → Bool
  | newLine | semicolon | endOfInput => false
  | _ => true

theorem isSubstantial_of_isLiteral {k : TokenKind} (h : k.isLiteral) : k.isSubstantial := by
  cases k <;> first | rfl | exact absurd h (by decide)

theorem isSubstantial_of_isUnary {k : TokenKind} (h : k.IsUnary) : k.isSubstantial := by
  cases k <;> first | rfl | exact absurd h (by decide)

theorem isSubstantial_of_binaryPrecedence {k : TokenKind} (h : 0 < k.binaryPrecedence) :
    k.isSubstantial := by
  cases k <;> first | rfl | exact absurd h (by decide)

end TokenKind

end ScriptSyntax
