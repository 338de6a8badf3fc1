/-
The grammar as rules.

`Reads n ph s r` says that the phrase `ph` stands at the front of the input
`s`, with `r` after it, when `n` levels of nesting are left.  A phrase names
what is read together with the tree that it is, so that a derivation in these
rules is a derivation of its tree.

* `Reads.final_eq` — the end token is never taken;
* `Reads.length_add_takes_le` — an operand, an expression and a statement take
  at least one item, and no phrase gives items back;
* `Reads.beginsOperand_of_expression` — which tokens can begin an expression.

Design notes: there is one inductive family and not one for every sort of
phrase, so that an induction over derivations is one `induction` with a case
for every rule.  Operators are read behind a left operand that is part of the
phrase, because that is where a loop over operators has got to.
-/
import ScriptSyntax.Proofs.Parser.Success
import ScriptSyntax.Proofs.Token.Operators

namespace ScriptSyntax

/-- What is read, and the tree that it is. -/
inductive Phrase where
  /-- An operand of an operator of some precedence. -/
  | operand (least : Nat) (t : Tree)
  /-- Operators that bind tighter than `least` and stand behind `left`. -/
  | operators (least : Nat) (left t : Tree)
  /-- An expression whose operators bind tighter than `least`. -/
  | expression (least : Nat) (t : Tree)
  /-- A statement other than a block, without its separator. -/
  | simple (mode : StatementMode) (t : Tree)
  | statement (mode : StatementMode) (t : Tree)
  /-- Statements up to a token of some kind. -/
  | statements (closing : TokenKind) (mode : StatementMode) (ts : List Tree)

/-- The rules of the grammar. -/
inductive Reads : Nat → Phrase → Input → Input → Prop where
  | literal {n least : Nat} {s : Input} {v : Literal}
      (hvalue : Literal.ofToken? s.current = some v) :
      Reads n (.operand least (.literal s.current.span v)) s s.advance
  | group {n least : Nat} {s r : Input} {t : Tree}
      (hopen : s.current.kind = .leftParen)
      (hinner : Reads n (.statement .expression t) s.advance r)
      (hclose : r.current.kind = .rightParen) :
      Reads (n + 1) (.operand least (.group s.current.span t)) s r.advance
  | unary {n least : Nat} {s r : Input} {t : Tree}
      (hoperator : s.current.kind.IsUnary)
      (hleast : least ≤ s.current.kind.unaryPrecedence)
      (hinner : Reads n (.expression s.current.kind.unaryPrecedence t) s.advance r) :
      Reads (n + 1) (.operand least (.unary s.current.span s.current.kind t)) s r
  | done {n least : Nat} {s : Input} {left : Tree}
      (hleast : s.current.kind.binaryPrecedence ≤ least) :
      Reads n (.operators least left left) s s
  | trailing {n least : Nat} {s : Input} {left : Tree}
      (hoperator : s.current.kind.binaryPrecedence = TokenKind.postfixPrecedence)
      (hleast : least < s.current.kind.binaryPrecedence) :
      Reads n (.operators least left (.trailing s.current.span s.current.kind left)) s s.advance
  | binary {n least : Nat} {s s' r : Input} {left right t : Tree}
      (hoperator : s.current.kind.IsBinary)
      (hleast : least < s.current.kind.binaryPrecedence)
      (hright : Reads n (.expression s.current.kind.binaryPrecedence right) s.advance s')
      (hrest : Reads n
        (.operators least (.binary s.current.span s.current.kind left right) t) s' r) :
      Reads n (.operators least left t) s r
  | expression {n least : Nat} {s s' r : Input} {first t : Tree}
      (hfirst : Reads n (.operand least first) s s')
      (hrest : Reads n (.operators least first t) s' r) :
      Reads n (.expression least t) s r
  | convert {n : Nat} {mode : StatementMode} {s r : Input} {target : ValueType} {t : Tree}
      (htarget : Parser.typeOf? s.current = some target)
      (hopen : s.followedBy .leftParen)
      (hinner : Reads n (.statement .expression t) s.advance.advance r)
      (hclose : r.current.kind = .rightParen) :
      Reads (n + 1) (.simple mode (.convert s.current.span target t)) s r.advance
  | breakLoop {n : Nat} {mode : StatementMode} {s : Input}
      (hmode : mode.loopControl) (hkind : s.current.kind = .controller)
      (htext : s.current.text = "break") :
      Reads n (.simple mode (.breakLoop s.current.span)) s s.advance
  | continueLoop {n : Nat} {mode : StatementMode} {s : Input}
      (hmode : mode.loopControl) (hkind : s.current.kind = .controller)
      (htext : s.current.text = "continue") :
      Reads n (.simple mode (.continueLoop s.current.span)) s s.advance
  | returnValue {n : Nat} {mode : StatementMode} {s r : Input} {t : Tree}
      (hmode : mode.functionControl) (hkind : s.current.kind = .word)
      (htext : s.current.text = "return")
      (hvalue : Reads n (.statement .expression t) s.advance r) :
      Reads n (.simple mode (.returnValue s.current.span t)) s r
  | value {n : Nat} {mode : StatementMode} {s r : Input} {t : Tree}
      (hvalue : Reads n (.expression 0 t) s r) :
      Reads n (.simple mode t) s r
  | block {n : Nat} {mode : StatementMode} {s r : Input} {ts : List Tree}
      (hopen : s.current.kind = .leftBrace)
      (hinner : Reads n (.statements .rightBrace mode.withSeparator ts) s.advance r) :
      Reads (n + 1) (.statement mode (.compound s.current.span ts)) s r.advance
  | unseparated {n : Nat} {mode : StatementMode} {s r : Input} {t : Tree}
      (hmode : mode.separator = false) (hsimple : Reads n (.simple mode t) s r) :
      Reads n (.statement mode t) s r
  | separated {n : Nat} {mode : StatementMode} {s s' r : Input} {t : Tree}
      (hmode : mode.separator = true) (hsimple : Reads n (.simple mode t) s s')
      (hseparator : Parser.SeparatorAt s' r) :
      Reads n (.statement mode t) s r
  | last {n : Nat} {closing : TokenKind} {mode : StatementMode} {s : Input}
      (hclose : s.current.kind = closing) :
      Reads n (.statements closing mode []) s s
  | more {n : Nat} {closing : TokenKind} {mode : StatementMode} {s s' r : Input} {t : Tree}
      {ts : List Tree} (hfirst : Reads n (.statement mode t) s s')
      (hrest : Reads n (.statements closing mode ts) s' r) :
      Reads n (.statements closing mode (t :: ts)) s r

/-! ### Inputs -/

namespace Input

theorem length_advance_le (s : Input) : s.advance.items.length ≤ s.items.length := by
  simp [advance]

/-- Going past a token other than the end token takes an item. -/
theorem length_advance_lt {s : Input} (hfinal : s.final.kind = .endOfInput)
    (h : s.current.kind ≠ .endOfInput) : s.advance.items.length < s.items.length := by
  rcases s with ⟨_ | ⟨x, xs⟩, e⟩
  · exact absurd hfinal h
  · simp [advance]

theorem kind_of_followedBy {s : Input} {k : TokenKind} (h : s.followedBy k) :
    s.advance.current.kind = k := by
  simp only [followedBy, Bool.and_eq_true, beq_iff_eq] at h
  exact h.2

/-- The input of any tokens ends with an end token. -/
theorem kind_final_ofTokens (ts : List Token) : (ofTokens ts).final.kind = .endOfInput := by
  unfold ofTokens
  split
  · rfl
  · split
    · next h => exact h
    · rfl

end Input

namespace Parser.SeparatorAt

theorem final_eq {s r : Input} (h : SeparatorAt s r) : r.final = s.final := by
  rcases h with ⟨-, rfl⟩ | ⟨-, -, rfl⟩ <;> rfl

theorem length_le {s r : Input} (h : SeparatorAt s r) : r.items.length ≤ s.items.length := by
  rcases h with ⟨-, rfl⟩ | ⟨-, -, rfl⟩
  · exact s.length_advance_le
  · exact Nat.le_refl _

end Parser.SeparatorAt

/-! ### What is taken -/

/-- The number of items that a phrase takes at the least. -/
def Phrase.takes : Phrase → Nat
  | operators .. | statements .. => 0
  | _ => 1

namespace Reads

variable {n : Nat} {ph : Phrase} {s r : Input}

theorem final_eq (h : Reads n ph s r) : r.final = s.final := by
  induction h with
  | literal | done | trailing | breakLoop | continueLoop | last => rfl
  | group _ _ _ ih | unary _ _ _ ih | convert _ _ _ _ ih | returnValue _ _ _ _ ih
  | value _ ih | block _ _ ih | unseparated _ _ ih => exact ih
  | binary _ _ _ _ ihright ihrest => exact ihrest.trans ihright
  | expression _ _ ihfirst ihrest | more _ _ ihfirst ihrest => exact ihrest.trans ihfirst
  | separated _ _ hseparator ih => exact hseparator.final_eq.trans ih

theorem length_add_takes_le (h : Reads n ph s r) (hfinal : s.final.kind = .endOfInput) :
    r.items.length + ph.takes ≤ s.items.length := by
  induction h with
  | literal hvalue =>
    exact Input.length_advance_lt hfinal fun h => by simp [Literal.ofToken?, h] at hvalue
  | @group _ _ s r _ hopen _ _ ih =>
    have h₁ := Input.length_advance_lt hfinal (by rw [hopen]; decide)
    have h₂ := ih hfinal
    have h₃ := r.length_advance_le
    simp only [Phrase.takes] at h₂ ⊢
    omega
  | unary hoperator _ _ ih =>
    have h₁ := Input.length_advance_lt hfinal fun h => by
      rw [h] at hoperator
      exact absurd hoperator (by decide)
    have h₂ := ih hfinal
    simp only [Phrase.takes] at h₂ ⊢
    omega
  | done => exact Nat.le_refl _
  | @trailing _ _ s => exact s.length_advance_le
  | @binary _ _ s _ _ _ _ _ _ _ hright _ ihright ihrest =>
    have h₁ := s.length_advance_le
    have h₂ := ihright hfinal
    have h₃ := ihrest (hright.final_eq ▸ hfinal)
    simp only [Phrase.takes] at h₂ h₃ ⊢
    omega
  | expression hfirst _ ihfirst ihrest =>
    have h₁ := ihfirst hfinal
    have h₂ := ihrest (hfirst.final_eq ▸ hfinal)
    simp only [Phrase.takes] at h₁ h₂ ⊢
    omega
  | @convert _ _ s r _ _ _ _ _ _ ih =>
    have h₁ := s.length_advance_le
    have h₂ := s.advance.length_advance_le
    have h₃ := ih hfinal
    have h₄ := r.length_advance_le
    simp only [Phrase.takes] at h₃ ⊢
    omega
  | breakLoop _ hkind _ | continueLoop _ hkind _ =>
    exact Input.length_advance_lt hfinal (by rw [hkind]; decide)
  | @returnValue _ _ s _ _ _ _ _ _ ih =>
    have h₁ := s.length_advance_le
    have h₂ := ih hfinal
    simp only [Phrase.takes] at h₂ ⊢
    omega
  | value _ ih | unseparated _ _ ih => exact ih hfinal
  | @block _ _ s r _ hopen _ ih =>
    have h₁ := Input.length_advance_lt hfinal (by rw [hopen]; decide)
    have h₂ := ih hfinal
    have h₃ := r.length_advance_le
    simp only [Phrase.takes] at h₂ ⊢
    omega
  | separated _ _ hseparator ih =>
    have h₁ := ih hfinal
    have h₂ := hseparator.length_le
    simp only [Phrase.takes] at h₁ ⊢
    omega
  | last => exact Nat.le_refl _
  | more hfirst _ ihfirst ihrest =>
    have h₁ := ihfirst hfinal
    have h₂ := ihrest (hfirst.final_eq ▸ hfinal)
    simp only [Phrase.takes] at h₁ h₂ ⊢
    omega

/-- What is read takes something, and so a reading that needs an item has one. -/
theorem length_lt (h : Reads n ph s r) (hfinal : s.final.kind = .endOfInput)
    (htakes : ph.takes = 1) : r.items.length < s.items.length := by
  have := h.length_add_takes_le hfinal
  omega

/-! ### The tokens that begin a phrase -/

theorem beginsOperand_of_operand {least : Nat} {t : Tree} (h : Reads n (.operand least t) s r) :
    s.current.kind.BeginsOperand := by
  cases h with
  | literal hvalue =>
    left
    rw [← Literal.isSome_ofToken?, hvalue]
    rfl
  | group hopen => exact .inr (.inl hopen)
  | unary hoperator => exact .inr (.inr hoperator)

theorem beginsOperand_of_expression {least : Nat} {t : Tree}
    (h : Reads n (.expression least t) s r) : s.current.kind.BeginsOperand := by
  cases h with
  | expression hfirst _ => exact hfirst.beginsOperand_of_operand

theorem kind_of_typeOf? {t : Token} {target : ValueType}
    (h : Parser.typeOf? t = some target) : t.kind = .word := by
  unfold Parser.typeOf? at h
  split at h
  · next hk => exact hk
  · exact nomatch h

theorem text_of_typeOf? {t : Token} {target : ValueType}
    (h : Parser.typeOf? t = some target) : t.text = target.keyword := by
  rw [Parser.typeOf?, if_pos (kind_of_typeOf? h)] at h
  exact ((ValueType.ofKeyword?_eq_some_iff _ _).1 h).symm

theorem kind_of_simple {mode : StatementMode} {t : Tree} (h : Reads n (.simple mode t) s r) :
    s.current.kind.BeginsOperand ∨ s.current.kind = .word ∨ s.current.kind = .controller := by
  cases h with
  | convert htarget => exact .inr (.inl (kind_of_typeOf? htarget))
  | breakLoop _ hkind | continueLoop _ hkind => exact .inr (.inr hkind)
  | returnValue _ hkind => exact .inr (.inl hkind)
  | value hvalue => exact .inl hvalue.beginsOperand_of_expression

/-- A statement other than a block begins with no brace, and so with none that
ends statements. -/
theorem ne_of_simple {mode : StatementMode} {t : Tree} (h : Reads n (.simple mode t) s r) :
    s.current.kind ≠ .endOfInput ∧ s.current.kind ≠ .leftBrace ∧
      s.current.kind ≠ .rightBrace := by
  rcases kind_of_simple h with hk | hk | hk
  · exact ⟨hk.ne.1, hk.ne.2.1, hk.ne.2.2.2.2⟩
  · rw [hk]
    decide
  · rw [hk]
    decide

theorem ne_of_statement {mode : StatementMode} {t : Tree}
    (h : Reads n (.statement mode t) s r) :
    s.current.kind ≠ .endOfInput ∧ s.current.kind ≠ .rightBrace := by
  cases h with
  | block hopen =>
    rw [hopen]
    decide
  | unseparated _ hsimple => exact ⟨(ne_of_simple hsimple).1, (ne_of_simple hsimple).2.2⟩
  | separated _ hsimple => exact ⟨(ne_of_simple hsimple).1, (ne_of_simple hsimple).2.2⟩

/-- Statements are read up to the token that closes them. -/
theorem kind_of_statements {closing : TokenKind} {mode : StatementMode} {ts : List Tree}
    (h : Reads n (.statements closing mode ts) s r) : r.current.kind = closing := by
  induction ts generalizing s with
  | nil =>
    cases h with
    | last hclose => exact hclose
  | cons t ts ih =>
    cases h with
    | more _ hrest => exact ih hrest

end Reads

end ScriptSyntax
