/-
What each parser of the grammar gives.

There is one statement for every parser.  It says when the parser gives a tree,
in terms of the next tokens and of what the parsers that it calls give, so that
nothing else has to look into its definition:

* `gives_operand`, `gives_expression` and `gives_operatorsWithin_cons` — for
  expressions, where the last is one round of the loop over operators;
* `gives_simple`, `gives_controlled` and `gives_statementWith` — for statements;
* `gives_statementsWithin_cons` — one round of the loop over statements.
-/
import ScriptSyntax.Proofs.Parser.Success
import ScriptSyntax.Proofs.Token.Operators

namespace ScriptSyntax

namespace Parser

variable {n least : Nat} {s r : Input} {t : Tree}

/-! ### Operands -/

theorem gives_group {p : Span} :
    (group (levels n) p).Gives s t r ↔
      ∃ m x s', n = m + 1 ∧ (statement (levels m) .expression).Gives s x s' ∧
        s'.current.kind = .rightParen ∧ t = .group p x ∧ r = s'.advance := by
  rw [group, gives_closed]
  constructor
  · rintro ⟨x, s', hx, hclose, ht, hr⟩
    obtain ⟨m, hm, hx⟩ := gives_nested.1 hx
    exact ⟨m, x, s', hm, hx, hclose, ht, hr⟩
  · rintro ⟨m, x, s', hm, hx, hclose, ht, hr⟩
    exact ⟨x, s', gives_nested.2 ⟨m, hm, hx⟩, hclose, ht, hr⟩

theorem gives_primary :
    (primary (levels n)).Gives s t r ↔
      (∃ v, Literal.ofToken? s.current = some v ∧ t = .literal s.current.span v ∧
        r = s.advance) ∨
      s.current.kind = .leftParen ∧ (group (levels n) s.current.span).Gives s.advance t r := by
  rw [primary, gives_advance_bind]
  split
  · next hk =>
    have hv : Literal.ofToken? s.current = none := by simp [Literal.ofToken?, hk]
    simp [hk, hv]
  · next hk =>
    have hv : Literal.ofToken? s.current = none := by simp [Literal.ofToken?, hk]
    simp [hk, hv, not_gives_fail]
  · next hparen _ =>
    have hk : s.current.kind ≠ .leftParen := hparen
    split
    · next v hv => simp [gives_pure, hv, hk]
    · next hv => simp [not_gives_fail, hv, hk]

/-- A literal or a group begins with no operator. -/
theorem unaryPrecedence_eq_zero_of_primary (h : (primary (levels n)).Gives s t r) :
    s.current.kind.unaryPrecedence = 0 := by
  rcases gives_primary.1 h with ⟨v, hv, -⟩ | ⟨hk, -⟩
  · have hlit : s.current.kind.isLiteral := by rw [← Literal.isSome_ofToken?, hv]; rfl
    revert hlit
    cases s.current.kind <;> simp [TokenKind.isLiteral, TokenKind.unaryPrecedence]
  · rw [hk]
    rfl

theorem gives_operand :
    (operand (levels n) least).Gives s t r ↔
      (primary (levels n)).Gives s t r ∨
      s.current.kind.IsUnary ∧ least ≤ s.current.kind.unaryPrecedence ∧
        ∃ m x, n = m + 1 ∧
          (expression (levels m) s.current.kind.unaryPrecedence).Gives s.advance x r ∧
          t = .unary s.current.span s.current.kind x := by
  rw [operand, gives_peek_bind]
  dsimp only
  split
  · next h =>
    constructor
    · exact .inl
    · rintro (hp | ⟨hoperator, hleast, -⟩)
      · exact hp
      · exact absurd h (by have := hoperator.1; omega)
  · next h =>
    -- What begins with an operator is neither a literal nor a group.
    have hprimary : ¬ (primary (levels n)).Gives s t r := fun hp =>
      h (.inl (unaryPrecedence_eq_zero_of_primary hp))
    split
    · next hquestion =>
      rw [gives_note_bind, gives_advance_bind]
      constructor
      · intro hf
        exact absurd hf not_gives_fail
      · rintro (hp | ⟨hoperator, -⟩)
        · exact absurd hp hprimary
        · exact absurd hquestion hoperator.2
    · next hquestion =>
      rw [gives_advance_bind]
      simp only [gives_bind, gives_pure]
      constructor
      · rintro ⟨x, s', hx, rfl, rfl⟩
        obtain ⟨m, hm, hx⟩ := gives_nested.1 hx
        exact .inr ⟨⟨by omega, hquestion⟩, by omega, m, x, hm, hx, rfl⟩
      · rintro (hp | ⟨-, -, m, x, hm, hx, rfl⟩)
        · exact absurd hp hprimary
        · exact ⟨x, r, gives_nested.2 ⟨m, hm, hx⟩, rfl, rfl⟩

/-! ### Expressions -/

theorem gives_expression :
    (expression (levels n) least).Gives s t r ↔
      ∃ first s', (operand (levels n) least).Gives s first s' ∧
        (operatorsWithin (operand (levels n)) s'.items least first).Gives s' t r := by
  rw [expression, gives_bind]
  rfl

/-- One round of the loop over operators. -/
theorem gives_operatorsWithin_cons {x : Item} {bound : List Item} {operand : Nat → Parser Tree}
    {left : Tree} :
    (operatorsWithin operand (x :: bound) least left).Gives s t r ↔
      s.current.kind.binaryPrecedence ≤ least ∧ t = left ∧ r = s ∨
      least < s.current.kind.binaryPrecedence ∧
        s.current.kind.binaryPrecedence = TokenKind.postfixPrecedence ∧
        t = .trailing s.current.span s.current.kind left ∧ r = s.advance ∨
      least < s.current.kind.binaryPrecedence ∧ s.current.kind.IsBinary ∧
        ∃ first s₁ right s₂, (operand s.current.kind.binaryPrecedence).Gives s.advance first s₁ ∧
          (operatorsWithin operand bound s.current.kind.binaryPrecedence first).Gives
            s₁ right s₂ ∧
          (operatorsWithin operand bound least
            (.binary s.current.span s.current.kind left right)).Gives s₂ t r := by
  rw [operatorsWithin, gives_peek_bind]
  dsimp only
  by_cases hleast : s.current.kind.binaryPrecedence ≤ least
  · rw [if_pos hleast, gives_pure]
    simp [hleast, Nat.not_lt.2 hleast]
  · rw [if_neg hleast, gives_advance_bind]
    simp only [hleast, false_and, false_or, Nat.lt_of_not_le hleast, true_and]
    by_cases hpost : s.current.kind.binaryPrecedence = TokenKind.postfixPrecedence
    · rw [if_pos hpost, gives_pure]
      simp [TokenKind.IsBinary, hpost]
    · rw [if_neg hpost]
      have hoperator : s.current.kind.IsBinary := ⟨by omega, hpost⟩
      simp only [gives_bind, hpost, hoperator, false_and, false_or, true_and]
      constructor
      · rintro ⟨first, s₁, hfirst, right, s₂, hright, hrest⟩
        exact ⟨first, s₁, right, s₂, hfirst, hright, hrest⟩
      · rintro ⟨first, s₁, right, s₂, hfirst, hright, hrest⟩
        exact ⟨first, s₁, hfirst, right, s₂, hright, hrest⟩

/-! ### Statements -/

theorem gives_conversion {target : ValueType} :
    (conversion (levels n) target).Gives s t r ↔
      s.advance.current.kind = .leftParen ∧
        ∃ m x s', n = m + 1 ∧ (statement (levels m) .expression).Gives s.advance.advance x s' ∧
          s'.current.kind = .rightParen ∧ t = .convert s.current.span target x ∧
          r = s'.advance := by
  rw [conversion, gives_advance_bind, gives_bind]
  simp only [gives_expect, gives_closed]
  constructor
  · rintro ⟨_, _, ⟨hopen, -, rfl⟩, x, s', hx, hclose, ht, hr⟩
    obtain ⟨m, hm, hx⟩ := gives_nested.1 hx
    exact ⟨hopen, m, x, s', hm, hx, hclose, ht, hr⟩
  · rintro ⟨hopen, m, x, s', hm, hx, hclose, ht, hr⟩
    exact ⟨_, _, ⟨hopen, rfl, rfl⟩, x, s', gives_nested.2 ⟨m, hm, hx⟩, hclose, ht, hr⟩

/-- One round of the loop over statements. -/
theorem gives_statementsWithin_cons {x : Item} {bound : List Item} {ends : TokenKind → Bool}
    {statement : Parser Tree} {ts : List Tree} :
    (statementsWithin ends statement (x :: bound)).Gives s ts r ↔
      ends s.current.kind ∧ ts = [] ∧ r = s ∨
      ends s.current.kind = false ∧ ∃ first s' rest, statement.Gives s first s' ∧
        (statementsWithin ends statement bound).Gives s' rest r ∧ ts = first :: rest := by
  rw [statementsWithin, gives_peek_bind]
  by_cases hends : ends s.current.kind
  · rw [if_pos hends, gives_pure]
    simp [hends]
  · rw [if_neg hends, gives_bind]
    simp only [gives_map, hends, Bool.false_eq_true, false_and, false_or, true_and]
    constructor
    · rintro ⟨first, s', hfirst, rest, hrest, rfl⟩
      exact ⟨first, s', rest, hfirst, hrest, rfl⟩
    · rintro ⟨first, s', rest, hfirst, hrest, rfl⟩
      exact ⟨first, s', hfirst, rest, hrest, rfl⟩

/-- Whether a token begins a control statement that the mode allows. -/
def Controls (mode : StatementMode) (t : Token) : Prop :=
  mode.loopControl ∧ t.kind = .controller ∧ (t.text = "break" ∨ t.text = "continue") ∨
    mode.functionControl ∧ t.kind = .word ∧ t.text = "return"

theorem gives_controlled {mode : StatementMode} {value otherwise : Parser Tree} :
    (controlled mode value otherwise).Gives s t r ↔
      mode.loopControl ∧ s.current.kind = .controller ∧
        (s.current.text = "break" ∧ t = .breakLoop s.current.span ∨
          s.current.text = "continue" ∧ t = .continueLoop s.current.span) ∧ r = s.advance ∨
      mode.functionControl ∧ s.current.kind = .word ∧ s.current.text = "return" ∧
        (∃ x, value.Gives s.advance x r ∧ t = .returnValue s.current.span x) ∨
      ¬ Controls mode s.current ∧ otherwise.Gives s t r := by
  rw [controlled, gives_peek_bind]
  split
  · next h =>
    obtain ⟨hm, hk, ht⟩ := h
    rw [gives_advance_bind, gives_pure]
    simp [Controls, hm, hk, ht]
  · next hbreak =>
    split
    · next h =>
      obtain ⟨hm, hk, ht⟩ := h
      rw [gives_advance_bind, gives_pure]
      simp [Controls, hm, hk, ht]
    · next hcontinue =>
      split
      · next h =>
        obtain ⟨hm, hk, ht⟩ := h
        rw [gives_advance_bind, gives_bind]
        simp only [gives_pure]
        simp [Controls, hm, hk, ht]
      · next hreturn =>
        -- All three tests have failed, so the token controls nothing.
        have hnone : ¬ Controls mode s.current := by
          rintro (⟨hm, hk, ht | ht⟩ | h)
          · exact hbreak ⟨hm, hk, ht⟩
          · exact hcontinue ⟨hm, hk, ht⟩
          · exact hreturn h
        constructor
        · intro h
          exact .inr (.inr ⟨hnone, h⟩)
        · rintro (⟨hm, hk, ht, -⟩ | ⟨hm, hk, ht, -⟩ | ⟨-, h⟩)
          · exact absurd (.inl ⟨hm, hk, ht.imp And.left And.left⟩) hnone
          · exact absurd (.inr ⟨hm, hk, ht⟩) hnone
          · exact h

theorem gives_simple {control : Parser Tree → Parser Tree} :
    (simple (levels n) control).Gives s t r ↔
      (∃ target, typeOf? s.current = some target ∧ s.followedBy .leftParen ∧
        (conversion (levels n) target).Gives s t r) ∨
      (typeOf? s.current = none ∨ ¬ s.followedBy .leftParen) ∧
        (control (expression (levels n) 0)).Gives s t r := by
  rw [simple, gives_input_bind]
  split
  · next target htarget =>
    split
    · next hopen => simp [htarget, hopen]
    · next hopen =>
      rw [gives_note_bind]
      simp [htarget, hopen]
  · next htarget => simp [htarget]

theorem gives_block {g : Grammar} {mode : StatementMode} :
    (block g mode).Gives s t r ↔
      ∃ ts s', (statements (fun k => k = .rightBrace ∨ k = .endOfInput)
          (g.statement mode.withSeparator)).Gives s.advance ts s' ∧
        s'.current.kind = .rightBrace ∧ t = .compound s.current.span ts ∧ r = s'.advance := by
  rw [block, gives_advance_bind, gives_closed]

theorem gives_statementWith {control : Parser Tree → Parser Tree} {mode : StatementMode} :
    (statementWith (levels n) control mode).Gives s t r ↔
      s.current.kind = .leftBrace ∧
        (∃ m, n = m + 1 ∧ (block (.above (levels m)) mode).Gives s t r) ∨
      s.current.kind ≠ .endOfInput ∧ s.current.kind ≠ .leftBrace ∧
        ∃ s', (simple (levels n) control).Gives s t s' ∧
          if mode.separator then SeparatorAt s' r else r = s' := by
  rw [statementWith, gives_peek_bind]
  split
  · next hk => simp [not_gives_fail, hk]
  · next hend =>
    split
    · next hk => simp [gives_nested, hk]
    · next hopen =>
      simp only [hopen, hend, false_and, false_or, ne_eq, not_false_eq_true, true_and]
      rw [gives_bind]
      constructor
      · rintro ⟨x, s', hx, h⟩
        split at h
        · next hmode =>
          obtain ⟨_, s'', hseparator, h⟩ := gives_bind.1 h
          rw [gives_note_bind, gives_pure] at h
          obtain ⟨rfl, rfl⟩ := h
          exact ⟨s', hx, by rw [if_pos hmode]; exact gives_separator.1 hseparator⟩
        · next hmode =>
          rw [gives_note_bind, gives_pure] at h
          obtain ⟨rfl, rfl⟩ := h
          exact ⟨_, hx, by rw [if_neg hmode]⟩
      · rintro ⟨s', hx, h⟩
        refine ⟨t, s', hx, ?_⟩
        split at h
        · next hmode =>
          rw [if_pos hmode, gives_bind]
          exact ⟨⟨⟩, r, gives_separator.2 h, gives_note_bind.2 (gives_pure.2 ⟨rfl, rfl⟩)⟩
        · next hmode =>
          rw [if_neg hmode]
          exact gives_note_bind.2 (gives_pure.2 ⟨rfl, h⟩)

theorem gives_controlled_expression {value otherwise : Parser Tree} :
    (controlled .expression value otherwise).Gives s t r ↔ otherwise.Gives s t r := by
  rw [gives_controlled]
  simp [Controls, StatementMode.expression]

theorem gives_inner : (inner (levels n)).Gives s t r ↔
    (statement (levels n) .expression).Gives s t r := by
  simp only [inner, statement, gives_statementWith, gives_simple, gives_controlled_expression, id]

end Parser

end ScriptSyntax
