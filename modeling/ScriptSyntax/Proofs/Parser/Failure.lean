/-
Where a parser fails.

A parser that fails has read a front of what it was to read, and the failure is
at the token behind the front.  So a syntax error is never reported later than at
the first token that no program goes on with.

* `Parser.Fails` says how parsers fail, with one statement for every way of
  putting them together;
* `Parser.failsAtFronts` — at every level the failures are at fronts;
* `viable_prefix` — the tokens before a syntax error are the beginning of a
  program.

Design notes: what has been read before a failure is known from `Parser.agrees`,
and so only the place of the failure is followed through the parsers here.
-/
import ScriptSyntax.Proofs.Lexical.Order
import ScriptSyntax.Proofs.Parser.Agreement
import ScriptSyntax.Proofs.Parser.Fronts

namespace ScriptSyntax

namespace Parser

variable {α β : Type}

/-- Reading `s`, the parser `p` fails with `f`. -/
def Fails (p : Parser α) (s : Input) (f : Failure) : Prop :=
  (p s).result = .error f

theorem gives_or_fails (p : Parser α) (s : Input) :
    (∃ a r, p.Gives s a r) ∨ ∃ f, p.Fails s f := by
  unfold Gives Fails
  cases hresult : (p s).result with
  | ok a => exact .inl ⟨a, _, rfl, rfl⟩
  | error f => exact .inr ⟨f, rfl⟩

/-! ### Sequences -/

theorem not_fails_pure {a : α} {s : Input} {f : Failure} :
    ¬ (Pure.pure a : Parser α).Fails s f :=
  fun h => nomatch h

theorem fails_fail {cause : ParseError} {p : Span} {s : Input} {f : Failure} :
    (fail cause p : Parser α).Fails s f ↔ f = ⟨cause, p⟩ :=
  ⟨fun h => (Except.error.inj h).symm, fun h => h ▸ rfl⟩

theorem fails_bind {p : Parser α} {g : α → Parser β} {s : Input} {f : Failure} :
    (p >>= g).Fails s f ↔ p.Fails s f ∨ ∃ a s', p.Gives s a s' ∧ (g a).Fails s' f := by
  unfold Fails Gives
  rw [bind_run, Parser.bind]
  rcases p s with ⟨e | a, rest, log⟩
  · simp
  · simp only [Except.ok.injEq, reduceCtorEq, false_or]
    constructor
    · intro h
      exact ⟨a, rest, ⟨rfl, rfl⟩, h⟩
    · rintro ⟨_, _, ⟨rfl, rfl⟩, h⟩
      exact h

theorem fails_map {g : α → β} {p : Parser α} {s : Input} {f : Failure} :
    (g <$> p).Fails s f ↔ p.Fails s f := by
  unfold Fails
  rw [map_run]
  rcases p s with ⟨e | a, rest, log⟩
  · simp [Except.map]
  · simp [Except.map]

theorem fails_peek_bind {g : Token → Parser β} {s : Input} {f : Failure} :
    (peek >>= g).Fails s f ↔ (g s.current).Fails s f :=
  Iff.rfl

theorem fails_input_bind {g : Input → Parser β} {s : Input} {f : Failure} :
    (input >>= g).Fails s f ↔ (g s).Fails s f :=
  Iff.rfl

theorem fails_advance_bind {g : Token → Parser β} {s : Input} {f : Failure} :
    (advance >>= g).Fails s f ↔ (g s.current).Fails s.advance f :=
  Iff.rfl

theorem fails_note_bind {e : Event} {g : PUnit → Parser β} {s : Input} {f : Failure} :
    (note e >>= g).Fails s f ↔ (g ⟨⟩).Fails s f :=
  Iff.rfl

/-! ### Tokens, separators and levels -/

theorem fails_expect {k : TokenKind} {s : Input} {f : Failure} (h : (expect k).Fails s f) :
    s.current.kind ≠ k ∧ f.span = s.current.span := by
  rw [expect, fails_advance_bind] at h
  by_cases hk : s.current.kind = k
  · rw [if_pos hk] at h
    exact absurd h not_fails_pure
  · rw [if_neg hk, fails_fail] at h
    rw [h]
    exact ⟨hk, rfl⟩

/-- A closing token after `p`, and then what `g` makes of the value of `p`. -/
theorem fails_closed {p : Parser α} {k : TokenKind} {g : α → β} {s : Input} {f : Failure}
    (h : (do let a ← p; let _ ← expect k; return g a : Parser β).Fails s f) :
    p.Fails s f ∨ ∃ a s', p.Gives s a s' ∧ s'.current.kind ≠ k ∧ f.span = s'.current.span := by
  rcases fails_bind.1 h with h | ⟨a, s', ha, h⟩
  · exact .inl h
  · rcases fails_bind.1 h with h | ⟨_, _, -, h⟩
    · exact .inr ⟨a, s', ha, fails_expect h⟩
    · exact absurd h not_fails_pure

theorem fails_separator {s : Input} {f : Failure} (h : separator.Fails s f) :
    f.span = s.current.span := by
  rw [separator, fails_input_bind] at h
  split at h
  · cases h
  · split at h
    · cases h
    · rw [fails_fail.1 h]

theorem fails_nested {n : Nat} {p : Span} {read : Grammar → Parser α} {s : Input} {f : Failure} :
    (nested (levels n) p read).Fails s f ↔
      n = 0 ∧ f = ⟨.tooDeeplyNested, p⟩ ∨
        ∃ m, n = m + 1 ∧ (read (.above (levels m))).Fails s f := by
  cases n with
  | zero =>
    show (fail _ p : Parser α).Fails s f ↔ _
    rw [fails_fail]
    simp
  | succ n =>
    show (read (grammar n)).Fails s f ↔ _
    rw [grammar_eq_above]
    simp

section

variable {ends : TokenKind → Bool} {read : Parser Tree} {s : Input} {f : Failure}

/-- The loop over statements fails where the first of them does. -/
theorem fails_statementsWithin_cons {x : Item} {bound : List Item}
    (hends : ends s.current.kind = false) (h : read.Fails s f) :
    (statementsWithin ends read (x :: bound)).Fails s f := by
  rw [statementsWithin, fails_peek_bind, hends]
  exact fails_bind.2 (.inl h)

theorem fails_statements_of_first (hitems : s.items ≠ []) (hends : ends s.current.kind = false)
    (h : read.Fails s f) : (statements ends read).Fails s f := by
  obtain ⟨x, xs, hs⟩ := List.exists_cons_of_ne_nil hitems
  rw [statements, fails_input_bind, hs]
  exact fails_statementsWithin_cons hends h

end

end Parser

/-! ### Failures at fronts -/

/-- A front of the goal stands before the place `p`. -/
def FrontAt (n : Nat) (g : Goal) (s : Input) (p : Span) : Prop :=
  ∃ e, Front n g s e ∧ p = e.current.span

theorem FrontAt.imp {m n : Nat} {g g' : Goal} {s s' : Input} {p : Span} (h : FrontAt n g s p)
    (hfront : ∀ e, Front n g s e → Front m g' s' e) : FrontAt m g' s' p := by
  obtain ⟨e, he, hp⟩ := h
  exact ⟨e, hfront e he, hp⟩

namespace Parser

variable {n least : Nat} {s : Input} {f : Failure}

/-- What fails at a level is at the end of a front. -/
structure FailsAtFronts (n : Nat) : Prop where
  statement : ∀ {mode : StatementMode} {s : Input} {f : Failure}, s.final.kind = .endOfInput →
    (statement (levels n) mode).Fails s f → FrontAt n (.statement mode) s f.span
  expression : ∀ {least : Nat} {s : Input} {f : Failure}, s.final.kind = .endOfInput →
    (expression (levels n) least).Fails s f → FrontAt n (.expression least) s f.span

/-- A statement in brackets that have been opened before `s'`, up to its end or up
to where it fails. -/
theorem frontAt_closed {g : Goal} {k : TokenKind} {build : Tree → Tree} {p : Span} {s s' : Input}
    (below : ∀ m, n = m + 1 → FailsAtFronts m) (hfinal : s'.final.kind = .endOfInput)
    (hbegin : FrontAt n g s p)
    (hfront : ∀ m e, n = m + 1 → Front m (.statement .expression) s' e → Front n g s e)
    (h : (do let inner ← nested (levels n) p fun g => g.statement .expression
             let _ ← expect k
             return build inner).Fails s' f) : FrontAt n g s f.span := by
  rcases fails_closed h with h | ⟨t, e, ht, -, hf⟩
  · rcases fails_nested.1 h with ⟨-, rfl⟩ | ⟨m, hm, h⟩
    · exact hbegin
    · exact ((below m hm).statement hfinal h).imp fun e => hfront m e hm
  · obtain ⟨m, hm, ht⟩ := gives_nested.1 ht
    exact ⟨e, hfront m e hm (.whole rfl (((agrees m).statement hfinal).1 ht)), hf⟩

/-- Control statements fail only in the value after `return`. -/
theorem fails_controlled {mode : StatementMode} {value otherwise : Parser Tree}
    (h : (controlled mode value otherwise).Fails s f) :
    mode.functionControl ∧ s.current.kind = .word ∧ s.current.text = "return" ∧
        value.Fails s.advance f ∨ otherwise.Fails s f := by
  rw [controlled, fails_peek_bind] at h
  split at h
  · cases h
  · split at h
    · cases h
    · split at h
      · next hreturn =>
        rw [fails_advance_bind] at h
        rcases fails_bind.1 h with h | ⟨_, _, -, h⟩
        · exact .inl ⟨hreturn.1, hreturn.2.1, hreturn.2.2, h⟩
        · exact absurd h not_fails_pure
      · exact .inr h

theorem frontAt_statementsWithin {ends : TokenKind → Bool} {closing : TokenKind}
    {mode : StatementMode} {read : Parser Tree} (hmode : mode.separator = true)
    (hgives : ∀ {s r : Input} {t : Tree}, s.final.kind = .endOfInput →
      (read.Gives s t r ↔ Reads n (.statement mode t) s r))
    (hfails : ∀ {s : Input} {f : Failure}, s.final.kind = .endOfInput →
      read.Fails s f → FrontAt n (.statement mode) s f.span)
    {bound : List Item} (hfinal : s.final.kind = .endOfInput)
    (h : (statementsWithin ends read bound).Fails s f) :
    FrontAt n (.statements closing mode) s f.span := by
  induction bound generalizing s with
  | nil => exact absurd h not_fails_pure
  | cons x bound ih =>
    rw [statementsWithin, fails_peek_bind] at h
    split at h
    · exact absurd h not_fails_pure
    · rcases fails_bind.1 h with h | ⟨t, s', ht, h⟩
      · exact (hfails hfinal h).imp fun e => .more
      · have ht' := (hgives hfinal).1 ht
        exact (ih (ht'.kind_final hfinal) (fails_map.1 h)).imp fun e => Front.after hmode ht'

section

variable (below : ∀ m, n = m + 1 → FailsAtFronts m)
include below

theorem frontAt_primary (hfinal : s.final.kind = .endOfInput)
    (h : (primary (levels n)).Fails s f) : FrontAt n (.operand least) s f.span := by
  have hbegin : FrontAt n (.operand least) s s.current.span := ⟨s, .operand s, rfl⟩
  have hadvance : s.advance.final.kind = .endOfInput := hfinal
  rw [primary, fails_advance_bind] at h
  split at h
  · next hopen =>
    rw [group] at h
    refine frontAt_closed below hadvance hbegin (fun m e hm he => ?_) h
    subst hm
    exact .group hopen he
  · rw [fails_fail.1 h]
    exact hbegin
  · split at h
    · exact absurd h not_fails_pure
    · rw [fails_fail.1 h]
      exact hbegin

theorem frontAt_operand (hfinal : s.final.kind = .endOfInput)
    (h : (operand (levels n) least).Fails s f) : FrontAt n (.operand least) s f.span := by
  have hbegin : FrontAt n (.operand least) s s.current.span := ⟨s, .operand s, rfl⟩
  have hadvance : s.advance.final.kind = .endOfInput := hfinal
  rw [operand, fails_peek_bind] at h
  dsimp only at h
  split at h
  · exact frontAt_primary below hfinal h
  · next hoperator =>
    split at h
    · rw [fails_note_bind, fails_advance_bind, fails_fail] at h
      rw [h]
      exact hbegin
    · next hquestion =>
      rw [fails_advance_bind] at h
      rcases fails_bind.1 h with hinner | ⟨_, _, -, hpure⟩
      · rcases fails_nested.1 hinner with ⟨-, rfl⟩ | ⟨m, rfl, hbelow⟩
        · exact hbegin
        · refine ((below m rfl).expression hadvance hbelow).imp fun e he => ?_
          exact .unary ⟨by omega, hquestion⟩ (by omega) he
      · exact absurd hpure not_fails_pure

theorem frontAt_operatorsWithin {bound : List Item} {left : Tree}
    (hfinal : s.final.kind = .endOfInput) (hbound : s.items.length ≤ bound.length)
    (h : (operatorsWithin (operand (levels n)) bound least left).Fails s f) :
    FrontAt n (.operators least) s f.span := by
  have hagrees : ∀ m, n = m + 1 → Agrees m := fun m _ => agrees m
  induction bound generalizing s least left with
  | nil => exact absurd h not_fails_pure
  | cons x bound ih =>
    have hadvance : s.advance.final.kind = .endOfInput := hfinal
    rw [List.length_cons] at hbound
    rw [operatorsWithin, fails_peek_bind] at h
    dsimp only at h
    split at h
    · exact absurd h not_fails_pure
    · next hleast =>
      rw [fails_advance_bind] at h
      split at h
      · exact absurd h not_fails_pure
      · next hpost =>
        have hleast : least < s.current.kind.binaryPrecedence := Nat.lt_of_not_le hleast
        have hoperator : s.current.kind.IsBinary := ⟨by omega, hpost⟩
        have hlength : s.advance.items.length < s.items.length :=
          Input.length_advance_lt hfinal (TokenKind.ne_endOfInput_of_lt_binaryPrecedence hleast)
        -- In the right operand, in the operators behind it, or in a later round.
        rcases fails_bind.1 h with h | ⟨first, s₁, hfirst, h⟩
        · exact (frontAt_operand below hadvance h).imp fun e he =>
            .right hoperator hleast (.first he)
        have hfirst' := (gives_operand_iff hagrees hadvance).1 hfirst
        have hfinal₁ : s₁.final.kind = .endOfInput := hfirst'.kind_final hadvance
        have hbound₁ : s₁.items.length ≤ bound.length := by
          have := hfirst'.ahead.length_le
          omega
        rcases fails_bind.1 h with h | ⟨right, s₂, hright, h⟩
        · exact (ih hfinal₁ hbound₁ h).imp fun e he =>
            .right hoperator hleast (.expression hfirst' he)
        have hright' := (gives_operatorsWithin_iff hagrees hfinal₁ hbound₁).1 hright
        have hfinal₂ : s₂.final.kind = .endOfInput := hright'.kind_final hfinal₁
        have hbound₂ : s₂.items.length ≤ bound.length :=
          Nat.le_trans hright'.ahead.length_le hbound₁
        exact (ih hfinal₂ hbound₂ h).imp fun e he =>
          .operators hoperator hleast (.expression hfirst' hright') he

theorem frontAt_expression (hfinal : s.final.kind = .endOfInput)
    (h : (expression (levels n) least).Fails s f) : FrontAt n (.expression least) s f.span := by
  have hagrees : ∀ m, n = m + 1 → Agrees m := fun m _ => agrees m
  rw [expression] at h
  rcases fails_bind.1 h with h | ⟨first, s', hfirst, h⟩
  · exact (frontAt_operand below hfinal h).imp fun e => .first
  · have hfirst' := (gives_operand_iff hagrees hfinal).1 hfirst
    have hfinal' : s'.final.kind = .endOfInput := hfirst'.kind_final hfinal
    rw [operators, fails_input_bind] at h
    exact (frontAt_operatorsWithin below hfinal' (Nat.le_refl _) h).imp fun e =>
      .expression hfirst'

theorem frontAt_conversion {mode : StatementMode} {target : ValueType}
    (hfinal : s.final.kind = .endOfInput) (htarget : typeOf? s.current = some target)
    (hopen : s.followedBy .leftParen) (h : (conversion (levels n) target).Fails s f) :
    FrontAt n (.simple mode) s f.span := by
  have hbegin : FrontAt n (.simple mode) s s.current.span :=
    ⟨s, .value (.first (.operand s)), rfl⟩
  have hadvance : s.advance.advance.final.kind = .endOfInput := hfinal
  rw [conversion, fails_advance_bind] at h
  rcases fails_bind.1 h with h | ⟨_, s', hparen, h⟩
  · exact absurd (Input.kind_of_followedBy hopen) (fails_expect h).1
  · obtain ⟨-, -, rfl⟩ := gives_expect.1 hparen
    refine frontAt_closed below hadvance hbegin (fun m e hm he => ?_) h
    subst hm
    exact .convert htarget hopen he

theorem frontAt_simple {mode : StatementMode} {control : Parser Tree → Parser Tree}
    (hfinal : s.final.kind = .endOfInput)
    (hcontrol : (control (expression (levels n) 0)).Fails s f → FrontAt n (.simple mode) s f.span)
    (h : (simple (levels n) control).Fails s f) : FrontAt n (.simple mode) s f.span := by
  rw [simple, fails_input_bind] at h
  split at h
  · next target htarget =>
    split at h
    · next hopen => exact frontAt_conversion below hfinal htarget hopen h
    · exact hcontrol (fails_note_bind.1 h)
  · exact hcontrol h

theorem frontAt_block {mode : StatementMode} (hfinal : s.final.kind = .endOfInput)
    (hopen : s.current.kind = .leftBrace) {m : Nat} (hm : n = m + 1)
    (h : (block (.above (levels m)) mode).Fails s f) : FrontAt n (.statement mode) s f.span := by
  subst hm
  have hadvance : s.advance.final.kind = .endOfInput := hfinal
  rw [block, fails_advance_bind] at h
  rcases fails_closed h with h | ⟨ts, e, hts, hclose, hf⟩
  · rw [statements, fails_input_bind] at h
    exact (frontAt_statementsWithin rfl (agrees m).statement (below m rfl).statement hadvance
      h).imp fun e => .block hopen
  · -- The statements are ended by the end of the input.
    have hends : ∀ k : TokenKind, decide (k = .rightBrace ∨ k = .endOfInput) →
        k = .endOfInput ∨ k = .rightBrace := fun k hk => (of_decide_eq_true hk).symm
    obtain ⟨closing, hclosing, hts⟩ :=
      (gives_statements_iff (by decide) hends (agrees m) hadvance).1 hts
    have hkind := hts.kind_of_statements
    obtain rfl : closing = .endOfInput :=
      (hends _ hclosing).resolve_right fun h => hclose (hkind.trans h)
    exact ⟨e, .block hopen (.of_statements rfl hts), hf⟩

theorem frontAt_statementWith {mode : StatementMode} {control : Parser Tree → Parser Tree}
    (hfinal : s.final.kind = .endOfInput)
    (hgives : ∀ {r : Input} {t : Tree}, (simple (levels n) control).Gives s t r →
      Reads n (.simple mode t) s r)
    (hcontrol : (control (expression (levels n) 0)).Fails s f → FrontAt n (.simple mode) s f.span)
    (h : (statementWith (levels n) control mode).Fails s f) :
    FrontAt n (.statement mode) s f.span := by
  have hbegin : FrontAt n (.statement mode) s s.current.span := ⟨s, .begins s, rfl⟩
  rw [statementWith, fails_peek_bind] at h
  split at h
  · rw [fails_fail.1 h]
    exact hbegin
  · split at h
    · next hopen =>
      rcases fails_nested.1 h with ⟨-, rfl⟩ | ⟨m, hm, h⟩
      · exact hbegin
      · exact frontAt_block below hfinal hopen hm h
    · rcases fails_bind.1 h with h | ⟨t, s', ht, h⟩
      · exact (frontAt_simple below hfinal hcontrol h).imp fun e => .statement
      · -- Behind a statement only its separator can be missing.
        have hnoted : ∀ r,
            ¬ (do note (.statement t.name t.span); return t : Parser Tree).Fails r f :=
          fun r h => not_fails_pure (a := t) (s := r) h
        split at h
        · rcases fails_bind.1 h with h | ⟨_, _, -, h⟩
          · exact ⟨s', .statement (.simple (hgives ht)), fails_separator h⟩
          · exact absurd h (hnoted _)
        · exact absurd h (hnoted _)

theorem frontAt_statement_of_value {mode : StatementMode}
    (hvalue : mode.functionControl → ∀ {s : Input}, s.final.kind = .endOfInput →
      (inner (levels n)).Fails s f → FrontAt n (.statement .expression) s f.span)
    (hfinal : s.final.kind = .endOfInput) (h : (statement (levels n) mode).Fails s f) :
    FrontAt n (.statement mode) s f.span := by
  have hagrees : ∀ m, n = m + 1 → Agrees m := fun m _ => agrees m
  have hadvance : s.advance.final.kind = .endOfInput := hfinal
  refine frontAt_statementWith below hfinal (fun ht => ?_) (fun h => ?_) h
  · refine (gives_simple_iff hagrees (fun _ => ?_) hfinal).1 ht
    intro s r t hfinal
    rw [gives_inner]
    exact (agrees n).statement hfinal
  · rcases fails_controlled h with ⟨hmode, hkind, htext, h⟩ | h
    · exact (hvalue hmode hadvance h).imp fun e => .returnValue hmode hkind htext
    · exact (frontAt_expression below hfinal h).imp fun e => .value

omit below in
/-- After `return` stands what stands in brackets. -/
theorem inner_eq (below : Option Grammar) : inner below = statement below .expression := by
  have hcontrolled : controlled .expression (inner below) = id := by
    funext otherwise s
    rw [controlled, bind_run]
    simp [Parser.bind, peek, StatementMode.expression]
  rw [statement, hcontrolled]
  rfl

theorem frontAt_statement {mode : StatementMode} (hfinal : s.final.kind = .endOfInput)
    (h : (statement (levels n) mode).Fails s f) : FrontAt n (.statement mode) s f.span := by
  refine frontAt_statement_of_value below (fun _ s hfinal h => ?_) hfinal h
  rw [inner_eq] at h
  exact frontAt_statement_of_value below (fun h => nomatch h) hfinal h

end

/-- At every level failures are at fronts. -/
theorem failsAtFronts (n : Nat) : FailsAtFronts n := by
  induction n with
  | zero =>
    have below : ∀ m, 0 = m + 1 → FailsAtFronts m := fun m hm => by omega
    exact ⟨frontAt_statement below, frontAt_expression below⟩
  | succ n ih =>
    have below : ∀ m, n + 1 = m + 1 → FailsAtFronts m := fun m hm => by
      obtain rfl : n = m := by omega
      exact ih
    exact ⟨frontAt_statement below, frontAt_expression below⟩

theorem frontAt_program {o : ParseOptions} (hfinal : s.final.kind = .endOfInput)
    (h : (program o).Fails s f) :
    FrontAt maxNesting (.statements .endOfInput o.statementMode) s f.span := by
  rw [program, grammar_eq_above] at h
  rcases fails_bind.1 h with h | ⟨_, _, -, h⟩
  · rw [statements, fails_input_bind] at h
    exact frontAt_statementsWithin rfl (agrees maxNesting).statement
      (failsAtFronts maxNesting).statement hfinal h
  · exact absurd h not_fails_pure

end Parser

/-! ### Programs -/

namespace Input

/-- The tokens of an item of an input, and those on both sides of it. -/
theorem exists_split {broken : Bool} {ts : List Token} {xs ys : List Item} {x : Item}
    (h : itemsFrom broken ts = xs ++ x :: ys) :
    ∃ pre post, ts = pre ++ x.token :: post ∧ itemsFrom broken pre = xs ∧
      x.token.kind ≠ .newLine := by
  induction ts generalizing broken xs with
  | nil => exact absurd h (by simp [itemsFrom])
  | cons t ts ih =>
    by_cases ht : t.kind = .newLine
    · rw [itemsFrom, if_pos ht] at h
      obtain ⟨pre, post, rfl, hpre, hx⟩ := ih h
      refine ⟨t :: pre, post, rfl, ?_, hx⟩
      rw [itemsFrom, if_pos ht, hpre]
    · rw [itemsFrom, if_neg ht] at h
      cases xs with
      | nil =>
        obtain ⟨rfl, -⟩ := List.cons.inj h
        exact ⟨[], ts, rfl, rfl, ht⟩
      | cons y xs =>
        obtain ⟨rfl, hrest⟩ := List.cons.inj h
        obtain ⟨pre, post, rfl, hpre, hx⟩ := ih hrest
        refine ⟨t :: pre, post, rfl, ?_, hx⟩
        rw [itemsFrom, if_neg ht, hpre]

theorem ofTokens_concat (ts : List Token) {e : Token} (he : e.kind = .endOfInput) :
    ofTokens (ts ++ [e]) = ⟨itemsFrom false ts, e⟩ := by
  simp [ofTokens, he]

/-- The next token of what is left of an input, and the tokens before it. -/
theorem exists_of_ahead {ts : List Token} {last : Token} (hlast : last.kind = .endOfInput)
    {e : Input} (h : e.Ahead (ofTokens (ts ++ [last]))) :
    ∃ pre post, ts ++ [last] = pre ++ e.current :: post ∧ e.current.kind ≠ .newLine ∧
      (ofTokens (ts ++ [last])).items = itemsFrom false pre ++ e.items := by
  obtain ⟨xs, hitems, hfinal⟩ := h
  rw [ofTokens_concat ts hlast] at hitems hfinal ⊢
  rcases e with ⟨_ | ⟨x, ys⟩, final⟩
  · obtain rfl : last = final := hfinal
    refine ⟨ts, [], rfl, ?_, (List.append_nil _).symm⟩
    show last.kind ≠ _
    rw [hlast]
    decide
  · obtain ⟨pre, post, rfl, rfl, hx⟩ := exists_split hitems
    exact ⟨pre, post ++ [last], List.append_assoc _ _ _, hx, hitems⟩

/-- Some tokens behind the front of an input. -/
theorem ofTokens_append {ts pre : List Token} {last : Token} (hlast : last.kind = .endOfInput)
    {ys : List Item} (h : (ofTokens ts).items = itemsFrom false pre ++ ys) (us : List Token) :
    ∃ broken, ofTokens (pre ++ (us ++ [last])) =
      (ofTokens ts).upTo ys.length (joined broken us ⟨[], last⟩) := by
  obtain ⟨broken, happend⟩ := exists_itemsFrom_append false pre us
  refine ⟨broken, ?_⟩
  rw [← List.append_assoc, ofTokens_concat _ hlast, upTo, h, List.length_append,
    Nat.add_sub_cancel, List.take_left', joined, happend, List.append_nil]
  rfl

end Input

theorem Parser.fails_of_parse {o : ParseOptions} {s : Input} {d : Diagnostic}
    (hfinal : s.final.kind = .endOfInput) (h : (parse o s).root = .bad d) :
    ∃ f, (program o).Fails s f ∧ d = f.diagnostic := by
  unfold parse at h
  split at h
  · next root rest log hp =>
    have hgives : (program o).Gives s root rest := ⟨by rw [hp], by rw [hp]⟩
    obtain ⟨ts, -, rfl⟩ := (gives_program_iff hfinal).1 hgives
    exact nomatch h
  · next f rest log hp =>
    refine ⟨f, ?_, (Tree.bad.inj h).symm⟩
    rw [Fails, hp]

/-- A failure of a program is the error that its tree is. -/
theorem Parser.parse_of_fails {o : ParseOptions} {s : Input} {f : Failure}
    (h : (program o).Fails s f) : (parse o s).root = .bad f.diagnostic := by
  unfold parse
  split
  · next hp =>
    rw [Fails, hp] at h
    exact nomatch h
  · next hp =>
    rw [Fails, hp] at h
    rw [Except.error.inj h]

/-- The tokens of a front of a program are the beginning of a program. -/
theorem Front.exists_parseTokens {o : ParseOptions} {ts pre : List Token} {e : Input}
    (h : Front maxNesting (.statements .endOfInput o.statementMode) (.ofTokens ts) e)
    (hitems : (Input.ofTokens ts).items = Input.itemsFrom false pre ++ e.items) :
    ∃ ext, (parseTokens o (pre ++ ext)).isBad = false := by
  have hlast : (Token.endAt .nowhere).kind = .endOfInput := rfl
  obtain ⟨us, hus⟩ := h.completes (Input.kind_final_ofTokens ts)
  obtain ⟨broken, hjoined⟩ := Input.ofTokens_append hlast hitems us
  obtain ⟨ss, hss⟩ := hus broken _ (Goal.before_end _ hlast)
  rw [← hjoined] at hss
  refine ⟨us ++ [.endAt .nowhere], ?_⟩
  rw [parseTokens_eq_compound_iff.2 ⟨_, hss⟩]
  rfl

/-- **Syntax errors are found as early as possible.**  A syntax error is at a
token other than a line break, and at no other of these.  The tokens before it
can be completed to a program that has no error under the same options. -/
theorem viable_prefix {o : ParseOptions} {text : String} {d : Diagnostic}
    (h : parseTokens o (tokenize text) = .bad d) :
    ∃ pre t post, tokenize text = pre ++ t :: post ∧ t.kind ≠ .newLine ∧ d.span = t.span ∧
      (∀ u ∈ pre ++ post, u.kind ≠ .newLine → u.span ≠ t.span) ∧
      ∃ ext, (parseTokens o (pre ++ ext)).isBad = false := by
  -- The failure is at the token behind a front, which lies in the tokens of the text.
  obtain ⟨ts, htokens, -⟩ := (Lexer.ofText text).exists_drain
  have htokens : tokenize text = ts ++ [.endAt _] := htokens
  obtain ⟨f, hf, rfl⟩ := Parser.fails_of_parse (Input.kind_final_ofTokens _) h
  obtain ⟨e, hfront, hspan⟩ := Parser.frontAt_program (Input.kind_final_ofTokens _) hf
  have hahead := hfront.ahead
  rw [htokens] at hahead
  obtain ⟨pre, post, hsplit, hbreak, hitems⟩ := Input.exists_of_ahead rfl hahead
  rw [← htokens] at hsplit hitems
  refine ⟨pre, e.current, post, hsplit, hbreak, hspan, fun u hu hubreak => ?_,
    hfront.exists_parseTokens hitems⟩
  have hordered : (tokenize text).Pairwise _ := (Lexer.ofText text).pairwise_drain
  rw [hsplit, List.pairwise_append] at hordered
  obtain ⟨-, hpost, hpre⟩ := hordered
  rcases List.mem_append.1 hu with hu | hu
  · exact Span.ne_of_lt (hpre u hu _ List.mem_cons_self hubreak)
  · exact (Span.ne_of_lt ((List.pairwise_cons.1 hpost).1 u hu hbreak)).symm

/-- In a conversion in a block an operator stands where an operand should. -/
theorem viable_prefix_conversion :
    let text := "\x7bint(1+*2)\x7d"
    let d : Diagnostic := .syntaxError "Incorrect statement found" ⟨1, 8⟩
    parseTokens {} (tokenize text) = .bad d ∧
      ∃ pre t post, tokenize text = pre ++ t :: post ∧ t.kind ≠ .newLine ∧ d.span = t.span ∧
        (∀ u ∈ pre ++ post, u.kind ≠ .newLine → u.span ≠ t.span) ∧
        ∃ ext, (parseTokens {} (pre ++ ext)).isBad = false := by
  intro text d
  have h : parseTokens {} (tokenize text) = .bad d := by decide +kernel
  exact ⟨h, viable_prefix h⟩

end ScriptSyntax
