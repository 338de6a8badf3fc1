/-
The parsers and the rules agree.

A parser built on `n` levels gives a tree exactly if the rules derive it:

* `agrees` — for statements and expressions, at every level;
* `parseTokens_eq_compound_iff` — for whole programs.

The levels are climbed by one induction, inside which the two loops, over
operators and over statements, are inductions on their bounds.  A bound is never
the reason that a loop ends: every round takes an item, and there are as many
rounds as items.
-/
import ScriptSyntax.Proofs.Parser.Functions
import ScriptSyntax.Proofs.Parser.Rules

namespace ScriptSyntax

namespace Parser

variable {n least : Nat} {s r : Input} {t : Tree}

/-! ### Agreement, level by level -/

/-- If statements of a mode agree with the rules, then so do lists of them, up
to any token that ends statements. -/
theorem gives_statementsWithin_iff {ends : TokenKind → Bool} {mode : StatementMode}
    {read : Parser Tree} (hend : ends .endOfInput)
    (hends : ∀ k, ends k → k = .endOfInput ∨ k = .rightBrace)
    (hread : ∀ {s r : Input} {t : Tree}, s.final.kind = .endOfInput →
      (read.Gives s t r ↔ Reads n (.statement mode t) s r))
    {bound : List Item} {ts : List Tree} (hfinal : s.final.kind = .endOfInput)
    (hbound : s.items.length ≤ bound.length) :
    (statementsWithin ends read bound).Gives s ts r ↔
      ∃ closing, ends closing ∧ Reads n (.statements closing mode ts) s r := by
  induction bound generalizing s ts with
  | nil =>
    -- Without items the next token is the end token, which ends statements of all kinds.
    have hitems : s.items.length = 0 := Nat.le_zero.1 hbound
    rw [statementsWithin, gives_pure]
    constructor
    · rintro ⟨rfl, rfl⟩
      refine ⟨.endOfInput, hend, .last ?_⟩
      rw [Input.current, List.eq_nil_of_length_eq_zero hitems]
      exact hfinal
    · rintro ⟨closing, -, h⟩
      cases h with
      | last => exact ⟨rfl, rfl⟩
      | more hfirst =>
        have := hfirst.length_lt hfinal rfl
        omega
  | cons x bound ih =>
    rw [gives_statementsWithin_cons]
    rw [List.length_cons] at hbound
    constructor
    · rintro (⟨hk, rfl, rfl⟩ | ⟨-, first, s', rest, hfirst, hrest, rfl⟩)
      · exact ⟨_, hk, .last rfl⟩
      · have hfirst' := (hread hfinal).1 hfirst
        have hlength := hfirst'.length_lt hfinal rfl
        have hfinal' : s'.final.kind = .endOfInput := by rw [hfirst'.final_eq]; exact hfinal
        obtain ⟨closing, hclosing, hrest'⟩ := (ih hfinal' (by omega)).1 hrest
        exact ⟨closing, hclosing, .more hfirst' hrest'⟩
    · rintro ⟨closing, hclosing, h⟩
      cases h with
      | last hclose => exact .inl ⟨by rw [hclose]; exact hclosing, rfl, rfl⟩
      | @more _ _ _ _ s' _ first rest hfirst hrest =>
        have hlength := hfirst.length_lt hfinal rfl
        have hfinal' : s'.final.kind = .endOfInput := by rw [hfirst.final_eq]; exact hfinal
        have hk : ends s.current.kind = false := by
          rw [Bool.eq_false_iff]
          intro hk
          rcases hends _ hk with h | h
          · exact hfirst.ne_of_statement.1 h
          · exact hfirst.ne_of_statement.2 h
        exact .inr ⟨hk, first, s', rest, (hread hfinal).2 hfirst,
          (ih hfinal' (by omega)).2 ⟨closing, hclosing, hrest⟩, rfl⟩

/-- At level `n` the parsers and the rules agree. -/
structure Agrees (n : Nat) : Prop where
  statement : ∀ {mode : StatementMode} {s r : Input} {t : Tree}, s.final.kind = .endOfInput →
    ((statement (levels n) mode).Gives s t r ↔ Reads n (.statement mode t) s r)
  expression : ∀ {least : Nat} {s r : Input} {t : Tree}, s.final.kind = .endOfInput →
    ((expression (levels n) least).Gives s t r ↔ Reads n (.expression least t) s r)

theorem gives_statements_iff {ends : TokenKind → Bool} {mode : StatementMode} {ts : List Tree}
    (hend : ends .endOfInput) (hends : ∀ k, ends k → k = .endOfInput ∨ k = .rightBrace)
    (hagrees : Agrees n) (hfinal : s.final.kind = .endOfInput) :
    (statements ends (statement (levels n) mode)).Gives s ts r ↔
      ∃ closing, ends closing ∧ Reads n (.statements closing mode ts) s r := by
  rw [statements, gives_input_bind]
  exact gives_statementsWithin_iff hend hends hagrees.statement hfinal (Nat.le_refl _)

section

variable (below : ∀ m, n = m + 1 → Agrees m)
include below

theorem gives_operand_iff (hfinal : s.final.kind = .endOfInput) :
    (operand (levels n) least).Gives s t r ↔ Reads n (.operand least t) s r := by
  have hadvance : s.advance.final.kind = .endOfInput := hfinal
  rw [gives_operand, gives_primary, gives_group]
  constructor
  · rintro ((⟨v, hv, rfl, rfl⟩ | ⟨hopen, m, x, s', rfl, hx, hclose, rfl, rfl⟩) |
      ⟨hoperator, hleast, m, x, rfl, hx, rfl⟩)
    · exact .literal hv
    · exact .group hopen (((below m rfl).statement hadvance).1 hx) hclose
    · exact .unary hoperator hleast (((below m rfl).expression hadvance).1 hx)
  · intro h
    cases h with
    | literal hvalue => exact .inl (.inl ⟨_, hvalue, rfl, rfl⟩)
    | group hopen hinner hclose =>
      exact .inl (.inr ⟨hopen, _, _, _, rfl, ((below _ rfl).statement hadvance).2 hinner, hclose,
        rfl, rfl⟩)
    | unary hoperator hleast hinner =>
      exact .inr ⟨hoperator, hleast, _, _, rfl, ((below _ rfl).expression hadvance).2 hinner, rfl⟩

theorem gives_operatorsWithin_iff {bound : List Item} {left : Tree}
    (hfinal : s.final.kind = .endOfInput) (hbound : s.items.length ≤ bound.length) :
    (operatorsWithin (operand (levels n)) bound least left).Gives s t r ↔
      Reads n (.operators least left t) s r := by
  induction bound generalizing s r least left t with
  | nil =>
    -- Without items the next token is the end token, which is no operator.
    have hk : s.current.kind.binaryPrecedence = 0 := by
      rw [Input.current, List.eq_nil_of_length_eq_zero (Nat.le_zero.1 hbound)]
      show s.final.kind.binaryPrecedence = 0
      rw [hfinal]
      rfl
    rw [operatorsWithin, gives_pure]
    constructor
    · rintro ⟨rfl, rfl⟩
      exact .done (by omega)
    · intro h
      cases h with
      | done => exact ⟨rfl, rfl⟩
      | trailing _ hleast | binary _ hleast => omega
  | cons x bound ih =>
    rw [gives_operatorsWithin_cons]
    have hadvance : s.advance.final.kind = .endOfInput := hfinal
    rw [List.length_cons] at hbound
    -- A round takes an item, so the rest of the bound is enough for what follows.
    have hround : ∀ {s₁ : Input} {first : Tree}, least < s.current.kind.binaryPrecedence →
        Reads n (.operand s.current.kind.binaryPrecedence first) s.advance s₁ →
        s₁.final.kind = .endOfInput ∧ s₁.items.length ≤ bound.length := by
      intro s₁ first hleast hfirst
      have hend : s.current.kind ≠ .endOfInput := fun h => by
        rw [h] at hleast
        exact absurd hleast (Nat.not_lt_zero _)
      have h₁ := Input.length_advance_lt hfinal hend
      have h₂ := hfirst.length_add_takes_le hadvance
      exact ⟨by rw [hfirst.final_eq]; exact hadvance, by omega⟩
    constructor
    · rintro (⟨hleast, rfl, rfl⟩ | ⟨hleast, hpost, rfl, rfl⟩ |
        ⟨hleast, hoperator, first, s₁, right, s₂, hfirst, hright, hrest⟩)
      · exact .done hleast
      · exact .trailing hpost hleast
      · have hfirst' := (gives_operand_iff below hadvance).1 hfirst
        obtain ⟨hfinal₁, hbound₁⟩ := hround hleast hfirst'
        have hright' := (ih hfinal₁ hbound₁).1 hright
        have hfinal₂ : s₂.final.kind = .endOfInput := by rw [hright'.final_eq]; exact hfinal₁
        have h₂ := hright'.length_add_takes_le hfinal₁
        have hrest' := (ih hfinal₂ (by omega)).1 hrest
        exact .binary hoperator hleast (.expression hfirst' hright') hrest'
    · intro h
      cases h with
      | done hleast => exact .inl ⟨hleast, rfl, rfl⟩
      | trailing hpost hleast => exact .inr (.inl ⟨hleast, hpost, rfl, rfl⟩)
      | @binary _ _ _ s₂ _ _ right _ hoperator hleast hexpression hrest =>
        cases hexpression with
        | @expression _ _ _ s₁ _ first _ hfirst hright =>
          obtain ⟨hfinal₁, hbound₁⟩ := hround hleast hfirst
          have hfinal₂ : s₂.final.kind = .endOfInput := by rw [hright.final_eq]; exact hfinal₁
          have h₂ := hright.length_add_takes_le hfinal₁
          exact .inr (.inr ⟨hleast, hoperator, first, s₁, right, s₂,
            (gives_operand_iff below hadvance).2 hfirst, (ih hfinal₁ hbound₁).2 hright,
            (ih hfinal₂ (by omega)).2 hrest⟩)

theorem gives_expression_iff (hfinal : s.final.kind = .endOfInput) :
    (expression (levels n) least).Gives s t r ↔ Reads n (.expression least t) s r := by
  rw [gives_expression]
  constructor
  · rintro ⟨first, s', hfirst, hrest⟩
    have hfirst' := (gives_operand_iff below hfinal).1 hfirst
    have hfinal' : s'.final.kind = .endOfInput := by rw [hfirst'.final_eq]; exact hfinal
    exact .expression hfirst' ((gives_operatorsWithin_iff below hfinal' (Nat.le_refl _)).1 hrest)
  · intro h
    cases h with
    | @expression _ _ _ s' _ first _ hfirst hrest =>
      have hfinal' : s'.final.kind = .endOfInput := by rw [hfirst.final_eq]; exact hfinal
      exact ⟨first, s', (gives_operand_iff below hfinal).2 hfirst,
        (gives_operatorsWithin_iff below hfinal' (Nat.le_refl _)).2 hrest⟩

/-- Statements of a mode agree with the rules if values after `return` do,
should the mode allow them. -/
theorem gives_simple_iff {mode : StatementMode}
    (hvalue : mode.functionControl → ∀ {s r : Input} {t : Tree}, s.final.kind = .endOfInput →
      ((inner (levels n)).Gives s t r ↔ Reads n (.statement .expression t) s r))
    (hfinal : s.final.kind = .endOfInput) :
    (simple (levels n) (controlled mode (inner (levels n)))).Gives s t r ↔
      Reads n (.simple mode t) s r := by
  have hadvance : s.advance.final.kind = .endOfInput := hfinal
  have hadvance₂ : s.advance.advance.final.kind = .endOfInput := hfinal
  rw [gives_simple, gives_controlled]
  constructor
  · rintro (⟨target, htarget, hopen, h⟩ | ⟨-, h⟩)
    · obtain ⟨-, m, x, s', rfl, hx, hclose, rfl, rfl⟩ := gives_conversion.1 h
      exact .convert htarget hopen (((below m rfl).statement hadvance₂).1 hx) hclose
    · rcases h with ⟨hm, hk, ⟨ht, rfl⟩ | ⟨ht, rfl⟩, rfl⟩ | ⟨hm, hk, ht, x, hx, rfl⟩ | ⟨-, h⟩
      · exact .breakLoop hm hk ht
      · exact .continueLoop hm hk ht
      · exact .returnValue hm hk ht ((hvalue hm hadvance).1 hx)
      · exact .value ((gives_expression_iff below hfinal).1 h)
  · intro h
    cases h with
    | convert htarget hopen hinner hclose =>
      exact .inl ⟨_, htarget, hopen, gives_conversion.2 ⟨Input.kind_of_followedBy hopen, _, _, _,
        rfl, ((below _ rfl).statement hadvance₂).2 hinner, hclose, rfl, rfl⟩⟩
    | breakLoop hm hk ht =>
      have hword : typeOf? s.current = none := if_neg (by rw [hk]; decide)
      exact .inr ⟨.inl hword, .inl ⟨hm, hk, .inl ⟨ht, rfl⟩, rfl⟩⟩
    | continueLoop hm hk ht =>
      have hword : typeOf? s.current = none := if_neg (by rw [hk]; decide)
      exact .inr ⟨.inl hword, .inl ⟨hm, hk, .inr ⟨ht, rfl⟩, rfl⟩⟩
    | returnValue hm hk ht hinner =>
      have hword : typeOf? s.current = none := by
        rw [typeOf?, if_pos hk, ht]
        rfl
      exact .inr ⟨.inl hword, .inr (.inl ⟨hm, hk, ht, _, (hvalue hm hadvance).2 hinner, rfl⟩)⟩
    | value hexpression =>
      -- What begins an operand is no word, and so no type and no `return`.
      have hne := hexpression.beginsOperand_of_expression.ne
      have hword : typeOf? s.current = none := if_neg hne.2.2.1
      have hcontrol : ¬ Controls mode s.current := by
        rintro (⟨-, hk, -⟩ | ⟨-, hk, -⟩)
        · exact hne.2.2.2.1 hk
        · exact hne.2.2.1 hk
      exact .inr ⟨.inl hword,
        .inr (.inr ⟨hcontrol, (gives_expression_iff below hfinal).2 hexpression⟩)⟩

omit below in
theorem gives_block_iff {m : Nat} {mode : StatementMode} (hbelow : Agrees m)
    (hfinal : s.final.kind = .endOfInput) :
    (block (.above (levels m)) mode).Gives s t r ↔
      ∃ ts s', Reads m (.statements .rightBrace mode.withSeparator ts) s.advance s' ∧
        t = .compound s.current.span ts ∧ r = s'.advance := by
  have hadvance : s.advance.final.kind = .endOfInput := hfinal
  have hends : ∀ k : TokenKind, decide (k = .rightBrace ∨ k = .endOfInput) →
      k = .endOfInput ∨ k = .rightBrace := fun k hk => (of_decide_eq_true hk).symm
  rw [gives_block]
  constructor
  · rintro ⟨ts, s', hts, hclose, ht, hr⟩
    obtain ⟨closing, -, hts⟩ := (gives_statements_iff (by decide) hends hbelow hadvance).1 hts
    obtain rfl : closing = .rightBrace := hts.kind_of_statements.symm.trans hclose
    exact ⟨ts, s', hts, ht, hr⟩
  · rintro ⟨ts, s', hts, ht, hr⟩
    refine ⟨ts, s', ?_, hts.kind_of_statements, ht, hr⟩
    exact (gives_statements_iff (by decide) hends hbelow hadvance).2 ⟨_, by decide, hts⟩

theorem gives_statement_iff_of_value {mode : StatementMode}
    (hvalue : mode.functionControl → ∀ {s r : Input} {t : Tree}, s.final.kind = .endOfInput →
      ((inner (levels n)).Gives s t r ↔ Reads n (.statement .expression t) s r))
    (hfinal : s.final.kind = .endOfInput) :
    (statement (levels n) mode).Gives s t r ↔ Reads n (.statement mode t) s r := by
  rw [statement, gives_statementWith]
  constructor
  · rintro (⟨hopen, m, rfl, hblock⟩ | ⟨-, -, s', hsimple, hseparator⟩)
    · obtain ⟨ts, s', hts, rfl, rfl⟩ := (gives_block_iff (below m rfl) hfinal).1 hblock
      exact .block hopen hts
    · have hsimple' := (gives_simple_iff below hvalue hfinal).1 hsimple
      split at hseparator
      · next hmode => exact .separated hmode hsimple' hseparator
      · next hmode =>
        rw [hseparator]
        exact .unseparated (Bool.eq_false_iff.2 hmode) hsimple'
  · intro h
    cases h with
    | block hopen hinner =>
      exact .inl ⟨hopen, _, rfl,
        (gives_block_iff (below _ rfl) hfinal).2 ⟨_, _, hinner, rfl, rfl⟩⟩
    | unseparated hmode hsimple =>
      have hne := hsimple.ne_of_simple
      refine .inr ⟨hne.1, hne.2.1, r, (gives_simple_iff below hvalue hfinal).2 hsimple, ?_⟩
      rw [hmode]
      rfl
    | separated hmode hsimple hseparator =>
      have hne := hsimple.ne_of_simple
      refine .inr ⟨hne.1, hne.2.1, _, (gives_simple_iff below hvalue hfinal).2 hsimple, ?_⟩
      rw [if_pos hmode]
      exact hseparator

theorem gives_statement_iff {mode : StatementMode} (hfinal : s.final.kind = .endOfInput) :
    (statement (levels n) mode).Gives s t r ↔ Reads n (.statement mode t) s r := by
  refine gives_statement_iff_of_value below (fun _ s r t hfinal => ?_) hfinal
  rw [gives_inner]
  exact gives_statement_iff_of_value below (fun h => nomatch h) hfinal

end

/-- The parsers and the rules agree at every level. -/
theorem agrees (n : Nat) : Agrees n := by
  induction n with
  | zero =>
    have below : ∀ m, 0 = m + 1 → Agrees m := fun m hm => by omega
    exact ⟨gives_statement_iff below, gives_expression_iff below⟩
  | succ n ih =>
    have below : ∀ m, n + 1 = m + 1 → Agrees m := fun m hm => by
      obtain rfl : n = m := by omega
      exact ih
    exact ⟨gives_statement_iff below, gives_expression_iff below⟩

/-! ### Programs -/

theorem gives_program_iff {o : ParseOptions} (hfinal : s.final.kind = .endOfInput) :
    (program o).Gives s t r ↔
      ∃ ts, Reads maxNesting (.statements .endOfInput o.statementMode ts) s r ∧
        t = .compound .nowhere ts := by
  have hends : ∀ k : TokenKind, decide (k = .endOfInput) →
      k = .endOfInput ∨ k = .rightBrace := fun k hk => .inl (of_decide_eq_true hk)
  rw [program, grammar_eq_above, gives_bind]
  simp only [gives_pure]
  constructor
  · rintro ⟨ts, s', hts, rfl, rfl⟩
    obtain ⟨closing, hclosing, hts⟩ :=
      (gives_statements_iff (by decide) hends (agrees maxNesting) hfinal).1 hts
    obtain rfl : closing = .endOfInput := of_decide_eq_true hclosing
    exact ⟨ts, hts, rfl⟩
  · rintro ⟨ts, hts, rfl⟩
    refine ⟨ts, r, ?_, rfl, rfl⟩
    exact (gives_statements_iff (by decide) hends (agrees maxNesting) hfinal).2
      ⟨_, by decide, hts⟩

/-- Reading a program gives its tree and what stands after it. -/
theorem gives_program_of_parse {o : ParseOptions} (h : (parse o s).root.isBad = false) :
    (program o).Gives s (parse o s).root (parse o s).rest := by
  unfold parse at h ⊢
  split
  · next hp => exact ⟨by rw [hp], by rw [hp]⟩
  · next hp =>
    rw [hp] at h
    exact absurd h (by simp [Tree.isBad])

theorem parse_of_gives_program {o : ParseOptions} (h : (program o).Gives s t r) :
    (parse o s).root = t ∧ (parse o s).rest = r := by
  obtain ⟨hresult, hrest⟩ := h
  unfold parse
  split
  · next hp =>
    rw [hp] at hresult hrest
    exact ⟨Except.ok.inj hresult, hrest⟩
  · next hp =>
    rw [hp] at hresult
    exact nomatch hresult

end Parser

/-- **The trees of programs.**  A list of tokens has a tree that is no error
exactly if the rules derive its statements. -/
theorem parseTokens_eq_compound_iff {o : ParseOptions} {ts : List Token} {ss : List Tree} :
    parseTokens o ts = .compound .nowhere ss ↔
      ∃ r, Reads maxNesting (.statements .endOfInput o.statementMode ss) (.ofTokens ts) r := by
  have hfinal := Input.kind_final_ofTokens ts
  constructor
  · intro h
    have hgood : (parse o (.ofTokens ts)).root.isBad = false := by
      rw [show (parse o (.ofTokens ts)).root = _ from h]
      rfl
    obtain ⟨ss', hss', heq⟩ :=
      (Parser.gives_program_iff hfinal).1 (Parser.gives_program_of_parse hgood)
    obtain rfl : ss = ss' := by
      injection (show Tree.compound .nowhere ss = .compound .nowhere ss' from h.symm.trans heq)
    exact ⟨_, hss'⟩
  · rintro ⟨r, h⟩
    exact (Parser.parse_of_gives_program ((Parser.gives_program_iff hfinal).2 ⟨ss, h, rfl⟩)).1

/-- What is no error is a program at no place. -/
theorem exists_parseTokens_eq_compound {o : ParseOptions} {ts : List Token}
    (h : (parseTokens o ts).isBad = false) : ∃ ss, parseTokens o ts = .compound .nowhere ss := by
  have hfinal := Input.kind_final_ofTokens ts
  obtain ⟨ss, -, heq⟩ := (Parser.gives_program_iff hfinal).1 (Parser.gives_program_of_parse h)
  exact ⟨ss, heq⟩

end ScriptSyntax
