/-
Walks come to an end.

At every level of nesting a walk over tokens comes to an end, with what the parser of
that level gives:

* `Walk.Follows` says so of statements and expressions;
* `Walk.follows` — it holds at every level;
* `Walk.leads_program` — and so it holds of programs, where the first token that is no
  line break is passed, unless it is the end token.

Design notes: as for the rules of the grammar the levels are climbed by one induction,
inside which the loops are inductions on the bounds of the parsers.  That every round
takes an item is known from the rules.
-/
import ScriptSyntax.Proofs.Cursor.Steps
import ScriptSyntax.Proofs.Parser.Failure

namespace ScriptSyntax

theorem Parser.bind_assoc {α β γ : Type} (p : Parser α) (f : α → Parser β) (g : β → Parser γ)
    (s : Input) : ((p >>= f) >>= g) s = (p >>= fun a => f a >>= g) s := by
  simp only [bind_run, Parser.bind]
  rcases p s with ⟨e | a, rest, log⟩
  · rfl
  · dsimp only
    rcases f a rest with ⟨e | b, rest', log'⟩
    · rfl
    · simp only [List.append_assoc]

/-- No type is named, or no parenthesis follows. -/
theorem Parser.simple_of_not_conversion {below : Option Grammar} {control : Parser Tree → Parser Tree}
    {s : Input} (h : typeOf? s.current = none ∨ s.followedBy .leftParen = false) :
    (simple below control s).result = (control (expression below 0) s).result ∧
      (simple below control s).rest = (control (expression below 0) s).rest := by
  rw [simple, bind_run, Parser.bind, input]
  dsimp only
  cases htarget : typeOf? s.current with
  | none => exact ⟨rfl, rfl⟩
  | some target =>
    have hopen : s.followedBy .leftParen = false := h.resolve_left (by simp [htarget])
    dsimp only
    rw [if_neg (by rw [hopen]; decide)]
    exact ⟨rfl, rfl⟩

theorem Parser.simple_of_conversion {below : Option Grammar} {control : Parser Tree → Parser Tree}
    {s : Input} {target : ValueType} (h : typeOf? s.current = some target)
    (hopen : s.followedBy .leftParen) :
    (simple below control s).result = (conversion below target s).result ∧
      (simple below control s).rest = (conversion below target s).rest := by
  rw [simple, bind_run, Parser.bind, input]
  dsimp only
  rw [h]
  dsimp only
  rw [if_pos hopen]
  exact ⟨rfl, rfl⟩

namespace Walk

variable {n least : Nat} {c c' : Cursor} {s : Input}

/-- With `n` levels left, walks lead to what the parsers give. -/
structure Follows (n : Nat) : Prop where
  statement : ∀ {mode : StatementMode} {c : Cursor} {s : Input}, c.Ready s →
    c.depth + n = maxNesting →
      Leads (fun gas => statement gas mode) c 0 (Parser.statement (Parser.levels n) mode s)
  statement? : ∀ {mode : StatementMode} {c : Cursor} {s : Input}, c.Ready s →
    c.depth + n = maxNesting → s.current.kind ≠ .endOfInput →
      Leads (fun gas => statement? gas mode) c 0
        ((do let x ← Parser.statement (Parser.levels n) mode; return some x : Parser _) s)
  expression : ∀ {least : Nat} {c : Cursor} {s : Input}, c.Ready s → c.depth + n = maxNesting →
    Leads (fun gas => expression gas least) c 0 (Parser.expression (Parser.levels n) least s)

/-- Where a mode allows `return`, walks lead to what may stand behind it. -/
def LeadsValues (n : Nat) (mode : StatementMode) : Prop :=
  mode.functionControl → ∀ {c : Cursor} {s : Input}, c.Ready s → c.depth + n = maxNesting →
    Leads (fun gas => statement gas .expression) c 0 (Parser.inner (Parser.levels n) s)

/-- A closing token behind what is one level further down. -/
theorem leads_closed {p : Span} {k : TokenKind} {build : Tree → Tree}
    (below : ∀ m, n = m + 1 → Follows m) (h : c.Ready s) (hdepth : c.depth + n = maxNesting) :
    Leads (fun gas => do
        let x ← nested p (statement gas .expression)
        let _ ← expect gas k
        return build x) c 0
      ((do
        let x ← Parser.nested (Parser.levels n) p fun g => g.statement .expression
        let _ ← Parser.expect k
        return build x : Parser Tree) s) := by
  refine .bind (leads_nested h hdepth (fun _ => Nat.zero_le _) fun m c' hm hready hdepth' _ => ?_) ?_
  · exact (below m hm).statement hready hdepth'
  · intro x c' s' _ hready _
    refine .bind (leads_expect hready k) fun _ c'' s'' _ hready' _ => ?_
    exact Leads.pure hready' _

section

variable (below : ∀ m, n = m + 1 → Follows m)
include below

theorem leads_primary (h : c.Ready s) (hdepth : c.depth + n = maxNesting) :
    Leads (fun gas => primary gas) c c.beyond (Parser.primary (Parser.levels n) s) := by
  refine .of_succ ?_
  simp only [primary]
  refine .advance_bind h fun c' hready hpasses => ?_
  have hdepth' : c'.depth + n = maxNesting := hpasses.depth ▸ hdepth
  split
  · next hkind =>
    rw [hkind]
    exact leads_closed below hready hdepth'
  · next hkind =>
    rw [hkind]
    exact Leads.fail hready _ _
  · next hparen hbad =>
    cases hv : Literal.ofToken? s.current with
    | some v =>
      simp only
      exact Leads.pure hready _
    | none =>
      simp only
      exact Leads.fail hready _ _

theorem leads_operand (h : c.Ready s) (hdepth : c.depth + n = maxNesting) :
    Leads (fun gas => operand gas least) c c.beyond
      (Parser.operand (Parser.levels n) least s) := by
  refine .of_succ ?_
  simp only [operand]
  refine .look_bind (current_eq h) ?_
  show Leads _ c _ ((if _ then _ else if _ then _ else _ : Parser Tree) s)
  by_cases hprimary : s.current.kind.unaryPrecedence = 0 ∨ s.current.kind.unaryPrecedence < least
  · simp only [if_pos hprimary]
    exact leads_primary below h hdepth
  · simp only [if_neg hprimary]
    by_cases hquestion : s.current.kind.unaryPrecedence = TokenKind.questionPrecedence
    · simp only [if_pos hquestion]
      refine .advance_bind (g := fun _ => Parser.fail _ _) h fun c' hready _ => ?_
      exact Leads.fail hready _ _
    · simp only [if_neg hquestion]
      refine .advance_bind h fun c' hready hpasses => ?_
      have hdepth' : c'.depth + n = maxNesting := hpasses.depth ▸ hdepth
      refine .bind (leads_nested hready hdepth' (fun _ => Nat.zero_le _)
        fun m c'' hm hready' hdepth'' _ => ?_) fun x c'' s'' _ hready' _ => ?_
      · exact (below m hm).expression hready' hdepth''
      · exact Leads.pure hready' _

omit below in
/-- The loop over operators, which needs no more rounds than there are items. -/
theorem leads_operators {bound : List Item} {left : Tree} (h : c.Ready s)
    (hdepth : c.depth + n = maxNesting) (hbound : s.items.length ≤ bound.length)
    (hoperand : ∀ {least : Nat} {c : Cursor} {s : Input}, c.Ready s → c.depth + n = maxNesting →
      Leads (fun gas => operand gas least) c 0 (Parser.operand (Parser.levels n) least s)) :
    Leads (fun gas => operators gas least left) c 0
      (Parser.operatorsWithin (Parser.operand (Parser.levels n)) bound least left s) := by
  have hagrees : ∀ m, n = m + 1 → Parser.Agrees m := fun m _ => Parser.agrees m
  have hfinal := h.shows.kind_final
  induction bound generalizing c s least left with
  | nil =>
    -- Without items the next token is the end token, which is no operator.
    have hkind : s.current.kind.binaryPrecedence = 0 := by
      rw [Input.current, List.eq_nil_of_length_eq_zero (Nat.le_zero.1 hbound)]
      show s.final.kind.binaryPrecedence = 0
      rw [hfinal]
      rfl
    refine .of_succ ?_
    simp only [operators]
    refine .look_bind (current_eq h) ?_
    simp only [hkind, Nat.zero_le, if_true]
    exact Leads.pure h left
  | cons x bound ih =>
    rw [List.length_cons] at hbound
    refine .of_succ ?_
    simp only [operators]
    refine .look_bind (current_eq h) ?_
    show Leads _ c _ ((if _ then _ else Parser.advance >>= _ : Parser Tree) s)
    by_cases hleast : s.current.kind.binaryPrecedence ≤ least
    · simp only [if_pos hleast]
      exact Leads.pure h left
    · simp only [if_neg hleast]
      refine Leads.mono (.advance_bind h fun c' hready hpasses => ?_) (Nat.zero_le c.beyond)
      by_cases hpost : s.current.kind.binaryPrecedence = TokenKind.postfixPrecedence
      · simp only [if_pos hpost]
        exact Leads.pure hready _
      · simp only [if_neg hpost]
        have hlt : least < s.current.kind.binaryPrecedence := Nat.lt_of_not_le hleast
        have hlength : s.advance.items.length < s.items.length :=
          Input.length_advance_lt hfinal (TokenKind.ne_endOfInput_of_lt_binaryPrecedence hlt)
        have hdepth' : c'.depth + n = maxNesting := hpasses.depth ▸ hdepth
        have hfinal' := hready.shows.kind_final
        rw [← Parser.bind_assoc]
        -- The right operand is an expression, and what follows it another round.
        refine .bind (p := Parser.operand _ _ >>= _) (.of_succ ?_)
          fun right c₂ s₂ hright hready₂ hpasses₂ => ?_
        · simp only [expression]
          refine .bind (hoperand hready hdepth') fun first c₁ s₁ hfirst hready₁ hpasses₁ => ?_
          have hfirst' := (Parser.gives_operand_iff hagrees hfinal').1 hfirst
          have hlength₁ := hfirst'.ahead.length_le
          exact ih hready₁ (hpasses₁.depth ▸ hdepth') (by omega) hready₁.shows.kind_final
        · obtain ⟨first, s₁, hfirst, hright⟩ := Parser.gives_bind.1 hright
          have hfirst' := (Parser.gives_operand_iff hagrees hfinal').1 hfirst
          have hlength₁ := hfirst'.ahead.length_le
          have hright' := (Parser.gives_operatorsWithin_iff hagrees (hfirst'.kind_final hfinal')
            (by omega)).1 hright
          have hlength₂ := hright'.ahead.length_le
          exact ih hready₂ (hpasses₂.depth ▸ hdepth') (by omega) hready₂.shows.kind_final

theorem leads_expression (h : c.Ready s) (hdepth : c.depth + n = maxNesting) :
    Leads (fun gas => expression gas least) c c.beyond
      (Parser.expression (Parser.levels n) least s) := by
  refine .of_succ ?_
  simp only [expression]
  refine .bind (leads_operand below h hdepth) fun first c' s' _ hready hpasses => ?_
  refine leads_operators hready (hpasses.depth ▸ hdepth) (Nat.le_refl _) fun h hdepth => ?_
  exact (leads_operand below h hdepth).mono (Nat.zero_le _)

/-! ### Statements -/

theorem leads_conversion {target : ValueType} (h : c.Ready s)
    (hdepth : c.depth + n = maxNesting) :
    Leads (fun gas => conversion gas target) c c.beyond
      (Parser.conversion (Parser.levels n) target s) := by
  refine .of_succ ?_
  simp only [conversion]
  refine .advance_bind h fun c' hready hpasses => ?_
  refine .bind (leads_expect hready _) fun _ c'' s'' _ hready' hpasses' => ?_
  exact leads_closed below hready' ((hpasses.trans hpasses').depth ▸ hdepth)

/-- A control statement. -/
theorem leads_controlled {mode : StatementMode} (h : c.Ready s)
    (hdepth : c.depth + n = maxNesting) (hvalue : LeadsValues n mode) :
    Leads (fun gas => controlled gas mode) c c.beyond
      (Parser.controlled mode (Parser.inner (Parser.levels n))
        (Parser.expression (Parser.levels n) 0) s) := by
  refine .of_succ ?_
  simp only [controlled]
  refine .look_bind (current_eq h) ?_
  show Leads _ c _ ((if _ then _ else if _ then _ else if _ then _ else _ : Parser Tree) s)
  split
  · next hbreak =>
    refine .advance_bind h fun c' hready _ => ?_
    exact Leads.pure hready _
  · split
    · refine .advance_bind h fun c' hready _ => ?_
      exact Leads.pure hready _
    · split
      · next hreturn =>
        refine .advance_bind h fun c' hready hpasses => ?_
        refine .bind (hvalue hreturn.1 hready (hpasses.depth ▸ hdepth))
          fun x c'' s'' _ hready' _ => ?_
        exact Leads.pure hready' _
      · exact leads_expression below h hdepth

theorem leads_simple {mode : StatementMode} (h : c.Ready s)
    (hdepth : c.depth + n = maxNesting) (hvalue : LeadsValues n mode) :
    Leads (fun gas => simple gas mode) c c.beyond
      (Parser.simple (Parser.levels n)
        (Parser.controlled mode (Parser.inner (Parser.levels n))) s) := by
  have hcontrolled := leads_controlled below h hdepth hvalue
  refine .of_succ ?_
  simp only [simple]
  refine .look_bind (current_eq h) ?_
  cases htarget : Parser.typeOf? s.current with
  | none =>
    obtain ⟨hresult, hrest⟩ := Parser.simple_of_not_conversion (.inl htarget)
    exact hcontrolled.congr hresult hrest
  | some target =>
    obtain ⟨t, ht, hparen⟩ := peekAt_one_eq h (k := .leftParen) (by decide) (by decide)
    refine .look_bind ht ?_
    by_cases hopen : s.followedBy .leftParen
    · obtain ⟨hresult, hrest⟩ := Parser.simple_of_conversion htarget hopen
      simp only [if_pos (hparen.2 hopen)]
      exact (leads_conversion below h hdepth).congr hresult hrest
    · obtain ⟨hresult, hrest⟩ :=
        Parser.simple_of_not_conversion (.inr (Bool.eq_false_iff.2 hopen))
      simp only [if_neg (mt hparen.1 hopen)]
      exact hcontrolled.congr hresult hrest

omit below in
/-- One round of a loop over statements. -/
theorem leads_round {mode : StatementMode} {least : Nat} {read : Parser Tree}
    {rest : Nat → Walk (List Tree)} {loop : Parser (List Tree)}
    (hfirst : Leads (fun gas => statement? gas mode) c least
      ((do let x ← read; return some x : Parser _) s))
    (hrest : ∀ x c' s', read.Gives s x s' → c'.Ready s' → c.Passes c' →
      Leads rest c' 0 (loop s')) :
    Leads (fun gas => do
        match ← statement? gas mode with
        | none => return []
        | some x =>
          let xs ← rest gas
          return x :: xs) c least
      ((do let x ← read; (x :: ·) <$> loop : Parser _) s) := by
  let next : Option Tree → Parser (List Tree)
    | none => return []
    | some x => (x :: ·) <$> loop
  have hassoc : (do let x ← read; (x :: ·) <$> loop : Parser _) s =
      ((read >>= fun x => pure (some x)) >>= next) s := by
    rw [Parser.bind_assoc]
    rfl
  rw [hassoc]
  refine .bind hfirst fun o c' s' ho hready hpasses => ?_
  obtain ⟨x, s', hx, ho⟩ := Parser.gives_bind.1 ho
  obtain ⟨rfl, rfl⟩ := Parser.gives_pure.1 ho
  exact (hrest x c' _ hx hready hpasses).map

omit below in
/-- The loop over the statements of a block. -/
theorem leads_blockStatements {m : Nat} {mode : StatementMode} {bound : List Item}
    (hfollows : Follows m) (h : c.Ready s) (hdepth : c.depth + m = maxNesting)
    (hbound : s.items.length ≤ bound.length) :
    Leads (fun gas => blockStatements gas mode) c 0
      (Parser.statementsWithin (fun k => k = .rightBrace ∨ k = .endOfInput)
        (Parser.statement (Parser.levels m) mode) bound s) := by
  induction bound generalizing c s with
  | nil =>
    -- Without items the next token is the end token.
    have hkind : s.current.kind = .endOfInput := by
      rw [Input.current, List.eq_nil_of_length_eq_zero (Nat.le_zero.1 hbound)]
      exact h.shows.kind_final
    refine .of_succ ?_
    simp only [blockStatements]
    refine .look_bind (current_eq h) ?_
    simp only [hkind, or_true, if_true]
    exact Leads.pure h _
  | cons x bound ih =>
    rw [List.length_cons] at hbound
    refine .of_succ ?_
    simp only [blockStatements]
    refine .look_bind (current_eq h) ?_
    show Leads _ c _ ((if decide (_ ∨ _) = true then _ else _ : Parser (List Tree)) s)
    by_cases hends : s.current.kind = .rightBrace ∨ s.current.kind = .endOfInput
    · simp only [hends, if_true, decide_true]
      exact Leads.pure h _
    · simp only [hends, if_false, decide_false]
      obtain ⟨-, hend⟩ := not_or.1 hends
      refine leads_round (hfollows.statement? h hdepth hend) fun x c' s' hx hready hpasses => ?_
      have hlength := ((Parser.agrees m).statement h.shows.kind_final).1 hx |>.length_lt
        h.shows.kind_final rfl
      exact ih hready (hpasses.depth ▸ hdepth) (by omega)

omit below in
theorem leads_block {m : Nat} {mode : StatementMode} (hfollows : Follows m) (h : c.Ready s)
    (hdepth : c.depth + m = maxNesting) :
    Leads (fun gas => block gas mode) c c.beyond
      (Parser.block (.above (Parser.levels m)) mode s) := by
  refine .of_succ ?_
  simp only [block]
  refine .advance_bind h fun c' hready hpasses => ?_
  refine .bind (p := Parser.statements _ _) ?_ fun ss c'' s'' _ hready' _ => ?_
  · exact leads_blockStatements hfollows hready (hpasses.depth ▸ hdepth) (Nat.le_refl _)
  · refine .bind (leads_expect hready' _) fun _ c₃ s₃ _ hready₃ _ => ?_
    exact Leads.pure hready₃ _

/-- How far a statement gets at the least. -/
theorem leads_statement?_of_value {mode : StatementMode} {least : Nat} (h : Settles c c' s)
    (hdepth : c.depth + n = maxNesting) (hkind : s.current.kind ≠ .endOfInput)
    (hleast : least ≤ c'.beyond) (hopen : n = 0 → least ≤ c'.position)
    (hvalue : LeadsValues n mode) :
    Leads (fun gas => statement? gas mode) c least
      ((do let x ← Parser.statement (Parser.levels n) mode; return some x : Parser _) s) := by
  have hready := h.ready
  have hdepth' : c'.depth + n = maxNesting := h.passes.depth ▸ hdepth
  refine .of_succ ?_
  simp only [statement?]
  refine .skipBreaks_bind h (.look_bind (current_eq hready) ?_)
  simp only [if_neg hkind]
  show Leads _ c' _ (((if _ then _ else if _ then _ else _ : Parser Tree) >>= fun x =>
    (pure (some x) : Parser (Option Tree))) s)
  simp only [if_neg hkind]
  split
  · refine .bind (leads_nested hready hdepth' hopen fun m c'' hm hready' hdepth'' hbeyond => ?_)
      fun x c₂ s₂ _ hready₂ _ => ?_
    · exact (leads_block (below m hm) hready' hdepth'').mono (hbeyond ▸ hleast)
    · exact Leads.pure hready₂ _
  · rw [Parser.bind_assoc]
    refine .bind ((leads_simple below hready hdepth' hvalue).mono hleast)
      fun x c₂ s₂ _ hready₂ _ => ?_
    split
    · rw [Parser.bind_assoc]
      refine .bind (leads_separator hready₂) fun _ c₃ s₃ _ hready₃ _ => ?_
      exact Leads.pure hready₃ _
    · exact Leads.pure hready₂ _

omit below in
/-- At the end of the input there is no statement. -/
theorem ends_statement?_none {mode : StatementMode} (h : Settles c c' s)
    (hkind : s.current.kind = .endOfInput) :
    Ends (fun gas => statement? gas mode c) (.ok none, c') := by
  refine .of_succ ?_
  simp only [statement?]
  refine ends_bind_ok h.ends (ends_bind_ok (.of_forall fun _ => current_eq h.ready) ?_)
  simp only [if_pos hkind]
  exact .of_forall fun _ => rfl

omit below in
/-- A statement where there must be one. -/
theorem leads_statement {mode : StatementMode} (h : c.Ready s)
    (hstatement : s.current.kind ≠ .endOfInput → Leads (fun gas => statement? gas mode) c 0
      ((do let x ← Parser.statement (Parser.levels n) mode; return some x : Parser _) s)) :
    Leads (fun gas => statement gas mode) c 0 (Parser.statement (Parser.levels n) mode s) := by
  refine .of_succ ?_
  simp only [statement]
  by_cases hkind : s.current.kind = .endOfInput
  · have hfail : Parser.statement (Parser.levels n) mode s =
        Parser.fail .incorrectStatement s.current.span s := by
      rw [Parser.statement, Parser.statementWith]
      show (if _ then _ else _ : Parser Tree) s = _
      rw [if_pos hkind]
    rw [hfail]
    refine ⟨c, ends_bind_ok (ends_statement?_none (settles_self h) hkind) ?_, h, .refl c,
      Nat.zero_le _⟩
    exact ends_bind_ok (.of_forall fun _ => current_eq h) (.of_forall fun _ => rfl)
  · obtain ⟨c', hends, hready, hrest⟩ := hstatement hkind
    rcases hrun : Parser.statement (Parser.levels n) mode s with ⟨e | x, rest, log⟩
    · rw [Parser.bind_error hrun] at hends hready
      exact ⟨c', ends_bind_error hends, hready, hrest⟩
    · rw [Parser.bind_ok hrun] at hends hready
      exact ⟨c', ends_bind_ok hends (.of_forall fun _ => rfl), hready, hrest⟩

/-- A statement of any mode. -/
theorem leads_statement_of_value {mode : StatementMode} (h : c.Ready s)
    (hdepth : c.depth + n = maxNesting) (hvalue : LeadsValues n mode) :
    Leads (fun gas => statement gas mode) c 0 (Parser.statement (Parser.levels n) mode s) :=
  leads_statement h fun hkind => leads_statement?_of_value below (settles_self h) hdepth hkind
    (Nat.zero_le _) (fun _ => Nat.zero_le _) hvalue

/-- What may stand behind `return`. -/
theorem leads_inner (h : c.Ready s) (hdepth : c.depth + n = maxNesting) :
    Leads (fun gas => statement gas .expression) c 0 (Parser.inner (Parser.levels n) s) := by
  rw [Parser.inner_eq]
  exact leads_statement_of_value below h hdepth fun hmode => nomatch hmode

theorem follows_of_below : Follows n where
  statement h hdepth := leads_statement_of_value below h hdepth fun _ => leads_inner below
  statement? h hdepth hkind := leads_statement?_of_value below (settles_self h) hdepth hkind
    (Nat.zero_le _) (fun _ => Nat.zero_le _) fun _ => leads_inner below
  expression h hdepth := (leads_expression below h hdepth).mono (Nat.zero_le _)

end

/-- At every level walks lead to what the parsers give. -/
theorem follows (n : Nat) : Follows n := by
  induction n with
  | zero => exact follows_of_below fun m hm => by omega
  | succ n ih =>
    refine follows_of_below fun m hm => ?_
    obtain rfl : n = m := by omega
    exact ih

/-! ### Programs -/

/-- At the end of the input there are no statements. -/
theorem leads_statements_nil {mode : StatementMode} (h : Settles c c' s)
    (hkind : s.current.kind = .endOfInput) :
    Leads (fun gas => statements gas mode) c c'.position ((pure [] : Parser (List Tree)) s) := by
  refine .of_succ ⟨c', ?_, h.ready, h.passes, Nat.le_refl _⟩
  simp only [statements]
  exact ends_bind_ok (ends_statement?_none h hkind) (.of_forall fun _ => rfl)

/-- The loop over the statements of a program.  The first of them takes the first
token that is no line break. -/
theorem leads_statements {mode : StatementMode} {bound : List Item} (h : Settles c c' s)
    (hdepth : c.depth + n = maxNesting) (hn : n ≠ 0) (hbound : s.items.length ≤ bound.length) :
    Leads (fun gas => statements gas mode) c
      (if s.current.kind = .endOfInput then c'.position else c'.beyond)
      (Parser.statementsWithin (· = .endOfInput) (Parser.statement (Parser.levels n) mode)
        bound s) := by
  have hbelow : ∀ m, n = m + 1 → Follows m := fun m _ => follows m
  have hfinal := h.ready.shows.kind_final
  induction bound generalizing c c' s with
  | nil =>
    have hkind : s.current.kind = .endOfInput := by
      rw [Input.current, List.eq_nil_of_length_eq_zero (Nat.le_zero.1 hbound)]
      exact hfinal
    rw [if_pos hkind]
    exact leads_statements_nil h hkind
  | cons x bound ih =>
    rw [List.length_cons] at hbound
    show Leads _ c _ ((if decide (_ = _) = true then _ else _ : Parser (List Tree)) s)
    by_cases hkind : s.current.kind = .endOfInput
    · rw [if_pos hkind, if_pos (decide_eq_true hkind)]
      exact leads_statements_nil h hkind
    · rw [if_neg hkind, if_neg (by rw [decide_eq_true_eq]; exact hkind)]
      refine .of_succ ?_
      simp only [statements]
      refine leads_round (leads_statement?_of_value hbelow h hdepth hkind (Nat.le_refl _)
        (fun h => absurd h hn) fun _ => leads_inner hbelow) fun x c'' s'' hx hready hpasses => ?_
      have hlength := (((Parser.agrees n).statement hfinal).1 hx).length_lt hfinal rfl
      exact (ih (settles_self hready) (hpasses.depth ▸ hdepth) (by omega)
        hready.shows.kind_final).mono (Nat.zero_le _)

/-- **Walks over programs come to an end.**  They lead to what the parser gives, and
pass the first token that is no line break, unless it is the end token. -/
theorem leads_program {o : ParseOptions} (h : Settles c c' s) (hdepth : c.depth = 0) :
    Leads (fun gas => program gas o) c
      (if s.current.kind = .endOfInput then c'.position else c'.beyond) (Parser.program o s) := by
  have hreset : (modify fun c => { c with depth := 0 } : Walk PUnit) c = some (.ok ⟨⟩, c) := by
    show some (Except.ok PUnit.unit, { c with depth := 0 }) = _
    rw [← hdepth]
  simp only [program]
  refine .look_bind hreset ?_
  rw [Parser.program, Parser.grammar_eq_above]
  refine .bind (p := Parser.statements _ _) ?_ fun ss c'' s'' _ hready _ => ?_
  · exact leads_statements h (by rw [hdepth, Nat.zero_add]) (by decide) (Nat.le_refl _)
  · exact Leads.pure hready _

end Walk

end ScriptSyntax
