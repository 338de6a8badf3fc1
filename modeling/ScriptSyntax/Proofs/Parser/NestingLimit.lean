/-
The limit of nesting.

Trees that are read never nest deeper than there are levels, and what would nest
deeper is refused at the token that opens the first level too many:

* `Reads.nestsWithin` — a phrase that is read with `n` levels left has no more;
* `Opener` is what opens a level, and `Parser.failsOn_openers` says that `n`
  levels do not hold more than `n` openers, whatever stands behind these;
* `nesting_limit` — both for whole programs.

Design notes: an opener has a level of its own, so that openers and levels are
counted down together.  Behind an operator before its operand stands no statement,
and hence what may follow an opener depends on it (`Opener.MayPrecede`).
-/
import ScriptSyntax.Proofs.Parser.Building
import ScriptSyntax.Proofs.Tree.Depth

namespace ScriptSyntax

/-! ### What is read -/

/-- The trees of a phrase nest no deeper than `n` levels, if those do that it goes on
with. -/
def Phrase.NestsWithin (n : Nat) : Phrase → Prop
  | operand _ t | expression _ t | simple _ t | statement _ t => t.nesting ≤ n
  | operators _ left t => left.nesting ≤ n → t.nesting ≤ n
  | statements _ _ ts => Tree.nestingAll ts ≤ n

/-- What is read with `n` levels left nests no deeper. -/
theorem Reads.nestsWithin {n : Nat} {ph : Phrase} {s r : Input} (h : Reads n ph s r) :
    ph.NestsWithin n := by
  induction h with
  | literal | breakLoop | continueLoop | last => exact Nat.zero_le _
  | group _ _ _ ih | unary _ _ _ ih | convert _ _ _ _ ih | block _ _ ih => exact Nat.succ_le_succ ih
  | done | trailing => exact id
  | binary _ _ _ _ ihright ihrest => exact fun hleft => ihrest (Nat.max_le.2 ⟨hleft, ihright⟩)
  | expression _ _ ihfirst ihrest => exact ihrest ihfirst
  | returnValue _ _ _ _ ih | value _ ih | unseparated _ _ ih | separated _ _ _ ih => exact ih
  | more _ _ ihfirst ihrest => exact Nat.max_le.2 ⟨ihfirst, ihrest⟩

/-! ### Openers -/

/-- What opens a level of nesting. -/
inductive Opener where
  | group (opening : Token) (hopening : opening.kind = .leftParen)
  | block (opening : Token) (hopening : opening.kind = .leftBrace)
  | convert (keyword opening : Token) (hkeyword : (Parser.typeOf? keyword).isSome)
      (hopening : opening.kind = .leftParen)
  /-- An operator before its operand. -/
  | operator (t : Token) (hoperator : t.kind.IsUnary)

namespace Opener

/-- The first token of an opener. -/
def head : Opener → Token
  | group opening _ | block opening _ => opening
  | convert keyword _ _ _ => keyword
  | operator t _ => t

/-- The tokens of an opener. -/
def tokens : Opener → List Token
  | convert keyword opening _ _ => [keyword, opening]
  | x => [x.head]

/-- The operand of an operator of precedence `least` may begin with the opener. -/
def StandsBehind (least : Nat) : Opener → Prop
  | group .. => True
  | operator t _ => least ≤ t.kind.unaryPrecedence
  | block .. | convert .. => False

/-- The second opener may follow the first. -/
def MayPrecede : Opener → Opener → Prop
  | operator t _, x => x.StandsBehind t.kind.unaryPrecedence
  | _, _ => True

instance (least : Nat) : DecidablePred (StandsBehind least)
  | group .. => isTrue trivial
  | operator t _ => inferInstanceAs (Decidable (least ≤ t.kind.unaryPrecedence))
  | block .. | convert .. => isFalse id

instance : DecidableRel MayPrecede
  | operator t _, x => inferInstanceAs (Decidable (x.StandsBehind t.kind.unaryPrecedence))
  | group .., _ | block .., _ | convert .., _ => isTrue trivial

/-- An opener begins with a token that is neither a line break nor the end of some
statements. -/
theorem kind_head_ne (x : Opener) :
    x.head.kind ≠ .newLine ∧ x.head.kind ≠ .endOfInput ∧ x.head.kind ≠ .rightBrace := by
  cases x with
  | group t h | block t h =>
    show t.kind ≠ _ ∧ t.kind ≠ _ ∧ t.kind ≠ _
    rw [h]
    decide
  | convert t u h =>
    obtain ⟨target, htarget⟩ := Option.isSome_iff_exists.1 h
    show t.kind ≠ _ ∧ t.kind ≠ _ ∧ t.kind ≠ _
    rw [Reads.kind_of_typeOf? htarget]
    decide
  | operator t h =>
    refine ⟨?_, h.ne_endOfInput, ?_⟩ <;>
    · intro hkind
      have : t.kind.IsUnary := h
      rw [show t.kind = _ from hkind] at this
      exact absurd this (by decide)

theorem exists_tokens_eq (x : Opener) :
    ∃ us, x.tokens = x.head :: us ∧ ∀ t ∈ us, t.kind = .leftParen := by
  cases x with
  | convert t u _ h => exact ⟨[u], rfl, List.forall_mem_singleton.2 h⟩
  | _ => exact ⟨[], rfl, nofun⟩

theorem kind_ne_endOfInput {x : Opener} {t : Token} (h : t ∈ x.tokens) :
    t.kind ≠ .endOfInput := by
  obtain ⟨us, htokens, hus⟩ := x.exists_tokens_eq
  rw [htokens] at h
  rcases List.mem_cons.1 h with rfl | h
  · exact x.kind_head_ne.2.1
  · rw [hus t h]
    decide

end Opener

/-! ### Failures -/

namespace Parser

variable {n least : Nat} {mode : StatementMode} {s : Input} {f : Failure}

/-- A parser fails where something fails that it reads one level further down. -/
theorem fails_nested_bind {α β : Type} {p : Span} {read : Grammar → Parser α}
    {g : α → Parser β} (h : (nested (levels n) p read).Fails s f) :
    (nested (levels n) p read >>= g).Fails s f :=
  fails_bind.2 (.inl h)

theorem fails_expression_of_operand (h : (operand (levels n) least).Fails s f) :
    (expression (levels n) least).Fails s f :=
  fails_bind.2 (.inl h)

theorem fails_expression_of_group (hopen : s.current.kind = .leftParen)
    (h : (nested (levels n) s.current.span fun g => g.statement .expression).Fails s.advance f) :
    (expression (levels n) least).Fails s f := by
  refine fails_expression_of_operand ?_
  have hunary : s.current.kind.unaryPrecedence = 0 := by rw [hopen]; rfl
  rw [operand, fails_peek_bind]
  dsimp only
  rw [if_pos (.inl hunary), primary, fails_advance_bind, hopen]
  exact fails_nested_bind h

theorem fails_expression_of_operator (hoperator : s.current.kind.IsUnary)
    (hleast : least ≤ s.current.kind.unaryPrecedence)
    (h : (nested (levels n) s.current.span
      fun g => g.expression s.current.kind.unaryPrecedence).Fails s.advance f) :
    (expression (levels n) least).Fails s f := by
  refine fails_expression_of_operand ?_
  have hprimary : ¬ (s.current.kind.unaryPrecedence = 0 ∨
      s.current.kind.unaryPrecedence < least) := by
    have := hoperator.1
    omega
  rw [operand, fails_peek_bind]
  dsimp only
  rw [if_neg hprimary, if_neg hoperator.2, fails_advance_bind]
  exact fails_nested_bind h

theorem fails_statement_of_simple (hend : s.current.kind ≠ .endOfInput)
    (hopen : s.current.kind ≠ .leftBrace)
    (h : (simple (levels n) (controlled mode (inner (levels n)))).Fails s f) :
    (statement (levels n) mode).Fails s f := by
  rw [statement, statementWith, fails_peek_bind, if_neg hend, if_neg hopen]
  exact fails_bind.2 (.inl h)

/-- A statement that begins with an operand fails where the expression does. -/
theorem fails_statement_of_expression (hbegins : s.current.kind.BeginsOperand)
    (h : (expression (levels n) 0).Fails s f) : (statement (levels n) mode).Fails s f := by
  obtain ⟨hend, hopen, hword, hcontroller, -⟩ := hbegins.ne
  refine fails_statement_of_simple hend hopen ?_
  have htype : typeOf? s.current = none := if_neg hword
  rw [simple, fails_input_bind, htype]
  dsimp only
  rw [controlled, fails_peek_bind, if_neg fun hc => hcontroller hc.2.1,
    if_neg fun hc => hcontroller hc.2.1, if_neg fun hc => hword hc.2.1]
  exact h

theorem fails_statement_of_convert {target : ValueType}
    (htarget : typeOf? s.current = some target) (hopen : s.followedBy .leftParen)
    (h : (nested (levels n) s.current.span fun g => g.statement .expression).Fails
      s.advance.advance f) : (statement (levels n) mode).Fails s f := by
  have hword := Reads.kind_of_typeOf? htarget
  refine fails_statement_of_simple (by rw [hword]; decide) (by rw [hword]; decide) ?_
  rw [simple, fails_input_bind, htarget]
  dsimp only
  rw [if_pos hopen, conversion, fails_advance_bind]
  exact fails_bind.2 (.inr ⟨_, _, gives_expect.2 ⟨Input.kind_of_followedBy hopen, rfl, rfl⟩,
    fails_nested_bind h⟩)

theorem fails_statement_of_block (hopen : s.current.kind = .leftBrace)
    (h : (nested (levels n) s.current.span fun g => block g mode).Fails s f) :
    (statement (levels n) mode).Fails s f := by
  rw [statement, statementWith, fails_peek_bind, if_neg (by rw [hopen]; decide), if_pos hopen]
  exact h

end Parser

/-! ### More openers than levels -/

namespace Opener

/-- Some openers, and an input behind them. -/
def input (xs : List Opener) (e : Input) : Input :=
  e.joined false (xs.flatMap tokens)

theorem input_cons (x : Opener) (xs : List Opener) (e : Input) :
    input (x :: xs) e =
      ⟨⟨x.head, false⟩ :: (e.joined false (x.tokens.tail ++ xs.flatMap tokens)).items,
        e.final⟩ := by
  obtain ⟨us, htokens, -⟩ := x.exists_tokens_eq
  rw [input, List.flatMap_cons, htokens, List.cons_append, Input.joined_cons x.kind_head_ne.1,
    List.tail_cons]

theorem current_input (x : Opener) (xs : List Opener) (e : Input) :
    (input (x :: xs) e).current = x.head := by
  rw [input_cons]
  rfl

/-- Behind an opener of one token stand the other openers. -/
theorem advance_input {x : Opener} (h : x.tokens = [x.head]) (xs : List Opener) (e : Input) :
    (input (x :: xs) e).advance = input xs e := by
  rw [input_cons, h]
  rfl

theorem input_convert {t u : Token} (ht : (Parser.typeOf? t).isSome) (hu : u.kind = .leftParen)
    (xs : List Opener) (e : Input) :
    (input (.convert t u ht hu :: xs) e).followedBy .leftParen ∧
      (input (.convert t u ht hu :: xs) e).advance.advance = input xs e := by
  have hparen : u.kind ≠ .newLine := by rw [hu]; decide
  have hinput : input (.convert t u ht hu :: xs) e =
      ⟨⟨t, false⟩ :: ⟨u, false⟩ :: (input xs e).items, e.final⟩ := by
    rw [input_cons]
    show (⟨_ :: (e.joined false (u :: xs.flatMap tokens)).items, _⟩ : Input) = _
    rw [Input.joined_cons hparen]
    rfl
  rw [hinput]
  exact ⟨by simp [Input.followedBy, Input.advance, Input.afterBreak, Input.current, hu], rfl⟩

end Opener

namespace Parser

variable {n : Nat}

/-- With `n` levels left openers fail with `f`, read as a statement or, if an operand may
begin with them, as an expression. -/
structure FailsOn (n : Nat) (xs : List Opener) (e : Input) (f : Failure) : Prop where
  statement : ∀ mode, (statement (levels n) mode).Fails (Opener.input xs e) f
  expression : ∀ least, (∀ x ∈ xs.head?, x.StandsBehind least) →
    (expression (levels n) least).Fails (Opener.input xs e) f

/-- Openers fail with `f` behind an opener at `p`, one level further down. -/
structure FailsBelow (n : Nat) (p : Span) (xs : List Opener) (e : Input) (f : Failure) :
    Prop where
  statement : (nested (levels n) p fun g => g.statement .expression).Fails (Opener.input xs e) f
  expression : ∀ least, (∀ x ∈ xs.head?, x.StandsBehind least) →
    (nested (levels n) p fun g => g.expression least).Fails (Opener.input xs e) f
  block : ∀ mode s, s.advance = Opener.input xs e →
    (nested (levels n) p fun g => block g mode).Fails s f

/-- Without a level left everything behind an opener fails at the opener. -/
theorem failsBelow_zero (p : Span) (xs : List Opener) (e : Input) :
    FailsBelow 0 p xs e ⟨.tooDeeplyNested, p⟩ := by
  have hzero : ∀ {read : Grammar → Parser Tree} {s : Input},
      (nested (levels 0) p read).Fails s ⟨.tooDeeplyNested, p⟩ :=
    fails_nested.2 (.inl ⟨rfl, rfl⟩)
  exact ⟨hzero, fun _ _ => hzero, fun _ _ _ => hzero⟩

theorem FailsOn.below {xs : List Opener} {e : Input} {f : Failure} (h : FailsOn n xs e f)
    (hxs : xs ≠ []) (p : Span) : FailsBelow (n + 1) p xs e f := by
  have hbelow : ∀ {read : Grammar → Parser Tree} {s : Input},
      (read (.above (levels n))).Fails s f → (nested (levels (n + 1)) p read).Fails s f :=
    fun hread => fails_nested.2 (.inr ⟨n, rfl, hread⟩)
  refine ⟨hbelow (h.statement _), fun least hleast => hbelow (h.expression least hleast),
    fun mode s hs => hbelow ?_⟩
  -- The first statement of the block fails, and so the block does.
  obtain ⟨x, xs, rfl⟩ := List.exists_cons_of_ne_nil hxs
  obtain ⟨-, hend, hbrace⟩ := x.kind_head_ne
  rw [Parser.block, fails_advance_bind, hs]
  refine fails_bind.2 (.inl (fails_statements_of_first ?_ ?_ (h.statement _)))
  · rw [Opener.input_cons]
    exact List.cons_ne_nil _ _
  · rw [Opener.current_input]
    exact decide_eq_false (not_or.2 ⟨hbrace, hend⟩)

/-- What fails behind an opener fails with the opener in front of it. -/
theorem FailsBelow.cons {x : Opener} {xs : List Opener} {e : Input} {f : Failure}
    (h : FailsBelow n x.head.span xs e f) (hprecedes : ∀ y ∈ xs.head?, x.MayPrecede y) :
    FailsOn n (x :: xs) e f := by
  have hcurrent := Opener.current_input x xs e
  cases x with
  | group t ht =>
    have hopen : (Opener.input (.group t ht :: xs) e).current.kind = .leftParen := by
      rw [hcurrent]
      exact ht
    have hexpression : ∀ least, (Parser.expression (levels n) least).Fails _ f := fun least => by
      refine fails_expression_of_group hopen ?_
      rw [hcurrent, Opener.advance_input rfl]
      exact h.statement
    exact ⟨fun mode => fails_statement_of_expression (.inr (.inl hopen)) (hexpression 0),
      fun least _ => hexpression least⟩
  | operator t ht =>
    have hoperator : (Opener.input (.operator t ht :: xs) e).current.kind.IsUnary := by
      rw [hcurrent]
      exact ht
    have hexpression : ∀ least, least ≤ t.kind.unaryPrecedence →
        (Parser.expression (levels n) least).Fails _ f := fun least hleast => by
      refine fails_expression_of_operator hoperator (by rw [hcurrent]; exact hleast) ?_
      rw [hcurrent, Opener.advance_input rfl]
      exact h.expression _ hprecedes
    exact ⟨fun mode => fails_statement_of_expression (.inr (.inr hoperator))
      (hexpression 0 (Nat.zero_le _)), fun least hleast => hexpression least (hleast _ rfl)⟩
  | block t ht =>
    refine ⟨fun mode => ?_, fun least hleast => (hleast _ rfl).elim⟩
    refine fails_statement_of_block (by rw [hcurrent]; exact ht) ?_
    rw [hcurrent]
    exact h.block mode _ (Opener.advance_input rfl xs e)
  | convert t u ht hu =>
    refine ⟨fun mode => ?_, fun least hleast => (hleast _ rfl).elim⟩
    obtain ⟨target, htarget⟩ := Option.isSome_iff_exists.1 ht
    obtain ⟨hopen, hadvance⟩ := Opener.input_convert ht hu xs e
    refine fails_statement_of_convert (by rw [hcurrent]; exact htarget) hopen ?_
    rw [hcurrent, hadvance]
    exact h.statement

/-- **Levels hold no more openers than there are.**  The first opener that has no level
left is where the reading fails, whatever stands behind the openers. -/
theorem failsOn_openers {xs : List Opener} {x : Opener} (hchain : xs.IsChain Opener.MayPrecede)
    (hx : xs[n]? = some x) (e : Input) : FailsOn n xs e ⟨.tooDeeplyNested, x.head.span⟩ := by
  induction n generalizing xs with
  | zero =>
    cases xs with
    | nil => exact nomatch hx
    | cons y ys =>
      obtain rfl : y = x := Option.some.inj hx
      exact (failsBelow_zero _ ys e).cons (List.isChain_cons.1 hchain).1
  | succ n ih =>
    cases xs with
    | nil => exact nomatch hx
    | cons y ys =>
      obtain ⟨hprecedes, hchain⟩ := List.isChain_cons.1 hchain
      have hys : ys ≠ [] := by
        rintro rfl
        exact nomatch hx
      exact ((ih hchain hx).below hys y.head.span).cons hprecedes

theorem fails_program_of_openers {o : ParseOptions} {xs : List Opener} {x : Opener}
    (hchain : xs.IsChain Opener.MayPrecede) (hx : xs[maxNesting]? = some x) (e : Input) :
    (program o).Fails (Opener.input xs e) ⟨.tooDeeplyNested, x.head.span⟩ := by
  obtain ⟨y, ys, rfl⟩ := List.exists_cons_of_ne_nil (List.ne_nil_of_mem (List.mem_of_getElem? hx))
  have hfails := (failsOn_openers hchain hx e).statement o.statementMode
  rw [program, grammar_eq_above]
  refine fails_bind.2 (.inl (fails_statements_of_first ?_ ?_ hfails))
  · rw [Opener.input_cons]
    exact List.cons_ne_nil _ _
  · rw [Opener.current_input]
    exact decide_eq_false y.kind_head_ne.2.1

end Parser

/-! ### Programs -/

/-- **The limit of nesting.**  No way down a tree that is read passes more blocks, groups,
conversions and operators before operands than there are levels.  Where more openers than
levels begin the tokens, the error is at the first of them that is too many, whatever
tokens follow. -/
theorem nesting_limit (o : ParseOptions) :
    (∀ (ts : List Token) (p : List Tree), Tree.LeadsDown (parseTokens o ts :: p) →
      p.countP Tree.opensLevel ≤ maxNesting) ∧
    ∀ (xs : List Opener) (x : Opener) (ts : List Token), xs.IsChain Opener.MayPrecede →
      xs[maxNesting]? = some x →
        parseTokens o (xs.flatMap Opener.tokens ++ ts) =
          .bad (ParseError.tooDeeplyNested.diagnostic x.head.span) := by
  constructor
  · intro ts p hp
    cases p with
    | nil => exact Nat.zero_le _
    | cons t p =>
      obtain ⟨hchild, hrest⟩ := Tree.leadsDown_cons_cons.1 hp
      obtain ⟨ss, r, -, hmem, hreads⟩ := exists_reads_of_mem_children hchild
      calc (t :: p).countP Tree.opensLevel
          ≤ t.nesting := Tree.countP_opensLevel_le hrest
        _ ≤ Tree.nestingAll ss := Tree.nesting_le_nestingAll hmem
        _ ≤ maxNesting := hreads.nestsWithin
  · intro xs x ts hchain hx
    have hkinds : ∀ t ∈ xs.flatMap Opener.tokens, t.kind ≠ .endOfInput := fun t ht => by
      obtain ⟨y, -, hy⟩ := List.mem_flatMap.1 ht
      exact Opener.kind_ne_endOfInput hy
    obtain ⟨e, he⟩ := Input.exists_joined_of_tokens hkinds ts
    rw [parseTokens, he]
    exact Parser.parse_of_fails (Parser.fails_program_of_openers hchain hx e)

/-- The openers `{ int( - $ (` on each of 26 lines. -/
def mixedOpeners : List Opener :=
  (List.range 26).flatMap fun i =>
    [.block ⟨.leftBrace, "\x7b", ⟨i + 1, 1⟩⟩ rfl,
      .convert ⟨.word, "int", ⟨i + 1, 2⟩⟩ ⟨.leftParen, "(", ⟨i + 1, 5⟩⟩ rfl rfl,
      .operator ⟨.minus, "-", ⟨i + 1, 6⟩⟩ (by decide : TokenKind.minus.IsUnary),
      .operator ⟨.dollar, "$", ⟨i + 1, 7⟩⟩ (by decide : TokenKind.dollar.IsUnary),
      .group ⟨.leftParen, "(", ⟨i + 1, 8⟩⟩ rfl]

/-- The tokens of `(-1)`. -/
def negated : List Token :=
  [⟨.leftParen, "(", ⟨1, 1⟩⟩, ⟨.minus, "-", ⟨1, 2⟩⟩, ⟨.integer, "1", ⟨1, 3⟩⟩,
    ⟨.rightParen, ")", ⟨1, 4⟩⟩]

/-- The way down from the group in `(-1)`. -/
def wayToOne : List Tree :=
  [.group ⟨1, 1⟩ (.unary ⟨1, 2⟩ .minus (.literal ⟨1, 3⟩ (.integer "1"))),
    .unary ⟨1, 2⟩ .minus (.literal ⟨1, 3⟩ (.integer "1")), .literal ⟨1, 3⟩ (.integer "1")]

/-- There are two levels in `(-1)`, and one too many for the operator `$` on the last
line of the openers. -/
theorem nesting_limit_mixedOpeners :
    Tree.LeadsDown (parseTokens {} negated :: wayToOne) ∧
      wayToOne.countP Tree.opensLevel ≤ maxNesting ∧
      mixedOpeners.IsChain Opener.MayPrecede ∧
      mixedOpeners[maxNesting]? = some (.operator ⟨.dollar, "$", ⟨26, 7⟩⟩ (by decide)) ∧
      parseTokens {} (mixedOpeners.flatMap Opener.tokens ++ negated) =
        .bad (ParseError.tooDeeplyNested.diagnostic ⟨26, 7⟩) := by
  have hway : Tree.LeadsDown (parseTokens {} negated :: wayToOne) := by decide
  have hchain : mixedOpeners.IsChain Opener.MayPrecede := by decide +kernel
  exact ⟨hway, (nesting_limit {}).1 negated wayToOne hway, hchain, rfl,
    (nesting_limit {}).2 mixedOpeners _ negated hchain rfl⟩

end ScriptSyntax
