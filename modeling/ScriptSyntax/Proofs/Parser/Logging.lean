/-
What is logged while a program is read.

Parsers log statements as they come to their ends, and so the log of a program that has
been read can be told from its tree.

* `Tree.innerStatements` walks a tree from left to right, and gives every statement
  behind those that stand in it;
* `Parser.Logs` says what a parser logs along with the value that it gives, with one
  statement for every way of putting parsers together;
* `Parser.logsTrees` — at every level the log is such a walk over the tree;
* `Lexer.drainLogged_eq` — the lexer logs each token once, as it reads it;
* `record_logOf` — the whole log of reading a text and keeping its program.

Design notes: where a word names a type that nothing is converted to, the log has an entry
that no tree accounts for.  No statement begins so (`not_gives_controlled_of_typeOf?`), and
the parser fails.  Of what parsers that fail have logged nothing is said but that it is no
error.
-/
import ScriptSyntax.Proofs.Parser.Failure
import ScriptSyntax.Proofs.Tree.WellFormed
import ScriptSyntax.Session

namespace ScriptSyntax

/-! ### The walk over a tree -/

namespace Tree

/-- The tree, if it is no block. -/
def unlessBlock (t : Tree) : List Tree :=
  if t.isBlock then [] else [t]

mutual

/-- The statements in a tree that are no blocks: what stands in a program, in blocks, in
brackets and after `return`.  Each comes behind those that stand in it. -/
def innerStatements : Tree → List Tree
  | compound _ ss => allStatements ss
  | group _ t | convert _ _ t | returnValue _ t => innerStatements t ++ t.unlessBlock
  | unary _ _ t | trailing _ _ t => innerStatements t
  | binary _ _ l r => innerStatements l ++ innerStatements r
  | bad _ | literal .. | breakLoop _ | continueLoop _ => []

/-- Some statements and those that stand in them. -/
def allStatements : List Tree → List Tree
  | [] => []
  | t :: ts => innerStatements t ++ t.unlessBlock ++ allStatements ts

end

/-- The log entry of a statement. -/
def report (t : Tree) : Event :=
  .statement t.name t.span

/-- A log that a tree other than a block accounts for, as far as it stands below the
tree. -/
def LoggedBelow (t : Tree) (log : List Event) : Prop :=
  t.isBlock = false ∧ log = t.innerStatements.map report

/-- A log that a statement accounts for. -/
def Logged (t : Tree) (log : List Event) : Prop :=
  log = (t.innerStatements ++ t.unlessBlock).map report

theorem LoggedBelow.logged {t : Tree} {log : List Event} (h : t.LoggedBelow log) :
    t.Logged (log ++ [t.report]) := by
  obtain ⟨hblock, rfl⟩ := h
  simp [Logged, unlessBlock, hblock]

end Tree

/-- Whether an event is one of those that reading logs on its way. -/
def Event.isPassing : Event → Bool
  | statement .. | declarationUnavailable | questionUnavailable => true
  | token _ | syntaxError _ | imported _ => false

namespace Parser

variable {α β : Type}

/-! ### Sequences -/

/-- Reading `s`, a parser logs passing events, and if it gives a value, then a log that
stands in a relation to the value. -/
structure LogsAt (s : Input) (p : Parser α) (R : α → List Event → Prop) : Prop where
  passing : ∀ e ∈ (p s).log, e.isPassing
  gives : ∀ {a : α} {r : Input}, p.Gives s a r → R a (p s).log

/-- Whatever it reads, a parser logs so. -/
def Logs (p : Parser α) (R : α → List Event → Prop) : Prop :=
  ∀ s, p.LogsAt s R

/-- A parser that logs nothing. -/
def Silent (p : Parser α) : Prop :=
  p.Logs fun _ log => log = []

theorem log_bind_of_gives {p : Parser α} {f : α → Parser β} {s r : Input} {a : α}
    (h : p.Gives s a r) : ((p >>= f) s).log = (p s).log ++ (f a r).log := by
  obtain ⟨hresult, hrest⟩ := h
  rcases hp : p s with ⟨x, e, log⟩
  rw [hp] at hresult hrest
  rw [bind_ok (show p s = ⟨.ok a, r, log⟩ by rw [hp, ← hresult, ← hrest])]

theorem log_bind_of_fails {p : Parser α} {f : α → Parser β} {s : Input} {e : Failure}
    (h : p.Fails s e) : ((p >>= f) s).log = (p s).log := by
  rcases hp : p s with ⟨x, r, log⟩
  rw [Fails, hp] at h
  rw [bind_error (show p s = ⟨.error e, r, log⟩ by rw [hp, ← h])]

namespace Logs

variable {p : Parser α} {R S : α → List Event → Prop} {T : β → List Event → Prop}

theorem pure {a : α} (h : R a []) : (Pure.pure a : Parser α).Logs R := by
  intro s
  refine ⟨List.forall_mem_nil _, fun hgives => ?_⟩
  rw [(gives_pure.1 hgives).1]
  exact h

theorem fail (cause : ParseError) (q : Span) : (Parser.fail cause q : Parser α).Logs R :=
  fun _ => ⟨List.forall_mem_nil _, fun h => absurd h not_gives_fail⟩

theorem note {e : Event} (he : e.isPassing) : (Parser.note e).Logs fun _ log => log = [e] :=
  fun _ => ⟨List.forall_mem_singleton.2 he, fun _ => rfl⟩

theorem bind {f : α → Parser β} (hp : p.Logs R)
    (hf : ∀ a log, R a log → (f a).Logs fun b log' => T b (log ++ log')) : (p >>= f).Logs T := by
  intro s
  rcases gives_or_fails p s with ⟨a, s', ha⟩ | ⟨e, he⟩
  · have hrest := hf a _ ((hp s).gives ha) s'
    constructor
    · rw [log_bind_of_gives ha]
      exact List.forall_mem_append.2 ⟨(hp s).passing, hrest.passing⟩
    · intro b r hb
      -- There is one value that the first parser gives, so `f` goes on from that one.
      obtain ⟨a', s'', ha', hb'⟩ := gives_bind.1 hb
      obtain ⟨rfl, rfl⟩ : a = a' ∧ s' = s'' :=
        ⟨Except.ok.inj (ha.1.symm.trans ha'.1), ha.2.symm.trans ha'.2⟩
      rw [log_bind_of_gives ha]
      exact hrest.gives hb'
  · constructor
    · rw [log_bind_of_fails he]
      exact (hp s).passing
    · intro b r hb
      obtain ⟨a, s', ha, -⟩ := gives_bind.1 hb
      exact nomatch ha.1.symm.trans he

theorem silent_bind {f : α → Parser β} (hp : p.Silent) (hf : ∀ a, (f a).Logs T) :
    (p >>= f).Logs T := by
  refine hp.bind fun a log hlog => ?_
  subst hlog
  exact hf a

theorem map {f : α → β} (hp : p.Logs R) (hf : ∀ a log, R a log → T (f a) log) :
    (f <$> p).Logs T := by
  intro s
  refine ⟨(hp s).passing, fun hgives => ?_⟩
  obtain ⟨a, ha, rfl⟩ := gives_map.1 hgives
  exact hf a _ ((hp s).gives ha)

theorem ite {c : Prop} [Decidable c] {q : Parser α} (hp : p.Logs R) (hq : q.Logs R) :
    (if c then p else q).Logs R := by
  split
  · exact hp
  · exact hq

theorem nested {n : Nat} {q : Span} {read : Grammar → Parser α}
    (h : ∀ m, n = m + 1 → (read (.above (levels m))).Logs R) :
    (Parser.nested (levels n) q read).Logs R := by
  cases n with
  | zero => exact .fail _ _
  | succ n =>
    show (read (grammar n)).Logs R
    rw [grammar_eq_above]
    exact h n rfl

end Logs

/-! ### Tokens and separators -/

theorem silent_peek : peek.Silent :=
  fun _ => ⟨List.forall_mem_nil _, fun _ => rfl⟩

theorem silent_input : input.Silent :=
  fun _ => ⟨List.forall_mem_nil _, fun _ => rfl⟩

theorem logsAt_input_bind {f : Input → Parser β} {s : Input} {T : β → List Event → Prop}
    (h : (f s).LogsAt s T) : (input >>= f).LogsAt s T :=
  ⟨h.passing, h.gives⟩

theorem silent_advance : advance.Silent :=
  fun _ => ⟨List.forall_mem_nil _, fun _ => rfl⟩

theorem silent_expect (k : TokenKind) : (expect k).Silent :=
  .silent_bind silent_advance fun _ => .ite (.pure rfl) (.fail _ _)

theorem silent_separator : separator.Silent := by
  refine .silent_bind silent_input fun s => .ite ?_ (.ite (.pure rfl) (.fail _ _))
  exact .silent_bind silent_advance fun _ => .pure rfl

/-! ### Statements and expressions -/

theorem logs_statementsWithin {ends : TokenKind → Bool} {statement : Parser Tree}
    (h : statement.Logs Tree.Logged) (bound : List Item) :
    (statementsWithin ends statement bound).Logs fun ts log =>
      log = (Tree.allStatements ts).map Tree.report := by
  induction bound with
  | nil => exact .pure rfl
  | cons x bound ih =>
    refine .silent_bind silent_peek fun t => .ite (.pure rfl) ?_
    refine h.bind fun first log hfirst => ih.map fun ts log' hrest => ?_
    rw [hfirst, hrest, ← List.map_append, Tree.allStatements]

theorem logs_statements {ends : TokenKind → Bool} {statement : Parser Tree}
    (h : statement.Logs Tree.Logged) :
    (statements ends statement).Logs fun ts log =>
      log = (Tree.allStatements ts).map Tree.report :=
  .silent_bind silent_input fun s => logs_statementsWithin h s.items

/-- The loop over operators goes on with the log of what stands on their left. -/
theorem logs_operatorsWithin {operand : Nat → Parser Tree}
    (h : ∀ least, (operand least).Logs Tree.LoggedBelow) (bound : List Item) (least : Nat)
    {left : Tree} {log : List Event} (hleft : left.LoggedBelow log) :
    (operatorsWithin operand bound least left).Logs fun t log' => t.LoggedBelow (log ++ log') := by
  induction bound generalizing least left log with
  | nil =>
    refine .pure ?_
    rw [List.append_nil]
    exact hleft
  | cons x bound ih =>
    refine .silent_bind silent_peek fun t => .ite (.pure ?_) ?_
    · rw [List.append_nil]
      exact hleft
    · refine .silent_bind silent_advance fun _ => .ite (.pure ?_) ?_
      · rw [List.append_nil]
        exact ⟨rfl, hleft.2⟩
      -- What is logged on the right comes behind what the whole left operand has logged.
      · refine (h _).bind fun first log₁ hfirst => ?_
        refine (ih _ hfirst).bind fun right log₂ hright => ?_
        have hbinary : (Tree.binary t.span t.kind left right).LoggedBelow (log ++ (log₁ ++ log₂)) :=
          ⟨rfl, by rw [hleft.2, hright.2, Tree.innerStatements, List.map_append]⟩
        simpa only [List.append_assoc] using ih least hbinary

/-- Control statements log what stands after `return`. -/
theorem logs_controlled (mode : StatementMode) {value otherwise : Parser Tree}
    (hvalue : value.Logs Tree.Logged) (hotherwise : otherwise.Logs Tree.LoggedBelow) :
    (controlled mode value otherwise).Logs Tree.LoggedBelow := by
  refine .silent_bind silent_peek fun t => .ite ?_ (.ite ?_ (.ite ?_ hotherwise))
  · exact .silent_bind silent_advance fun _ => .pure ⟨rfl, rfl⟩
  · exact .silent_bind silent_advance fun _ => .pure ⟨rfl, rfl⟩
  · refine .silent_bind silent_advance fun _ => hvalue.bind fun x log hx => .pure ⟨rfl, ?_⟩
    rw [List.append_nil]
    exact hx

section

variable {n least : Nat} {s r : Input} {t : Tree}

/-- No expression begins with a word. -/
theorem not_gives_expression_of_word (hword : s.current.kind = .word) :
    ¬ (expression (levels n) least).Gives s t r := by
  intro h
  obtain ⟨first, s', hfirst, -⟩ := gives_expression.1 h
  rcases gives_operand.1 hfirst with hprimary | ⟨hoperator, -⟩
  · rcases gives_primary.1 hprimary with ⟨v, hv, -⟩ | ⟨hopen, -⟩
    · simp [Literal.ofToken?, hword] at hv
    · rw [hopen] at hword
      cases hword
  · rw [hword] at hoperator
    exact absurd hoperator (by decide)

/-- A word that names a type begins no expression and controls nothing. -/
theorem not_gives_controlled_of_typeOf? {mode : StatementMode} {value : Parser Tree}
    {target : ValueType} (htarget : typeOf? s.current = some target) :
    ¬ (controlled mode value (expression (levels n) 0)).Gives s t r := by
  have hword : s.current.kind = .word := Reads.kind_of_typeOf? htarget
  rw [gives_controlled]
  rintro (⟨-, hk, -⟩ | ⟨-, -, htext, -⟩ | ⟨-, h⟩)
  · rw [hk] at hword
    cases hword
  · rw [typeOf?, if_pos hword, htext] at htarget
    cases htarget
  · exact not_gives_expression_of_word hword h

end

/-- What is read at a level logs a walk over its tree. -/
structure LogsTrees (n : Nat) : Prop where
  statement : ∀ mode, (statement (levels n) mode).Logs Tree.Logged
  expression : ∀ least, (expression (levels n) least).Logs Tree.LoggedBelow

section

variable {n : Nat} (below : ∀ m, n = m + 1 → LogsTrees m)
include below

/-- A statement in brackets. -/
theorem logs_closed {p : Span} {k : TokenKind} {build : Tree → Tree}
    (hbuild : ∀ {t : Tree} {log : List Event}, t.Logged log → (build t).LoggedBelow log) :
    (do let inner ← nested (levels n) p fun g => g.statement .expression
        let _ ← expect k
        return build inner : Parser Tree).Logs Tree.LoggedBelow := by
  refine Logs.bind (.nested fun m hm => (below m hm).statement _) fun t log ht => ?_
  refine .silent_bind (silent_expect _) fun _ => .pure ?_
  rw [List.append_nil]
  exact hbuild ht

theorem logs_primary : (primary (levels n)).Logs Tree.LoggedBelow := by
  refine .silent_bind silent_advance fun t => ?_
  split
  · exact logs_closed below fun ht => ⟨rfl, ht⟩
  · exact .fail _ _
  · split
    · exact .pure ⟨rfl, rfl⟩
    · exact .fail _ _

theorem logs_operand (least : Nat) : (operand (levels n) least).Logs Tree.LoggedBelow := by
  refine .silent_bind silent_peek fun t => .ite (logs_primary below) (.ite ?_ ?_)
  · refine Logs.bind (.note rfl) fun _ log _ => ?_
    exact .silent_bind silent_advance fun _ => .fail _ _
  · refine .silent_bind silent_advance fun _ => ?_
    refine Logs.bind (.nested fun m hm => (below m hm).expression _) fun x log hx => .pure ?_
    rw [List.append_nil]
    exact ⟨rfl, hx.2⟩

theorem logs_expression (least : Nat) : (expression (levels n) least).Logs Tree.LoggedBelow := by
  refine (logs_operand below least).bind fun first log hfirst => ?_
  exact .silent_bind silent_input fun s =>
    logs_operatorsWithin (logs_operand below) s.items least hfirst

theorem logs_conversion (target : ValueType) :
    (conversion (levels n) target).Logs Tree.LoggedBelow := by
  refine .silent_bind silent_advance fun keyword => .silent_bind (silent_expect _) fun _ => ?_
  exact logs_closed below fun ht => ⟨rfl, ht⟩

theorem logs_simple {control : Parser Tree → Parser Tree}
    (hcontrol : (control (expression (levels n) 0)).Logs Tree.LoggedBelow)
    (hword : ∀ {s r : Input} {t : Tree} {target : ValueType}, typeOf? s.current = some target →
      ¬ (control (expression (levels n) 0)).Gives s t r) :
    (simple (levels n) control).Logs Tree.LoggedBelow := by
  intro s
  refine logsAt_input_bind ?_
  split
  · next target htarget =>
    split
    · exact logs_conversion below target s
    -- The entry that nothing accounts for is only logged where no statement can be read.
    · refine ⟨List.forall_mem_cons.2 ⟨rfl, (hcontrol s).passing⟩, fun h => ?_⟩
      exact absurd (gives_note_bind.1 h) (hword htarget)
  · exact hcontrol s

theorem logs_block (mode : StatementMode) {m : Nat} (hm : n = m + 1) :
    (block (.above (levels m)) mode).Logs Tree.Logged := by
  refine .silent_bind silent_advance fun opening => ?_
  refine (logs_statements ((below m hm).statement _)).bind fun ts log hts => ?_
  refine .silent_bind (silent_expect _) fun _ => .pure ?_
  rw [List.append_nil, hts, Tree.Logged, Tree.innerStatements, Tree.unlessBlock]
  exact (congrArg _ (List.append_nil _)).symm

theorem logs_statementWith {control : Parser Tree → Parser Tree}
    (hcontrol : (control (expression (levels n) 0)).Logs Tree.LoggedBelow)
    (hword : ∀ {s r : Input} {t : Tree} {target : ValueType}, typeOf? s.current = some target →
      ¬ (control (expression (levels n) 0)).Gives s t r) (mode : StatementMode) :
    (statementWith (levels n) control mode).Logs Tree.Logged := by
  refine .silent_bind silent_peek fun t => .ite (.fail _ _) (.ite ?_ ?_)
  · exact .nested fun m hm => logs_block below _ hm
  · refine (logs_simple below hcontrol hword).bind fun x log hx => ?_
    have hnoted : (do note (.statement x.name x.span); return x : Parser Tree).Logs
        fun t log' => t.Logged (log ++ log') := by
      refine Logs.bind (.note rfl) fun _ log' hlog' => .pure ?_
      rw [hlog', List.append_nil]
      exact hx.logged
    exact .ite (.silent_bind silent_separator fun _ => hnoted) hnoted

theorem logs_statement (mode : StatementMode) :
    (statement (levels n) mode).Logs Tree.Logged := by
  have hexpression := logs_expression below 0
  have hinner : (inner (levels n)).Logs Tree.Logged :=
    logs_statementWith below hexpression
      (fun htarget => not_gives_expression_of_word (Reads.kind_of_typeOf? htarget)) _
  exact logs_statementWith below (logs_controlled mode hinner hexpression)
    not_gives_controlled_of_typeOf? mode

end

/-- Every level of the grammar logs walks over trees. -/
theorem logsTrees (n : Nat) : LogsTrees n := by
  induction n with
  | zero =>
    have below : ∀ m, 0 = m + 1 → LogsTrees m := fun m hm => by omega
    exact ⟨logs_statement below, logs_expression below⟩
  | succ n ih =>
    have below : ∀ m, n + 1 = m + 1 → LogsTrees m := fun m hm => by
      obtain rfl : n = m := by omega
      exact ih
    exact ⟨logs_statement below, logs_expression below⟩

theorem isBad_of_gives_program {o : ParseOptions} {s r : Input} {t : Tree}
    (h : (program o).Gives s t r) : t.isBad = false := by
  obtain ⟨ts, s', -, ht⟩ := gives_bind.1 h
  rw [(gives_pure.1 ht).1]
  rfl

theorem logs_program (o : ParseOptions) :
    (program o).Logs fun t log => log = t.innerStatements.map Tree.report := by
  rw [program, grammar_eq_above]
  refine (logs_statements ((logsTrees maxNesting).statement _)).bind fun ts log hts => .pure ?_
  rw [List.append_nil]
  exact hts

end Parser

/-! ### Programs -/

/-- Reading a program logs the statements of its tree, or some passing events and at last
the error. -/
theorem log_parse (o : ParseOptions) (s : Input) :
    ((parse o s).root.isBad = false ∧
        (parse o s).log = (parse o s).root.innerStatements.map Tree.report) ∨
      ∃ d front, (parse o s).root = .bad d ∧ (parse o s).log = front ++ [.syntaxError d] ∧
        ∀ e ∈ front, e.isPassing := by
  have hlogs := Parser.logs_program o s
  unfold parse
  split
  · next root rest log hp =>
    have hgives : (Parser.program o).Gives s root rest := ⟨by rw [hp], by rw [hp]⟩
    refine .inl ⟨Parser.isBad_of_gives_program hgives, ?_⟩
    have hlog := hlogs.gives hgives
    rw [hp] at hlog
    exact hlog
  · next f rest log hp =>
    refine .inr ⟨f.diagnostic, log, rfl, rfl, ?_⟩
    have hpassing := hlogs.passing
    rw [hp] at hpassing
    exact hpassing

/-- Only programs are kept. -/
theorem Session.fst_register (s : Session) (name : String) (root : Tree) :
    (s.register name root).1 = root.isBlock := by
  cases root <;> rfl

/-- The tokens of a run and its log, an entry for each of them. -/
theorem Lexer.drainLogged_eq (l : Lexer) :
    l.drainLogged = (l.drain.1, l.drain.1.map .token, l.drain.2) := by
  fun_induction drainLogged l with
  | case1 l r hend =>
    rw [drain_of_kind hend]
    rfl
  | case2 l r hend more ih =>
    have hmore : more = (l.next.2.drain.1, l.next.2.drain.1.map .token, l.next.2.drain.2) := ih
    rw [drain_of_kind_ne hend, hmore]
    rfl

theorem logOf_eq (o : ParseOptions) (text name : String) :
    logOf o text name =
      (tokenize text).map .token ++ (parse o (.ofTokens (tokenize text))).log ++
        if (parse o (.ofTokens (tokenize text))).root.isBlock then [.imported name] else [] := by
  rw [logOf, Lexer.drainLogged_eq]
  show _ ++ (if (Session.register _ name _).1 then _ else _) = _
  rw [Session.fst_register]
  rfl

theorem Event.record_token (t : Token) :
    (token t).record =
      if t.kind = .bad then ⟨.debug, "bad token: " ++ t.text, { place? := some t.span }⟩
      else ⟨.trace, "token " ++ Text.shown t.text,
        { kind? := some t.kind, place? := some t.span }⟩ := by
  rw [record, level, message, fields]
  split <;> rfl

/-- **What is logged of a text.**  First comes an entry for every token of the text, and
last the entry of the program that is kept, if it is one.  Between them the statements of
the program are logged as a walk over its tree comes to their ends, or else its error is
logged once, behind all other entries. -/
theorem record_logOf (o : ParseOptions) (text name : String) :
    let p := parse o (.ofTokens (tokenize text))
    (logOf o text name).map Event.record =
        ((tokenize text).map fun t =>
          if t.kind = .bad then ⟨.debug, "bad token: " ++ t.text, { place? := some t.span }⟩
          else ⟨.trace, "token " ++ Text.shown t.text,
            { kind? := some t.kind, place? := some t.span }⟩) ++
        p.log.map Event.record ++
        (if p.root.isBlock then [⟨.debug, "registered import", { name? := some name }⟩] else []) ∧
      (∀ d, p.root = .bad d → ∃ front : List Event, (∀ e ∈ front, e.isPassing) ∧
        p.log.map Event.record = front.map Event.record ++
          [⟨.debug, "syntax error: " ++ d.message, { place? := some d.span }⟩]) ∧
      (p.root.isBad = false → p.log.map Event.record = p.root.innerStatements.map fun t =>
        ⟨.trace, "parsed " ++ t.name ++ " statement", { place? := some t.span }⟩) := by
  intro p
  refine ⟨?_, fun d hd => ?_, fun hgood => ?_⟩
  · rw [logOf_eq, List.map_append, List.map_append, List.map_map,
      apply_ite (List.map Event.record), funext fun t => (Event.record_token t).symm]
    rfl
  · rcases log_parse o (.ofTokens (tokenize text)) with
      ⟨hgood, -⟩ | ⟨d', front, hroot, hlog, hfront⟩
    · rw [hd] at hgood
      exact nomatch hgood
    · obtain rfl : d = d' := Tree.bad.inj (hd.symm.trans hroot)
      refine ⟨front, hfront, ?_⟩
      rw [hlog, List.map_append]
      rfl
  · rcases log_parse o (.ofTokens (tokenize text)) with ⟨-, hlog⟩ | ⟨d, front, hroot, -⟩
    · rw [hlog, List.map_map]
      rfl
    · rw [hroot] at hgood
      exact nomatch hgood

end ScriptSyntax
