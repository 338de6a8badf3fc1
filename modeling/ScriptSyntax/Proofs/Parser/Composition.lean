/-
Programs one after another.

Statements that are whole leave nothing behind: what follows them is read as it is
on its own.

* `Input.SameNext` relates inputs that differ in the line break before the next token
  only, and `Parser.Heedless` says of a parser that it does not see the difference;
* `Reads.statement_upTo` — a statement that is whole is read before any other input;
* `Parser.result_statements_of_reads` — behind whole statements the others are read;
* `parseTokens_append` — the same for programs.

Design notes: the loop over statements has as many rounds as there are items, and so
what it reads behind a statement is read with another bound.  Nothing depends on the
bound (`Parser.result_statementsWithin_eq`).  The result of the loop is a value or a
failure, and to speak of the result is to speak of both.
-/
import ScriptSyntax.Proofs.Parser.Coverage
import ScriptSyntax.Proofs.Parser.Failure

namespace ScriptSyntax

/-! ### The line break before the next token -/

/-- The inputs differ at most in the line break before the next token. -/
structure Input.SameNext (s s' : Input) : Prop where
  current : s.current = s'.current
  advance : s.advance = s'.advance

namespace Input.SameNext

variable {s s' : Input}

theorem followedBy_eq (h : s.SameNext s') (k : TokenKind) : s.followedBy k = s'.followedBy k := by
  rw [followedBy, followedBy, h.advance]

theorem final_eq (h : s.SameNext s') : s.final = s'.final :=
  show s.advance.final = s'.advance.final by rw [h.advance]

/-- Items of the same tokens, the first of which may follow a line break or not. -/
theorem of_itemsFrom (broken broken' : Bool) (ts : List Token) (last : Token) :
    SameNext ⟨itemsFrom broken ts, last⟩ ⟨itemsFrom broken' ts, last⟩ := by
  cases ts with
  | nil => exact ⟨rfl, rfl⟩
  | cons t ts =>
    rw [itemsFrom, itemsFrom]
    split
    · exact ⟨rfl, rfl⟩
    · exact ⟨rfl, rfl⟩

end Input.SameNext

/-- Behind other tokens an input goes on as it does on its own, but for a line break. -/
theorem Input.exists_sameNext_append (us : List Token) {ts : List Token} (h : ts ≠ []) :
    ∃ e : Input, e.SameNext (.ofTokens ts) ∧ ofTokens (us ++ ts) = e.joined false us := by
  obtain ⟨broken, vs, hvs, happend⟩ := exists_ofTokens_append us h
  refine ⟨_, ?_, happend⟩
  have hnext := SameNext.of_itemsFrom broken false vs (ofTokens ts).final
  rw [← hvs] at hnext
  exact hnext

namespace Parser

variable {α β : Type}

/-- A parser for which the line break before the next token plays no part. -/
structure Heedless (p : Parser α) : Prop where
  gives : ∀ {s s' r : Input} {a : α}, s.SameNext s' → p.Gives s a r → p.Gives s' a r
  fails : ∀ {s s' : Input} {f : Failure}, s.SameNext s' → p.Fails s f → p.Fails s' f

namespace Heedless

theorem fail (cause : ParseError) (q : Span) : (Parser.fail cause q : Parser α).Heedless :=
  ⟨fun _ h => absurd h not_gives_fail, fun _ h => fails_fail.2 (fails_fail.1 h)⟩

/-- What begins with a token that is taken does not look at what stands before it. -/
theorem advance_bind (g : Token → Parser β) : (advance >>= g).Heedless := by
  constructor
  · intro s s' r a hnext h
    rw [gives_advance_bind] at h ⊢
    rw [← hnext.current, ← hnext.advance]
    exact h
  · intro s s' f hnext h
    rw [fails_advance_bind] at h ⊢
    rw [← hnext.current, ← hnext.advance]
    exact h

theorem bind {p : Parser α} (hp : p.Heedless) (g : α → Parser β) : (p >>= g).Heedless := by
  constructor
  · intro s s' r b hnext h
    obtain ⟨a, e, ha, hb⟩ := gives_bind.1 h
    exact gives_bind.2 ⟨a, e, hp.gives hnext ha, hb⟩
  · intro s s' f hnext h
    rcases fails_bind.1 h with h | ⟨a, e, ha, hf⟩
    · exact fails_bind.2 (.inl (hp.fails hnext h))
    · exact fails_bind.2 (.inr ⟨a, e, hp.gives hnext ha, hf⟩)

theorem peek_bind {g : Token → Parser β} (hg : ∀ t, (g t).Heedless) : (peek >>= g).Heedless := by
  constructor
  · intro s s' r a hnext h
    rw [gives_peek_bind] at h ⊢
    rw [← hnext.current]
    exact (hg _).gives hnext h
  · intro s s' f hnext h
    rw [fails_peek_bind] at h ⊢
    rw [← hnext.current]
    exact (hg _).fails hnext h

theorem input_bind {g : Input → Parser β} (hg : ∀ s, (g s).Heedless)
    (hsame : ∀ {s s' : Input}, s.SameNext s' → g s = g s') : (input >>= g).Heedless := by
  constructor
  · intro s s' r a hnext h
    rw [gives_input_bind] at h ⊢
    rw [← hsame hnext]
    exact (hg s).gives hnext h
  · intro s s' f hnext h
    rw [fails_input_bind] at h ⊢
    rw [← hsame hnext]
    exact (hg s).fails hnext h

theorem note_bind {e : Event} {g : PUnit → Parser β} (hg : (g ⟨⟩).Heedless) :
    (note e >>= g).Heedless :=
  ⟨fun hnext h => gives_note_bind.2 (hg.gives hnext (gives_note_bind.1 h)),
    fun hnext h => fails_note_bind.2 (hg.fails hnext (fails_note_bind.1 h))⟩

theorem ite {c : Prop} [Decidable c] {p q : Parser α} (hp : p.Heedless) (hq : q.Heedless) :
    (if c then p else q).Heedless := by
  split
  · exact hp
  · exact hq

theorem nested {below : Option Grammar} {q : Span} {read : Grammar → Parser α}
    (hread : ∀ g, (read g).Heedless) : (Parser.nested below q read).Heedless := by
  cases below with
  | none => exact .fail _ _
  | some g => exact hread g

variable (below : Option Grammar) (mode : StatementMode)

theorem expression (least : Nat) : (Parser.expression below least).Heedless := by
  refine .bind (.peek_bind fun t => ?_) _
  exact .ite (.advance_bind _) (.ite (.note_bind (.advance_bind _)) (.advance_bind _))

theorem controlled {value otherwise : Parser Tree} (h : otherwise.Heedless) :
    (Parser.controlled mode value otherwise).Heedless :=
  .peek_bind fun _ => .ite (.advance_bind _) (.ite (.advance_bind _) (.ite (.advance_bind _) h))

theorem simple {control : Parser Tree → Parser Tree}
    (h : (control (Parser.expression below 0)).Heedless) :
    (Parser.simple below control).Heedless := by
  refine .input_bind (fun s => ?_) fun {s s'} hnext => ?_
  · split
    · exact .ite (.advance_bind _) (.note_bind h)
    · exact h
  · rw [hnext.current, hnext.followedBy_eq]

/-- A statement begins with a token that it takes. -/
theorem statement : (Parser.statement below mode).Heedless := by
  refine .peek_bind fun t => .ite (.fail _ _) (.ite (.nested fun _ => .advance_bind _) ?_)
  exact .bind (.simple below (.controlled mode (.expression below 0))) _

end Heedless

/-! ### The loop over statements -/

section

variable {n : Nat} {mode : StatementMode} {ends : TokenKind → Bool} {x : Item}
  {bound bound' : List Item} {s s' r : Input} {t : Tree} {f : Failure}

theorem result_statementsWithin_of_ends {read : Parser Tree} (hends : ends s.current.kind) :
    (statementsWithin ends read bound s).result = .ok [] := by
  cases bound with
  | nil => rfl
  | cons x bound =>
    have hgives : (statementsWithin ends read (x :: bound)).Gives s [] s :=
      gives_statementsWithin_cons.2 (.inl ⟨hends, rfl, rfl⟩)
    exact hgives.1

theorem result_statementsWithin_of_gives {read : Parser Tree}
    (hends : ends s.current.kind = false) (h : read.Gives s t r) :
    (statementsWithin ends read (x :: bound) s).result =
      (statementsWithin ends read bound r).result.map (t :: ·) := by
  rcases gives_or_fails (statementsWithin ends read bound) r with ⟨ts, e, hrest⟩ | ⟨f, hrest⟩
  · rw [hrest.1]
    exact (gives_statementsWithin_cons.2 (.inr ⟨hends, t, r, ts, h, hrest, rfl⟩)).1
  · rw [show (statementsWithin ends read bound r).result = .error f from hrest]
    show (statementsWithin ends read (x :: bound)).Fails s f
    rw [statementsWithin, fails_peek_bind, hends]
    exact fails_bind.2 (.inr ⟨t, r, h, fails_map.2 hrest⟩)

/-- Where statements do not end there is an item. -/
theorem items_ne_nil (hend : ends .endOfInput) (hfinal : s.final.kind = .endOfInput)
    (hends : ends s.current.kind = false) : s.items ≠ [] := by
  intro hnil
  rw [Input.current, hnil, show s.final.kind = _ from hfinal, hend] at hends
  exact Bool.noConfusion hends

/-- There is a round for every item, and more rounds make no difference. -/
theorem result_statementsWithin_eq (hend : ends .endOfInput)
    (hfinal : s.final.kind = .endOfInput) (hbound : s.items.length ≤ bound.length)
    (hbound' : s.items.length ≤ bound'.length) :
    (statementsWithin ends (statement (levels n) mode) bound s).result =
      (statementsWithin ends (statement (levels n) mode) bound' s).result := by
  induction bound generalizing s bound' with
  | nil =>
    cases hends : ends s.current.kind with
    | true => rw [result_statementsWithin_of_ends hends, result_statementsWithin_of_ends hends]
    | false =>
      exact absurd (List.length_eq_zero_iff.1 (Nat.le_zero.1 hbound))
        (items_ne_nil hend hfinal hends)
  | cons x bound ih =>
    cases hends : ends s.current.kind with
    | true => rw [result_statementsWithin_of_ends hends, result_statementsWithin_of_ends hends]
    | false =>
      have hpos : 0 < s.items.length := List.length_pos_iff.2 (items_ne_nil hend hfinal hends)
      obtain ⟨x', bound', rfl⟩ : ∃ x' xs', bound' = x' :: xs' :=
        List.exists_cons_of_length_pos (Nat.lt_of_lt_of_le hpos hbound')
      rcases gives_or_fails (statement (levels n) mode) s with ⟨t, r, h⟩ | ⟨f, h⟩
      · have hreads := ((agrees n).statement hfinal).1 h
        have hlength := hreads.length_lt hfinal rfl
        have hrest : (statementsWithin ends _ bound r).result =
            (statementsWithin ends _ bound' r).result :=
          ih (hreads.kind_final hfinal)
            (Nat.le_of_lt_succ (Nat.lt_of_lt_of_le hlength hbound))
            (Nat.le_of_lt_succ (Nat.lt_of_lt_of_le hlength hbound'))
        rw [result_statementsWithin_of_gives hends h, result_statementsWithin_of_gives hends h,
          hrest]
      · exact (fails_statementsWithin_cons hends h).trans (fails_statementsWithin_cons hends h).symm

/-- Behind a statement the others are read. -/
theorem result_statements_of_gives (hend : ends .endOfInput)
    (hends : ends s.current.kind = false) (hfinal : s.final.kind = .endOfInput)
    (h : (statement (levels n) mode).Gives s t r) :
    (statements ends (statement (levels n) mode) s).result =
      (statements ends (statement (levels n) mode) r).result.map (t :: ·) := by
  have hreads := ((agrees n).statement hfinal).1 h
  have hlength := hreads.length_lt hfinal rfl
  obtain ⟨x, xs, hitems⟩ := List.exists_cons_of_ne_nil (items_ne_nil hend hfinal hends)
  rw [hitems, List.length_cons] at hlength
  show (statementsWithin ends _ s.items s).result =
    (statementsWithin ends _ r.items r).result.map (t :: ·)
  rw [hitems, result_statementsWithin_of_gives hends h,
    result_statementsWithin_eq hend (hreads.kind_final hfinal) (Nat.le_of_lt_succ hlength)
      (Nat.le_refl _)]

/-- Before the first statement line breaks play no part. -/
theorem result_statements_of_sameNext (hend : ends .endOfInput)
    (hfinal : s.final.kind = .endOfInput) (hnext : s.SameNext s') :
    (statements ends (statement (levels n) mode) s).result =
      (statements ends (statement (levels n) mode) s').result := by
  have hheedless := Heedless.statement (levels n) mode
  have hfinal' : s'.final.kind = .endOfInput := hnext.final_eq ▸ hfinal
  cases hends : ends s.current.kind with
  | true =>
    have hends' : ends s'.current.kind := hnext.current ▸ hends
    exact (result_statementsWithin_of_ends hends).trans
      (result_statementsWithin_of_ends hends').symm
  | false =>
    have hends' : ends s'.current.kind = false := hnext.current ▸ hends
    rcases gives_or_fails (statement (levels n) mode) s with ⟨t, r, h⟩ | ⟨f, h⟩
    · rw [result_statements_of_gives hend hends hfinal h,
        result_statements_of_gives hend hends' hfinal' (hheedless.gives hnext h)]
    · have hfails := fails_statements_of_first (items_ne_nil hend hfinal hends) hends h
      have hfails' := fails_statements_of_first (items_ne_nil hend hfinal' hends') hends'
        (hheedless.fails hnext h)
      exact hfails.trans hfails'.symm

end

end Parser

/-! ### Whole statements -/

/-- A statement may follow tokens without line breaks, those of the statements `ss`: there
are none of them, the last one is a semicolon, or the last statement is a block. -/
def Concludes (ts : List Token) (ss : List Tree) : Prop :=
  ts = [] ∨ (∃ t ∈ ts.getLast?, t.kind = .semicolon) ∨ ∃ t ∈ ss.getLast?, t.isBlock

/-- What concludes statements concludes those behind the first of them. -/
theorem Concludes.tail {ts us : List Token} {t : Tree} {ss : List Tree}
    (h : Concludes (ts ++ us) (t :: ss)) (hus : us ≠ []) (hss : ss ≠ []) : Concludes us ss := by
  rcases h with hnil | ⟨u, hu, hkind⟩ | ⟨v, hv, hblock⟩
  · exact absurd (List.append_eq_nil_iff.1 hnil).2 hus
  · rw [List.getLast?_append_of_ne_nil _ hus] at hu
    exact .inr (.inl ⟨u, hu, hkind⟩)
  · rw [← List.singleton_append, List.getLast?_append_of_ne_nil _ hss] at hv
    exact .inr (.inr ⟨v, hv, hblock⟩)

namespace Input

/-- The tokens of the items. -/
def tokens (s : Input) : List Token :=
  s.items.map Item.token

theorem tokens_itemsFrom (broken : Bool) (ts : List Token) (last : Token) :
    tokens ⟨itemsFrom broken ts, last⟩ = ts.filter (·.kind ≠ .newLine) := by
  rw [tokens]
  induction ts generalizing broken with
  | nil => rfl
  | cons t ts ih =>
    rw [itemsFrom]
    by_cases ht : t.kind = .newLine
    · rw [if_pos ht, List.filter_cons_of_neg (by simp [ht])]
      exact ih true
    · rw [if_neg ht, List.filter_cons_of_pos (by simp [ht]), List.map_cons, ih]

/-- Where no item is an end token, the end token stands behind all items. -/
theorem items_eq_nil {s : Input} (hkinds : ∀ t ∈ s.tokens, t.kind ≠ .endOfInput)
    (h : s.current.kind = .endOfInput) : s.items = [] := by
  rcases s with ⟨_ | ⟨x, xs⟩, last⟩
  · rfl
  · exact absurd h (hkinds x.token List.mem_cons_self)

end Input

/-- The last item that stands before `r` in `s` is no semicolon. -/
def Input.Unended (s r : Input) : Prop :=
  ∃ xs x, s.items = xs ++ x :: r.items ∧ x.token.kind ≠ .semicolon

namespace Input.Unended

variable {e r s : Input}

/-- A single token. -/
theorem single (hfinal : s.final.kind = .endOfInput) (hend : s.current.kind ≠ .endOfInput)
    (hsemicolon : s.current.kind ≠ .semicolon) : s.Unended s.advance := by
  rcases s with ⟨_ | ⟨x, xs⟩, last⟩
  · exact absurd hfinal hend
  · exact ⟨[], x, rfl, hsemicolon⟩

theorem of_ahead (h : r.Unended e) (hr : r.Ahead s) : s.Unended e := by
  obtain ⟨xs, x, hxs, hx⟩ := h
  obtain ⟨ys, hys, -⟩ := hr
  refine ⟨ys ++ xs, x, ?_, hx⟩
  rw [hys, hxs, List.append_assoc]

/-- A token of some kind behind other items. -/
theorem of_kind {k : TokenKind} (hr : r.Ahead s) (hfinal : r.final.kind = .endOfInput)
    (hkind : r.current.kind = k) (hk : k ≠ .endOfInput ∧ k ≠ .semicolon) :
    s.Unended r.advance := by
  obtain rfl := hkind
  exact .of_ahead (.single hfinal hk.1 hk.2) hr

end Input.Unended

/-- No semicolon ends the phrase, unless it is a separator of the phrase. -/
def Phrase.Unended (s r : Input) : Phrase → Prop
  | operand .. | expression .. | simple .. => s.Unended r
  | operators .. => r = s ∨ s.Unended r
  | statement mode _ => mode.separator = false → s.Unended r
  | statements .. => True

namespace Reads

variable {n : Nat} {ph : Phrase} {mode : StatementMode} {s r : Input} {t : Tree}

theorem unended (h : Reads n ph s r) (hfinal : s.final.kind = .endOfInput) :
    ph.Unended s r := by
  induction h with
  | literal hvalue =>
    refine .single hfinal (fun h => ?_) fun h => ?_ <;> simp [Literal.ofToken?, h] at hvalue
  | @group _ _ s _ _ _ hinner hclose =>
    exact .of_kind (hinner.ahead.trans (.advance s)) (hinner.kind_final hfinal) hclose (by decide)
  | @unary _ _ s _ _ _ _ _ ih => exact .of_ahead (ih hfinal) (.advance s)
  | done => exact .inl rfl
  | trailing _ hleast =>
    refine .inr (.single hfinal (TokenKind.ne_endOfInput_of_lt_binaryPrecedence hleast) ?_)
    intro hkind
    rw [hkind] at hleast
    exact Nat.not_lt_zero _ hleast
  | @binary _ _ s _ _ _ _ _ _ _ hright hrest ihright ihrest =>
    rcases ihrest (hright.kind_final hfinal) with rfl | hlast
    · exact .inr (.of_ahead (ihright hfinal) (.advance s))
    · exact .inr (.of_ahead hlast (hright.ahead.trans (.advance s)))
  | expression hfirst _ ihfirst ihrest =>
    rcases ihrest (hfirst.kind_final hfinal) with rfl | hlast
    · exact ihfirst hfinal
    · exact .of_ahead hlast hfirst.ahead
  | @convert _ _ s _ _ _ _ _ hinner hclose =>
    exact .of_kind ((hinner.ahead.trans (.advance _)).trans (.advance s))
      (hinner.kind_final hfinal) hclose (by decide)
  | breakLoop _ hkind | continueLoop _ hkind =>
    exact .of_kind (.refl _) hfinal hkind (by decide)
  | @returnValue _ _ s _ _ _ _ _ _ ih => exact .of_ahead (ih hfinal rfl) (.advance s)
  | value _ ih => exact ih hfinal
  | @block _ _ s _ _ _ hinner =>
    exact fun _ => .of_kind (hinner.ahead.trans (.advance s)) (hinner.kind_final hfinal)
      hinner.kind_of_statements (by decide)
  | unseparated _ _ ih => exact fun _ => ih hfinal
  | separated hmode =>
    intro hnone
    rw [hmode] at hnone
    exact Bool.noConfusion hnone
  | last | more => exact trivial

/-- A statement that others follow, or that is whole, is read before any other input. -/
theorem statement_upTo (h : Reads n (.statement mode t) s r) (hmode : mode.separator = true)
    (hfinal : s.final.kind = .endOfInput) (hwhole : r.items ≠ [] ∨ Concludes s.tokens [t])
    (e : Input) : Reads n (.statement mode t) (s.upTo 0 e) (r.upTo 0 e) := by
  by_cases hr : 0 < r.items.length
  · exact h.upTo hfinal (Nat.zero_le _) (.inl hr)
  have hnil : r.items = [] := List.length_eq_zero_iff.1 (Nat.eq_zero_of_not_pos hr)
  cases h with
  | @block _ _ _ r _ hopen hinner =>
    -- The brace that closes the block is behind its statements.
    have hr : 0 < r.items.length := Input.lt_of_le_advance (hinner.kind_final hfinal)
      (by rw [hinner.kind_of_statements]; decide) (Nat.zero_le _)
    have hs : 0 < s.items.length := Input.lt_of_le_advance hfinal (by rw [hopen]; decide)
      (Nat.zero_le _)
    have hinner' := hinner.upTo (e := e) hfinal (Nat.zero_le _) (.inl hr)
    rw [← Input.advance_upTo hs] at hinner'
    rw [← Input.current_upTo hs e] at hopen ⊢
    rw [← Input.advance_upTo hr]
    exact .block hopen hinner'
  | unseparated hnone =>
    rw [hmode] at hnone
    exact Bool.noConfusion hnone
  | @separated _ _ _ r' _ _ _ hsimple hseparator =>
    rcases hseparator with ⟨hkind, rfl⟩ | ⟨hkind, hbreak, rfl⟩
    · have hr' : 0 < r'.items.length := Input.lt_of_le_advance (hsimple.kind_final hfinal)
        (by rw [hkind]; decide) (Nat.zero_le _)
      refine .separated hmode (hsimple.upTo hfinal (Nat.zero_le _) (.inl hr')) (.inl ⟨?_, ?_⟩)
      · rw [Input.current_upTo hr']
        exact hkind
      · exact (Input.advance_upTo hr' e).symm
    · -- The end of the input was its separator, and so its last token is no semicolon.
      obtain ⟨xs, x, hitems, hx⟩ : s.Unended r := hsimple.unended hfinal
      have htokens : s.tokens = xs.map Item.token ++ [x.token] := by
        rw [Input.tokens, hitems, hnil, List.map_append, List.map_singleton]
      rw [htokens] at hwhole
      rcases hwhole with hne | hempty | ⟨u, hu, hsemicolon⟩ | ⟨v, hv, hblock⟩
      · exact absurd hnil hne
      · exact absurd hempty (by simp)
      · rw [List.getLast?_concat] at hu
        obtain rfl := Option.some.inj hu
        exact absurd hsemicolon hx
      · obtain rfl : t = v := Option.some.inj hv
        have hno : t.isBlock = false := hsimple.laidOut.1
        rw [hno] at hblock
        exact Bool.noConfusion hblock

/-- There are no statements without items. -/
theorem statements_eq_nil {closing : TokenKind} {ss : List Tree}
    (h : Reads n (.statements closing mode ss) s r) (hfinal : s.final.kind = .endOfInput)
    (hs : s.items = []) : ss = [] := by
  cases h with
  | last => rfl
  | more hfirst =>
    have hlength := hfirst.length_lt hfinal rfl
    rw [hs] at hlength
    exact absurd hlength (Nat.not_lt_zero _)

end Reads

/-! ### Statements one after another -/

namespace Parser

variable {n : Nat} {mode : StatementMode} {e r s : Input} {ss : List Tree}

/-- **Whole statements leave nothing behind.**  Where others follow them, these are read
as they are on their own. -/
theorem result_statements_of_reads (h : Reads n (.statements .endOfInput mode ss) s r)
    (hmode : mode.separator = true) (hfinal : s.final.kind = .endOfInput)
    (hkinds : ∀ t ∈ s.tokens, t.kind ≠ .endOfInput) (hconcludes : Concludes s.tokens ss)
    (he : e.final.kind = .endOfInput) :
    (statements (· = .endOfInput) (statement (levels n) mode) (s.upTo 0 e)).result =
      (statements (· = .endOfInput) (statement (levels n) mode) e).result.map (ss ++ ·) := by
  have hend : decide (TokenKind.endOfInput = .endOfInput) := by decide
  induction ss generalizing s with
  | nil =>
    cases h with
    | last hclose =>
      have hitems := Input.items_eq_nil hkinds hclose
      rw [Input.upTo_of_length_le (by rw [hitems]; exact Nat.le_refl _)]
      cases (statements (· = .endOfInput) (statement (levels n) mode) e).result <;> rfl
  | cons t ss ih =>
    cases h with
    | @more _ _ _ _ s' _ _ _ hfirst hrest =>
      obtain ⟨xs, hitems, -⟩ := hfirst.ahead
      have htokens : s.tokens = xs.map Item.token ++ s'.tokens := by
        rw [Input.tokens, hitems, List.map_append, Input.tokens]
      have hkinds' : ∀ t ∈ s'.tokens, t.kind ≠ .endOfInput := fun t ht =>
        hkinds t (by rw [htokens]; exact List.mem_append_right _ ht)
      -- The statement is the last one, or items of the others follow it.
      have hwhole : (s'.items ≠ [] ∨ Concludes s.tokens [t]) ∧ Concludes s'.tokens ss := by
        by_cases hs' : s'.items = []
        · obtain rfl := hrest.statements_eq_nil (hfirst.kind_final hfinal) hs'
          exact ⟨.inr hconcludes, .inl (congrArg (List.map Item.token) hs')⟩
        · have htokens' : s'.tokens ≠ [] := fun h => hs' (List.map_eq_nil_iff.1 h)
          have hss : ss ≠ [] := by
            rintro rfl
            cases hrest with
            | last hclose => exact hs' (Input.items_eq_nil hkinds' hclose)
          exact ⟨.inl hs', (htokens ▸ hconcludes).tail htokens' hss⟩
      have hfirst' := hfirst.statement_upTo hmode hfinal hwhole.1 e
      have hfinal' : (s.upTo 0 e).final.kind = .endOfInput := he
      have hends : decide ((s.upTo 0 e).current.kind = .endOfInput) = false :=
        decide_eq_false hfirst'.ne_of_statement.1
      rw [result_statements_of_gives hend hends hfinal' (((agrees n).statement hfinal').2 hfirst'),
        ih hrest (hfirst.kind_final hfinal) hkinds' hwhole.2]
      cases (statements (· = .endOfInput) (statement (levels n) mode) e).result <;> rfl

/-- The root of a program with these contents. -/
def rootOf : Except Failure (List Tree) → Tree
  | .ok ss => .compound .nowhere ss
  | .error f => .bad f.diagnostic

/-- The statements of a program. -/
def contents (o : ParseOptions) : Parser (List Tree) :=
  statements (· = .endOfInput) (statement (levels maxNesting) o.statementMode)

theorem root_parse (o : ParseOptions) (s : Input) :
    (parse o s).root = rootOf (contents o s).result := by
  have hprogram : program o = contents o >>= fun ss => return .compound .nowhere ss := by
    rw [program, grammar_eq_above]
    rfl
  rcases gives_or_fails (contents o) s with ⟨ss, r, h⟩ | ⟨f, h⟩
  · rw [h.1]
    refine (parse_of_gives_program (t := .compound .nowhere ss) (r := r) ?_).1
    rw [hprogram]
    exact gives_bind.2 ⟨ss, r, h, gives_pure.2 ⟨rfl, rfl⟩⟩
  · rw [show (contents o s).result = _ from h]
    refine parse_of_fails ?_
    rw [hprogram]
    exact fails_bind.2 (.inl h)

end Parser

/-! ### Programs -/

/-- Behind the tokens of a program that is concluded the statements of others are read. -/
theorem Parser.result_contents_append {o : ParseOptions} {a b : List Token} {A : List Tree}
    (hkinds : ∀ t ∈ a, t.kind ≠ .endOfInput) (ha : parseTokens o a = .compound .nowhere A)
    (hconcludes : Concludes (a.filter (·.kind ≠ .newLine)) A) (hb : b ≠ []) :
    (contents o (.ofTokens (a ++ b))).result =
      (contents o (.ofTokens b)).result.map (A ++ ·) := by
  obtain ⟨last, -, hinput⟩ := Input.exists_ofTokens_eq hkinds
  obtain ⟨r, hreads⟩ := parseTokens_eq_compound_iff.1 ha
  obtain ⟨e, hnext, happend⟩ := Input.exists_sameNext_append a hb
  have hfinal : e.final.kind = .endOfInput := hnext.final_eq ▸ Input.kind_final_ofTokens b
  have hjoined : e.joined false a = (Input.ofTokens a).upTo 0 e := by
    rw [hinput, Input.joined, Input.upTo, Input.joined, List.append_nil, Nat.sub_zero,
      List.take_length]
  have htokens : (Input.ofTokens a).tokens = a.filter (·.kind ≠ .newLine) := by
    rw [hinput, Input.joined, List.append_nil, Input.tokens_itemsFrom]
  calc (contents o (.ofTokens (a ++ b))).result
      = (contents o ((Input.ofTokens a).upTo 0 e)).result := by rw [happend, hjoined]
    _ = (contents o e).result.map (A ++ ·) :=
        result_statements_of_reads hreads rfl (Input.kind_final_ofTokens a)
          (by rw [htokens]; exact fun t ht => hkinds t (List.mem_of_mem_filter ht))
          (by rw [htokens]; exact hconcludes) hfinal
    _ = (contents o (.ofTokens b)).result.map (A ++ ·) :=
        congrArg (·.map (A ++ ·)) (result_statements_of_sameNext (by decide) hfinal hnext)

/-- **Programs compose.**  Where a program is concluded, the tokens of another are read
behind it as they are on their own: the statements of the one stand before those of the
other, and an error in the other is the error of both. -/
theorem parseTokens_append {o : ParseOptions} {a b : List Token} {A : List Tree}
    (hkinds : ∀ t ∈ a, t.kind ≠ .endOfInput) (ha : parseTokens o a = .compound .nowhere A)
    (hconcludes : Concludes (a.filter (·.kind ≠ .newLine)) A) :
    (parseTokens o (a ++ b)).isBad = (parseTokens o b).isBad ∧
      (∀ B, parseTokens o b = .compound .nowhere B →
        parseTokens o (a ++ b) = .compound .nowhere (A ++ B)) ∧
      ∀ d, parseTokens o b = .bad d → parseTokens o (a ++ b) = .bad d := by
  by_cases hb : b = []
  · obtain rfl := hb
    have hnil : parseTokens o [] = .compound .nowhere [] := rfl
    rw [List.append_nil, ha, hnil]
    refine ⟨rfl, fun B hB => ?_, nofun⟩
    obtain rfl : [] = B := (Tree.compound.inj hB).2
    rw [List.append_nil]
  · have hroot : ∀ ts, parseTokens o ts = Parser.rootOf (Parser.contents o (.ofTokens ts)).result :=
      fun ts => Parser.root_parse o (.ofTokens ts)
    rw [hroot, hroot, Parser.result_contents_append hkinds ha hconcludes hb]
    cases (Parser.contents o (.ofTokens b)).result with
    | ok ss =>
      refine ⟨rfl, fun B hB => ?_, nofun⟩
      obtain rfl : ss = B := (Tree.compound.inj hB).2
      rfl
    | error f => exact ⟨rfl, nofun, fun d hd => hd⟩

/-- The tokens of `1;` and a line break. -/
def oneLine : List Token :=
  [⟨.integer, "1", ⟨1, 1⟩⟩, ⟨.semicolon, ";", ⟨1, 2⟩⟩, ⟨.newLine, "<NL>", ⟨1, 3⟩⟩]

/-- The tokens of `-2`. -/
def minusTwo : List Token :=
  [⟨.minus, "-", ⟨2, 1⟩⟩, ⟨.integer, "2", ⟨2, 2⟩⟩, .endAt ⟨2, 3⟩]

/-- Behind `1;` a sign stands before its operand, and not between two. -/
theorem parseTokens_append_minusTwo :
    (∀ t ∈ oneLine, t.kind ≠ .endOfInput) ∧
      parseTokens {} oneLine = .compound .nowhere [.literal ⟨1, 1⟩ (.integer "1")] ∧
      Concludes (oneLine.filter (·.kind ≠ .newLine)) [.literal ⟨1, 1⟩ (.integer "1")] ∧
      parseTokens {} (oneLine ++ minusTwo) =
        .compound .nowhere [.literal ⟨1, 1⟩ (.integer "1"),
          .unary ⟨2, 1⟩ .minus (.literal ⟨2, 2⟩ (.integer "2"))] := by
  have hkinds : ∀ t ∈ oneLine, t.kind ≠ .endOfInput := by decide
  have hone : parseTokens {} oneLine = .compound .nowhere [.literal ⟨1, 1⟩ (.integer "1")] := rfl
  have htwo : parseTokens {} minusTwo =
      .compound .nowhere [.unary ⟨2, 1⟩ .minus (.literal ⟨2, 2⟩ (.integer "2"))] := rfl
  have hconcludes : Concludes (oneLine.filter (·.kind ≠ .newLine))
      [.literal ⟨1, 1⟩ (.integer "1")] := .inr (.inl ⟨_, rfl, rfl⟩)
  exact ⟨hkinds, hone, hconcludes, (parseTokens_append hkinds hone hconcludes).2.1 _ htwo⟩

end ScriptSyntax
