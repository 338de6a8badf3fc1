/-
Fronts of programs.

`Front n g s e` says that what stands between `s` and `e` is the front of what
the goal `g` names: an operand that is awaited, a group or a block that is still
open, a statement without its separator.

* `Front.after` and `Front.of_statements` — whole statements may stand before a
  front;
* `Front.completes` — some tokens behind a front make it whole.

Design notes: an operand that is awaited is completed by a literal, and all else
by closing brackets and semicolons from the inside out.  A statement that a line
break ends, or the end of the input, counts as one whose separator is missing if
nothing stands behind it: with other tokens in that place there might be none.
-/
import ScriptSyntax.Proofs.Parser.Locality

namespace ScriptSyntax

/-! ### Fronts -/

/-- What is to be read: a phrase without its tree. -/
inductive Goal where
  | operand (least : Nat)
  | operators (least : Nat)
  | expression (least : Nat)
  | simple (mode : StatementMode)
  | statement (mode : StatementMode)
  | statements (closing : TokenKind) (mode : StatementMode)

/-- What stands between two inputs is the front of something. -/
inductive Front : Nat → Goal → Input → Input → Prop where
  /-- An operand is awaited. -/
  | operand {n least : Nat} (s : Input) : Front n (.operand least) s s
  | group {n least : Nat} {s e : Input} (hopen : s.current.kind = .leftParen)
      (hinner : Front n (.statement .expression) s.advance e) :
      Front (n + 1) (.operand least) s e
  | unary {n least : Nat} {s e : Input} (hoperator : s.current.kind.IsUnary)
      (hleast : least ≤ s.current.kind.unaryPrecedence)
      (hinner : Front n (.expression s.current.kind.unaryPrecedence) s.advance e) :
      Front (n + 1) (.operand least) s e
  | right {n least : Nat} {s e : Input} (hoperator : s.current.kind.IsBinary)
      (hleast : least < s.current.kind.binaryPrecedence)
      (hright : Front n (.expression s.current.kind.binaryPrecedence) s.advance e) :
      Front n (.operators least) s e
  | operators {n least : Nat} {s s' e : Input} {right : Tree}
      (hoperator : s.current.kind.IsBinary) (hleast : least < s.current.kind.binaryPrecedence)
      (hright : Reads n (.expression s.current.kind.binaryPrecedence right) s.advance s')
      (hrest : Front n (.operators least) s' e) : Front n (.operators least) s e
  | first {n least : Nat} {s e : Input} (hfirst : Front n (.operand least) s e) :
      Front n (.expression least) s e
  | expression {n least : Nat} {s s' e : Input} {first : Tree}
      (hfirst : Reads n (.operand least first) s s') (hrest : Front n (.operators least) s' e) :
      Front n (.expression least) s e
  | convert {n : Nat} {mode : StatementMode} {s e : Input} {target : ValueType}
      (htarget : Parser.typeOf? s.current = some target) (hopen : s.followedBy .leftParen)
      (hinner : Front n (.statement .expression) s.advance.advance e) :
      Front (n + 1) (.simple mode) s e
  | returnValue {n : Nat} {mode : StatementMode} {s e : Input} (hmode : mode.functionControl)
      (hkind : s.current.kind = .word) (htext : s.current.text = "return")
      (hvalue : Front n (.statement .expression) s.advance e) : Front n (.simple mode) s e
  | value {n : Nat} {mode : StatementMode} {s e : Input}
      (hvalue : Front n (.expression 0) s e) : Front n (.simple mode) s e
  /-- Only what follows a statement is awaited. -/
  | simple {n : Nat} {mode : StatementMode} {s e : Input} {t : Tree}
      (hsimple : Reads n (.simple mode t) s e) : Front n (.simple mode) s e
  | block {n : Nat} {mode : StatementMode} {s e : Input} (hopen : s.current.kind = .leftBrace)
      (hinner : Front n (.statements .rightBrace mode.withSeparator) s.advance e) :
      Front (n + 1) (.statement mode) s e
  | statement {n : Nat} {mode : StatementMode} {s e : Input}
      (hsimple : Front n (.simple mode) s e) : Front n (.statement mode) s e
  /-- Only what follows a statement is awaited, and no separator. -/
  | whole {n : Nat} {mode : StatementMode} {s e : Input} {t : Tree}
      (hmode : mode.separator = false) (hwhole : Reads n (.statement mode t) s e) :
      Front n (.statement mode) s e
  /-- The end of some statements is awaited, or another one. -/
  | last {n : Nat} {closing : TokenKind} {mode : StatementMode} (s : Input) :
      Front n (.statements closing mode) s s
  | more {n : Nat} {closing : TokenKind} {mode : StatementMode} {s e : Input}
      (hfirst : Front n (.statement mode) s e) : Front n (.statements closing mode) s e
  | afterBlock {n : Nat} {closing : TokenKind} {mode : StatementMode} {s s' e : Input}
      {ts : List Tree} (hopen : s.current.kind = .leftBrace)
      (hinner : Reads n (.statements .rightBrace mode.withSeparator ts) s.advance s')
      (hrest : Front (n + 1) (.statements closing mode) s'.advance e) :
      Front (n + 1) (.statements closing mode) s e
  | afterSemicolon {n : Nat} {closing : TokenKind} {mode : StatementMode} {s s' e : Input}
      {t : Tree} (hmode : mode.separator = true) (hfirst : Reads n (.simple mode t) s s')
      (hseparator : s'.current.kind = .semicolon)
      (hrest : Front n (.statements closing mode) s'.advance e) :
      Front n (.statements closing mode) s e
  /-- A line break counts as a separator only if the token behind it stays. -/
  | afterBreak {n : Nat} {closing : TokenKind} {mode : StatementMode} {s s' e : Input}
      {t : Tree} (hmode : mode.separator = true) (hfirst : Reads n (.simple mode t) s s')
      (hseparator : Parser.SeparatorAt s' s') (hstays : e.items.length < s'.items.length)
      (hrest : Front n (.statements closing mode) s' e) : Front n (.statements closing mode) s e

namespace Front

variable {n : Nat} {g : Goal} {s e : Input} {closing : TokenKind} {mode : StatementMode}

theorem ahead (h : Front n g s e) : e.Ahead s := by
  induction h with
  | operand | last => exact .refl _
  | group _ _ ih | unary _ _ _ ih | right _ _ _ ih | returnValue _ _ _ _ ih | block _ _ ih =>
    exact ih.trans (.advance _)
  | operators _ _ hright _ ih => exact (ih.trans hright.ahead).trans (.advance _)
  | convert _ _ _ ih => exact (ih.trans (.advance _)).trans (.advance _)
  | first _ ih | value _ ih | statement _ ih | more _ ih => exact ih
  | expression hfirst _ ih => exact ih.trans hfirst.ahead
  | simple hsimple => exact hsimple.ahead
  | whole _ hwhole => exact hwhole.ahead
  | afterBlock _ hinner _ ih =>
    exact ((ih.trans (.advance _)).trans hinner.ahead).trans (.advance _)
  | afterSemicolon _ hfirst _ _ ih => exact (ih.trans (.advance _)).trans hfirst.ahead
  | afterBreak _ hfirst _ _ _ ih => exact ih.trans hfirst.ahead

/-- A front of operators takes one. -/
theorem length_lt {least : Nat} (h : Front n (.operators least) s e)
    (hfinal : s.final.kind = .endOfInput) : e.items.length < s.items.length := by
  cases h with
  | right _ hleast hright =>
    exact Input.lt_of_le_advance hfinal (TokenKind.ne_endOfInput_of_lt_binaryPrecedence hleast)
      hright.ahead.length_le
  | operators _ hleast hright hrest =>
    exact Input.lt_of_le_advance hfinal (TokenKind.ne_endOfInput_of_lt_binaryPrecedence hleast)
      (hrest.ahead.trans hright.ahead).length_le

/-- A statement may begin with an operand. -/
theorem begins (s : Input) : Front n (.statement mode) s s :=
  .statement (.value (.first (.operand s)))

/-- A statement, and a front of those that follow it. -/
theorem after {s' : Input} {t : Tree} (hmode : mode.separator = true)
    (hfirst : Reads n (.statement mode t) s s') (hrest : Front n (.statements closing mode) s' e) :
    Front n (.statements closing mode) s e := by
  cases hfirst with
  | block hopen hinner => exact .afterBlock hopen hinner hrest
  | unseparated hnone =>
    rw [hmode] at hnone
    exact Bool.noConfusion hnone
  | separated _ hsimple hseparator =>
    rcases hseparator with ⟨hkind, rfl⟩ | ⟨hkind, hbreak, rfl⟩
    · exact .afterSemicolon hmode hsimple hkind hrest
    · by_cases hstays : e.items.length < s'.items.length
      · exact .afterBreak hmode hsimple (.inr ⟨hkind, hbreak, rfl⟩) hstays hrest
      · -- Nothing stands behind the statement, and its separator is awaited.
        obtain rfl := hrest.ahead.eq_of_length_le (Nat.le_of_not_lt hstays)
        exact .more (.statement (.simple hsimple))

/-- Statements that the end of the input ends, where something else should. -/
theorem of_statements {ts : List Tree} (hmode : mode.separator = true)
    (h : Reads n (.statements .endOfInput mode ts) s e) :
    Front n (.statements closing mode) s e := by
  induction ts generalizing s with
  | nil =>
    cases h with
    | last => exact .last _
  | cons t ts ih =>
    cases h with
    | more hfirst hrest => exact after hmode hfirst (ih hrest)

end Front

/-! ### Completions -/

namespace Goal

/-- The goal is reached. -/
def Reached (n : Nat) (s r : Input) : Goal → Prop
  | operand least => ∃ t, Reads n (.operand least t) s r
  | operators least => ∀ left, ∃ t, Reads n (.operators least left t) s r
  | expression least => ∃ t, Reads n (.expression least t) s r
  | simple mode => ∃ t, Reads n (.simple mode t) s r
  | statement mode => ∃ t, Reads n (.statement mode t) s r
  | statements closing mode => ∃ ts, Reads n (.statements closing mode ts) s r

/-- The token that statements go on to. -/
def closing? : Goal → Option TokenKind
  | statements closing _ => some closing
  | _ => none

/-- What may stand behind a goal: no operator, and what closes it. -/
structure Before (g : Goal) (r : Input) : Prop where
  final : r.final.kind = .endOfInput
  precedence : r.current.kind.binaryPrecedence = 0
  closing : ∀ kind, g.closing? = some kind → r.current.kind = kind

/-- The statements of a program may stand before the end of the input. -/
theorem before_end (mode : StatementMode) {last : Token} (hlast : last.kind = .endOfInput) :
    (statements .endOfInput mode).Before ⟨[], last⟩ := by
  have hcurrent : (⟨[], last⟩ : Input).current.kind = .endOfInput := hlast
  refine ⟨hlast, ?_, ?_⟩
  · rw [hcurrent]
    rfl
  · intro kind hkind
    exact hcurrent.trans (Option.some.inj hkind)

end Goal

/-- A token of some kind. -/
def TokenKind.sign (k : TokenKind) : Token :=
  ⟨k, k.spelling, .nowhere⟩

namespace Input

/-- The input with some tokens in front of it, the first of which follows a line
break if `broken` says so. -/
def joined (broken : Bool) (ts : List Token) (r : Input) : Input :=
  ⟨itemsFrom broken ts ++ r.items, r.final⟩

theorem exists_itemsFrom_append (broken : Bool) (ts us : List Token) :
    ∃ broken', itemsFrom broken (ts ++ us) = itemsFrom broken ts ++ itemsFrom broken' us := by
  induction ts generalizing broken with
  | nil => exact ⟨broken, rfl⟩
  | cons t ts ih =>
    rw [List.cons_append, itemsFrom, itemsFrom]
    by_cases ht : t.kind = .newLine
    · rw [if_pos ht, if_pos ht]
      exact ih true
    · rw [if_neg ht, if_neg ht]
      obtain ⟨broken', h⟩ := ih false
      exact ⟨broken', congrArg _ h⟩

theorem exists_joined_append (broken : Bool) (ts us : List Token) (r : Input) :
    ∃ broken', r.joined broken (ts ++ us) = (r.joined broken' us).joined broken ts := by
  obtain ⟨broken', h⟩ := exists_itemsFrom_append broken ts us
  refine ⟨broken', ?_⟩
  rw [joined, h, List.append_assoc]
  rfl

theorem joined_cons {t : Token} (h : t.kind ≠ .newLine) (broken : Bool) (ts : List Token)
    (r : Input) :
    r.joined broken (t :: ts) = ⟨⟨t, broken⟩ :: (r.joined false ts).items, r.final⟩ := by
  rw [joined, itemsFrom, if_neg h]
  rfl

theorem joined_sign {k : TokenKind} (h : k ≠ .newLine) (broken : Bool) (r : Input) :
    r.joined broken [k.sign] = ⟨⟨k.sign, broken⟩ :: r.items, r.final⟩ :=
  joined_cons h broken [] r

/-- The input of tokens none of which is an end token. -/
theorem exists_ofTokens_eq {ts : List Token} (h : ∀ t ∈ ts, t.kind ≠ .endOfInput) :
    ∃ last : Token, last.kind = .endOfInput ∧ ofTokens ts = joined false ts ⟨[], last⟩ := by
  unfold ofTokens
  cases hlast : ts.getLast? with
  | none =>
    obtain rfl := List.getLast?_eq_none_iff.1 hlast
    exact ⟨_, rfl, rfl⟩
  | some t =>
    have ht : t.kind ≠ .endOfInput := h t (List.mem_of_getLast? hlast)
    refine ⟨.endAt t.span, rfl, ?_⟩
    dsimp only
    rw [if_neg ht, joined, List.append_nil]

/-- Behind other tokens an input goes on as it does on its own, except that a line
break may stand before it. -/
theorem exists_ofTokens_append (us : List Token) {ts : List Token} (h : ts ≠ []) :
    ∃ broken vs, (ofTokens ts).items = itemsFrom false vs ∧
      ofTokens (us ++ ts) = joined false us ⟨itemsFrom broken vs, (ofTokens ts).final⟩ := by
  obtain ⟨vs, last, rfl⟩ : ∃ vs last, ts = vs ++ [last] :=
    ⟨_, _, (List.dropLast_concat_getLast h).symm⟩
  by_cases hlast : last.kind = .endOfInput
  · obtain ⟨broken, hbroken⟩ := exists_itemsFrom_append false us vs
    refine ⟨broken, vs, ?_, ?_⟩
    · simp [ofTokens, hlast]
    · rw [joined, ← hbroken]
      simp [ofTokens, hlast, ← List.append_assoc]
  · obtain ⟨broken, hbroken⟩ := exists_itemsFrom_append false us (vs ++ [last])
    refine ⟨broken, vs ++ [last], ?_, ?_⟩
    · simp [ofTokens, hlast]
    · rw [joined, ← hbroken]
      simp [ofTokens, hlast, ← List.append_assoc]

/-- Tokens none of which is an end token stand in front of the input of what follows. -/
theorem exists_joined_of_tokens {us : List Token} (h : ∀ t ∈ us, t.kind ≠ .endOfInput)
    (ts : List Token) : ∃ e : Input, ofTokens (us ++ ts) = e.joined false us := by
  by_cases hts : ts = []
  · obtain ⟨last, -, hlast⟩ := exists_ofTokens_eq h
    exact ⟨⟨[], last⟩, by rw [hts, List.append_nil, hlast]⟩
  · obtain ⟨_, _, -, happend⟩ := exists_ofTokens_append us hts
    exact ⟨_, happend⟩

end Input

/-- Some tokens in the place of the last `k` items of `s` reach the goal, whatever
may stand behind it. -/
def Goal.Completes (n : Nat) (g : Goal) (s : Input) (k : Nat) : Prop :=
  ∃ ts, ∀ broken r, g.Before r → g.Reached n (s.upTo k (r.joined broken ts)) r

namespace Goal.Completes

variable {m n k : Nat} {g g' : Goal} {s s' : Input}

/-- What completes one goal completes another. -/
theorem imp (h : g.Completes n s k)
    (hclosing : ∀ c, g.closing? = some c → g'.closing? = some c)
    (hreached : ∀ e r, g'.Before r → g.Reached n (s.upTo k e) r → g'.Reached m (s'.upTo k e) r) :
    g'.Completes m s' k := by
  obtain ⟨ts, hts⟩ := h
  refine ⟨ts, fun broken r hr => hreached _ r hr (hts broken r ?_)⟩
  exact ⟨hr.final, hr.precedence, fun c hg => hr.closing c (hclosing c hg)⟩

/-- What completes one goal completes another together with a closing token. -/
theorem closed (h : g.Completes n s k) (kind : TokenKind) (hkind : kind.binaryPrecedence = 0)
    (hbreak : kind ≠ .newLine) (hclosing : ∀ c, g.closing? = some c → kind = c)
    (hreached : ∀ e r, g.Reached n (s.upTo k e) r → r.current.kind = kind →
      g'.Reached m (s'.upTo k e) r.advance) : g'.Completes m s' k := by
  obtain ⟨ts, hts⟩ := h
  refine ⟨ts ++ [kind.sign], fun broken r hr => ?_⟩
  obtain ⟨broken', hjoined⟩ := Input.exists_joined_append broken ts [kind.sign] r
  rw [hjoined, Input.joined_sign hbreak]
  exact hreached _ _ (hts broken ⟨⟨kind.sign, broken'⟩ :: r.items, r.final⟩
    ⟨hr.final, hkind, hclosing⟩) rfl

/-- Statements are completed behind the first of them. -/
theorem after {closing : TokenKind} {mode : StatementMode}
    (h : (Goal.statements closing mode).Completes n s k)
    (hfirst : ∀ e, ∃ t, Reads n (.statement mode t) (s'.upTo k e) (s.upTo k e)) :
    (Goal.statements closing mode).Completes n s' k := by
  refine h.imp (fun _ hg => hg) fun e r _ ⟨ts, hts⟩ => ?_
  obtain ⟨t, ht⟩ := hfirst e
  exact ⟨t :: ts, .more ht hts⟩

end Goal.Completes

namespace Front

/-- **Every front can be completed.** -/
theorem completes {n : Nat} {g : Goal} {s e : Input} (h : Front n g s e)
    (hfinal : s.final.kind = .endOfInput) : g.Completes n s e.items.length := by
  -- By induction on the front, whose innermost goal is completed first: every rule
  -- around it adds a closing token or none.
  induction h with
  | operand s =>
    refine ⟨[TokenKind.null.sign], fun broken r _ => ?_⟩
    rw [Input.upTo_of_length_le (Nat.le_refl _), Input.joined_sign (by decide)]
    exact ⟨_, Reads.literal (v := .null) rfl⟩
  | @group _ _ s e hopen hinner ih =>
    have hs : e.items.length < s.items.length :=
      Input.lt_of_le_advance hfinal (by rw [hopen]; decide) hinner.ahead.length_le
    refine (ih hfinal).closed .rightParen rfl (by decide) (fun _ hg => nomatch hg)
      fun e' r ⟨t, ht⟩ hclose => ?_
    rw [← Input.advance_upTo hs] at ht
    rw [← Input.current_upTo hs e'] at hopen
    exact ⟨_, .group hopen ht hclose⟩
  | @unary _ _ s e hoperator hleast hinner ih =>
    have hs : e.items.length < s.items.length :=
      Input.lt_of_le_advance hfinal hoperator.ne_endOfInput hinner.ahead.length_le
    refine (ih hfinal).imp (fun _ hg => nomatch hg) fun e' r _ ⟨t, ht⟩ => ?_
    rw [← Input.advance_upTo hs, ← Input.current_upTo hs e'] at ht
    rw [← Input.current_upTo hs e'] at hoperator hleast
    exact ⟨_, .unary hoperator hleast ht⟩
  | @right _ _ s e hoperator hleast hright ih =>
    have hs : e.items.length < s.items.length :=
      Input.lt_of_le_advance hfinal (TokenKind.ne_endOfInput_of_lt_binaryPrecedence hleast)
        hright.ahead.length_le
    refine (ih hfinal).imp (fun _ hg => nomatch hg) fun e' r hr ⟨t, ht⟩ left => ?_
    rw [← Input.advance_upTo hs, ← Input.current_upTo hs e'] at ht
    rw [← Input.current_upTo hs e'] at hoperator hleast
    exact ⟨_, .binary hoperator hleast ht (.done (hr.precedence ▸ Nat.zero_le _))⟩
  | @operators _ _ s s' e _ hoperator hleast hright hrest ih =>
    have hfinal' : s'.final.kind = .endOfInput := hright.kind_final hfinal
    have hs' : e.items.length < s'.items.length := hrest.length_lt hfinal'
    have hs : e.items.length < s.items.length := Nat.lt_of_lt_of_le hs'
      (hright.ahead.trans (.advance s)).length_le
    refine (ih hfinal').imp (fun _ hg => nomatch hg) fun e' r _ hoperators left => ?_
    have hright' := hright.upTo (e := e') hfinal (Nat.le_of_lt hs') (.inl hs')
    rw [← Input.advance_upTo hs, ← Input.current_upTo hs e'] at hright'
    rw [← Input.current_upTo hs e'] at hoperator hleast
    obtain ⟨t, ht⟩ := hoperators (.binary _ _ left _)
    exact ⟨_, .binary hoperator hleast hright' ht⟩
  | first _ ih =>
    refine (ih hfinal).imp (fun _ hg => nomatch hg) fun e' r hr ⟨t, ht⟩ => ?_
    exact ⟨_, .expression ht (.done (hr.precedence ▸ Nat.zero_le _))⟩
  | @expression _ _ s s' e _ hfirst hrest ih =>
    have hfinal' : s'.final.kind = .endOfInput := hfirst.kind_final hfinal
    have hs' : e.items.length < s'.items.length := hrest.length_lt hfinal'
    refine (ih hfinal').imp (fun _ hg => nomatch hg) fun e' r _ hoperators => ?_
    have hfirst' := hfirst.upTo (e := e') hfinal (Nat.le_of_lt hs') (.inl hs')
    obtain ⟨t, ht⟩ := hoperators _
    exact ⟨_, .expression hfirst' ht⟩
  | @convert _ _ s e _ htarget hopen hinner ih =>
    have hs' : e.items.length < s.advance.items.length := Input.lt_of_le_advance hfinal
      (by rw [Input.kind_of_followedBy hopen]; decide) hinner.ahead.length_le
    have hs : e.items.length < s.items.length := Nat.lt_of_lt_of_le hs' s.length_advance_le
    refine (ih hfinal).closed .rightParen rfl (by decide) (fun _ hg => nomatch hg)
      fun e' r ⟨t, ht⟩ hclose => ?_
    rw [← Input.advance_upTo hs', ← Input.advance_upTo hs] at ht
    rw [← Input.followedBy_upTo hs' e'] at hopen
    rw [← Input.current_upTo hs e'] at htarget
    exact ⟨_, .convert htarget hopen ht hclose⟩
  | @returnValue _ _ s e hmode hkind htext hvalue ih =>
    have hs : e.items.length < s.items.length :=
      Input.lt_of_le_advance hfinal (by rw [hkind]; decide) hvalue.ahead.length_le
    refine (ih hfinal).imp (fun _ hg => nomatch hg) fun e' r _ ⟨t, ht⟩ => ?_
    rw [← Input.advance_upTo hs] at ht
    rw [← Input.current_upTo hs e'] at hkind htext
    exact ⟨_, .returnValue hmode hkind htext ht⟩
  | value _ ih =>
    refine (ih hfinal).imp (fun _ hg => nomatch hg) fun e' r _ ⟨t, ht⟩ => ?_
    exact ⟨_, .value ht⟩
  | @simple _ _ s e _ hsimple =>
    refine ⟨[], fun broken r hr => ?_⟩
    have hsimple' := hsimple.upTo (e := r) hfinal (Nat.le_refl _) (.inr ⟨trivial, hr.precedence⟩)
    rw [Input.upTo_of_length_le (Nat.le_refl _)] at hsimple'
    exact ⟨_, hsimple'⟩
  | @block _ _ s e hopen hinner ih =>
    have hs : e.items.length < s.items.length :=
      Input.lt_of_le_advance hfinal (by rw [hopen]; decide) hinner.ahead.length_le
    refine (ih hfinal).closed .rightBrace rfl (by decide) (fun _ hg => Option.some.inj hg)
      fun e' r ⟨ts, hts⟩ _ => ?_
    rw [← Input.advance_upTo hs] at hts
    rw [← Input.current_upTo hs e'] at hopen
    exact ⟨_, .block hopen hts⟩
  | @statement _ mode s e _ ih =>
    by_cases hmode : mode.separator = true
    · refine (ih hfinal).closed .semicolon rfl (by decide) (fun _ hg => nomatch hg)
        fun e' r ⟨t, ht⟩ hkind => ?_
      exact ⟨_, .separated hmode ht (.inl ⟨hkind, rfl⟩)⟩
    · refine (ih hfinal).imp (fun _ hg => nomatch hg) fun e' r _ ⟨t, ht⟩ => ?_
      exact ⟨_, .unseparated (Bool.eq_false_iff.2 hmode) ht⟩
  | @whole _ _ s e _ hmode hwhole =>
    refine ⟨[], fun broken r hr => ?_⟩
    have hwhole' := hwhole.upTo (e := r) hfinal (Nat.le_refl _) (.inr ⟨hmode, hr.precedence⟩)
    rw [Input.upTo_of_length_le (Nat.le_refl _)] at hwhole'
    exact ⟨_, hwhole'⟩
  | last s =>
    refine ⟨[], fun broken r hr => ⟨[], ?_⟩⟩
    rw [Input.upTo_of_length_le (Nat.le_refl _)]
    exact .last (hr.closing _ rfl)
  | more _ ih =>
    refine (ih hfinal).imp (fun _ hg => nomatch hg) fun e' r hr ⟨t, ht⟩ => ?_
    exact ⟨_, .more ht (.last (hr.closing _ rfl))⟩
  | @afterBlock _ _ _ s s' e _ hopen hinner hrest ih =>
    have hfinal' : s'.final.kind = .endOfInput := hinner.kind_final hfinal
    have hs' : e.items.length < s'.items.length := Input.lt_of_le_advance hfinal'
      (by rw [hinner.kind_of_statements]; decide) hrest.ahead.length_le
    have hs : e.items.length < s.items.length := Nat.lt_of_lt_of_le hs'
      (hinner.ahead.trans (.advance s)).length_le
    refine (ih hfinal').after fun e' => ?_
    have hinner' := hinner.upTo (e := e') hfinal (Nat.le_of_lt hs') (.inl hs')
    rw [← Input.advance_upTo hs] at hinner'
    rw [← Input.advance_upTo hs']
    rw [← Input.current_upTo hs e'] at hopen
    exact ⟨_, .block hopen hinner'⟩
  | @afterSemicolon _ _ _ s s' e _ hmode hfirst hseparator hrest ih =>
    have hfinal' : s'.final.kind = .endOfInput := hfirst.kind_final hfinal
    have hs' : e.items.length < s'.items.length := Input.lt_of_le_advance hfinal'
      (by rw [hseparator]; decide) hrest.ahead.length_le
    refine (ih hfinal').after fun e' => ?_
    have hfirst' := hfirst.upTo (e := e') hfinal (Nat.le_of_lt hs') (.inl hs')
    rw [← Input.advance_upTo hs']
    rw [← Input.current_upTo hs' e'] at hseparator
    exact ⟨_, .separated hmode hfirst' (.inl ⟨hseparator, rfl⟩)⟩
  | @afterBreak _ _ _ s s' e _ hmode hfirst hseparator hstays hrest ih =>
    have hfinal' : s'.final.kind = .endOfInput := hfirst.kind_final hfinal
    refine (ih hfinal').after fun e' => ?_
    have hwhole : Reads _ (.statement _ _) s s' := .separated hmode hfirst hseparator
    exact ⟨_, hwhole.upTo hfinal (Nat.le_of_lt hstays) (.inl hstays)⟩

end Front

end ScriptSyntax
