/-
Programs end at the first end token.

What stands behind the first end token of some tokens is not looked at, and of a program
that can be read not even the end token is.

* `Input.ShortensTo` says of two inputs that the second is the first without what stands
  behind its first end token;
* `Parser.SameAt` — a parser gives the same from both, or fails for both;
* `Parser.sameBelow` — at every level of the grammar this is so;
* `parseTokens_end` — so for lists of tokens.

Design notes: a parser that takes the end token fails at once, and always at the end token
itself, so it is never asked what the two inputs are behind it.  Whether the end tokens are
the same is a parameter `strict` of all this: only failures depend on it.
-/
import ScriptSyntax.Proofs.Parser.Composition

namespace ScriptSyntax

variable {strict : Prop}

/-! ### Inputs -/

namespace Input

/-- The second input is the first up to its first end token, and if `strict` holds with
this end token. -/
inductive ShortensTo (strict : Prop) : Input → Input → Prop where
  | ending {s : Input} {last : Token} (hs : s.current.kind = .endOfInput)
      (hlast : last.kind = .endOfInput) (hstrict : strict → last = s.current) :
      ShortensTo strict s ⟨[], last⟩
  | item {x : Item} {xs ys : List Item} {last last' : Token}
      (hx : x.token.kind ≠ .endOfInput) (hrest : ShortensTo strict ⟨xs, last⟩ ⟨ys, last'⟩) :
      ShortensTo strict ⟨x :: xs, last⟩ ⟨x :: ys, last'⟩

namespace ShortensTo

variable {s t : Input}

theorem kind_final (h : s.ShortensTo strict t) : t.final.kind = .endOfInput := by
  induction h with
  | ending _ hlast _ => exact hlast
  | item _ _ ih => exact ih

/-- Both inputs are at their end, or they have the next token in common. -/
theorem cases (h : s.ShortensTo strict t) :
    (s.current.kind = .endOfInput ∧ t.current.kind = .endOfInput ∧
        (strict → t.current = s.current)) ∨
      (s.current.kind ≠ .endOfInput ∧ t.current = s.current ∧ t.afterBreak = s.afterBreak ∧
        s.advance.ShortensTo strict t.advance) := by
  cases h with
  | ending hs hlast hstrict => exact .inl ⟨hs, hlast, hstrict⟩
  | item hx hrest => exact .inr ⟨hx, rfl, rfl, hrest⟩

theorem length_le (h : s.ShortensTo strict t) : t.items.length ≤ s.items.length := by
  induction h with
  | ending => exact Nat.zero_le _
  | item _ _ ih => exact Nat.succ_le_succ ih

theorem kind_current (h : s.ShortensTo strict t) : t.current.kind = s.current.kind := by
  rcases h.cases with ⟨hs, ht, -⟩ | ⟨-, hcurrent, -⟩
  · rw [hs, ht]
  · rw [hcurrent]

theorem kind_current_of_length_le (h : s.ShortensTo strict t) (ht : t.items.length ≤ 0) :
    t.current.kind = .endOfInput := by
  rw [Input.current, List.length_eq_zero_iff.1 (Nat.le_zero.1 ht)]
  exact h.kind_final

theorem followedBy_eq (h : s.advance.ShortensTo strict t.advance) {k : TokenKind}
    (hk : k ≠ .endOfInput) : t.followedBy k = s.followedBy k := by
  rw [followedBy, followedBy]
  rcases h.cases with ⟨hs, ht, -⟩ | ⟨-, hcurrent, hbreak, -⟩
  · rw [hs, ht, beq_false_of_ne (Ne.symm hk), Bool.and_false, Bool.and_false]
  · rw [hcurrent, hbreak]

end ShortensTo

end Input

/-! ### Parsers -/

namespace Parser

variable {α β : Type} {s t : Input}

/-- What `p` gives from `s` the parser `q` gives from `t`, and goes on where `p` does; and
where `p` fails `q` fails, if `strict` holds in the same way. -/
structure SameAt (strict : Prop) (p q : Parser α) (s t : Input) : Prop where
  gives : ∀ {a : α} {r : Input}, p.Gives s a r → ∃ r', q.Gives t a r' ∧ r.ShortensTo strict r'
  fails : ∀ {f : Failure}, p.Fails s f → ∃ f', q.Fails t f' ∧ (strict → f' = f)

namespace SameAt

theorem of_gives {p q : Parser α} {a : α} {r r' : Input} (hp : p.Gives s a r)
    (hq : q.Gives t a r') (hr : r.ShortensTo strict r') : SameAt strict p q s t := by
  obtain ⟨hresult, rfl⟩ := hp
  refine ⟨fun ⟨hb, he⟩ => ?_, fun {f} hf => ?_⟩
  · rw [hresult] at hb
    obtain rfl := Except.ok.inj hb
    exact ⟨r', hq, he ▸ hr⟩
  · rw [show (p s).result = .error f from hf] at hresult
    exact nomatch hresult

theorem of_fails {p q : Parser α} {f f' : Failure} (hp : p.Fails s f) (hq : q.Fails t f')
    (hf : strict → f' = f) : SameAt strict p q s t := by
  have hresult : (p s).result = .error f := hp
  refine ⟨fun ⟨hb, _⟩ => ?_, fun {e} he => ?_⟩
  · rw [hresult] at hb
    exact nomatch hb
  · rw [show (p s).result = .error e from he] at hresult
    obtain rfl := Except.error.inj hresult
    exact ⟨f', hq, hf⟩

theorem pure (h : s.ShortensTo strict t) (a : α) :
    SameAt strict (Pure.pure a) (Pure.pure a : Parser α) s t :=
  of_gives (gives_pure.2 ⟨rfl, rfl⟩) (gives_pure.2 ⟨rfl, rfl⟩) h

theorem fail (cause : ParseError) (p : Span) :
    SameAt strict (Parser.fail cause p) (Parser.fail cause p : Parser α) s t :=
  of_fails (fails_fail.2 rfl) (fails_fail.2 rfl) fun _ => rfl

theorem bind {p q : Parser α} {g g' : α → Parser β} (h : SameAt strict p q s t)
    (hg : ∀ a r r', q.Gives t a r' → r.ShortensTo strict r' →
      SameAt strict (g a) (g' a) r r') : SameAt strict (p >>= g) (q >>= g') s t := by
  constructor
  · intro b r hb
    obtain ⟨a, e, ha, hb⟩ := gives_bind.1 hb
    obtain ⟨e', ha', he⟩ := h.gives ha
    obtain ⟨r', hb', hr⟩ := (hg a e e' ha' he).gives hb
    exact ⟨r', gives_bind.2 ⟨a, e', ha', hb'⟩, hr⟩
  · intro f hf
    rcases fails_bind.1 hf with hf | ⟨a, e, ha, hf⟩
    · obtain ⟨f', hf', hstrict⟩ := h.fails hf
      exact ⟨f', fails_bind.2 (.inl hf'), hstrict⟩
    · obtain ⟨e', ha', he⟩ := h.gives ha
      obtain ⟨f', hf', hstrict⟩ := (hg a e e' ha' he).fails hf
      exact ⟨f', fails_bind.2 (.inr ⟨a, e', ha', hf'⟩), hstrict⟩

theorem map {p q : Parser α} (h : SameAt strict p q s t) (g : α → β) :
    SameAt strict (g <$> p) (g <$> q) s t := by
  constructor
  · intro b r hb
    obtain ⟨a, ha, hb⟩ := gives_map.1 hb
    obtain ⟨r', ha', hr⟩ := h.gives ha
    exact ⟨r', gives_map.2 ⟨a, ha', hb⟩, hr⟩
  · intro f hf
    obtain ⟨f', hf', hstrict⟩ := h.fails (fails_map.1 hf)
    exact ⟨f', fails_map.2 hf', hstrict⟩

theorem peek_bind {g g' : Token → Parser β}
    (h : SameAt strict (g s.current) (g' t.current) s t) :
    SameAt strict (peek >>= g) (peek >>= g') s t :=
  ⟨h.gives, h.fails⟩

theorem input_bind {g g' : Input → Parser β} (h : SameAt strict (g s) (g' t) s t) :
    SameAt strict (input >>= g) (input >>= g') s t :=
  ⟨h.gives, h.fails⟩

theorem advance_bind {g g' : Token → Parser β}
    (h : SameAt strict (g s.current) (g' t.current) s.advance t.advance) :
    SameAt strict (advance >>= g) (advance >>= g') s t :=
  ⟨h.gives, h.fails⟩

theorem note_bind {e : Event} {g g' : PUnit → Parser β}
    (h : SameAt strict (g ⟨⟩) (g' ⟨⟩) s t) :
    SameAt strict (note e >>= g) (note e >>= g') s t :=
  ⟨h.gives, h.fails⟩

theorem ite {c : Prop} [Decidable c] {p p' q q' : Parser α} (hpos : c → SameAt strict p q s t)
    (hneg : ¬ c → SameAt strict p' q' s t) :
    SameAt strict (if c then p else p') (if c then q else q') s t := by
  by_cases hc : c
  · rw [if_pos hc, if_pos hc]
    exact hpos hc
  · rw [if_neg hc, if_neg hc]
    exact hneg hc

end SameAt

/-! ### At the end -/

section

variable {n least : Nat} (hend : s.current.kind = .endOfInput)
include hend

theorem fails_expect_of_end {k : TokenKind} (hk : k ≠ .endOfInput) :
    (expect k).Fails s ⟨.expected k.spelling s.current.text, s.current.span⟩ := by
  rw [expect, fails_advance_bind, if_neg (by rw [hend]; exact Ne.symm hk)]
  exact fails_fail.2 rfl

theorem gives_separator_of_end : separator.Gives s ⟨⟩ s :=
  gives_separator.2 (.inr ⟨by rw [hend]; decide, .inl hend, rfl⟩)

theorem gives_statementsWithin_of_end {ends : TokenKind → Bool} (hends : ends .endOfInput)
    (read : Parser Tree) (bound : List Item) : (statementsWithin ends read bound).Gives s [] s := by
  cases bound with
  | nil => exact gives_pure.2 ⟨rfl, rfl⟩
  | cons x bound => exact gives_statementsWithin_cons.2 (.inl ⟨hend ▸ hends, rfl, rfl⟩)

theorem gives_operatorsWithin_of_end (operand : Nat → Parser Tree) (bound : List Item)
    (left : Tree) : (operatorsWithin operand bound least left).Gives s left s := by
  cases bound with
  | nil => exact gives_pure.2 ⟨rfl, rfl⟩
  | cons x bound =>
    refine gives_operatorsWithin_cons.2 (.inl ⟨?_, rfl, rfl⟩)
    rw [hend]
    exact Nat.zero_le _

theorem fails_operand_of_end :
    (operand (levels n) least).Fails s ⟨.incorrectStatement, s.current.span⟩ := by
  have hliteral : Literal.ofToken? s.current = none := by rw [Literal.ofToken?, hend]
  rw [operand, fails_peek_bind, hend, if_pos (.inl rfl), primary, fails_advance_bind, hend,
    hliteral]
  exact fails_fail.2 rfl

end

/-! ### Tokens and loops -/

theorem sameAt_expect (h : s.ShortensTo strict t) {k : TokenKind} (hk : k ≠ .endOfInput) :
    SameAt strict (expect k) (expect k) s t := by
  rcases h.cases with ⟨hs, ht, hstrict⟩ | ⟨-, hcurrent, -, hadvance⟩
  · refine .of_fails (fails_expect_of_end hs hk) (fails_expect_of_end ht hk) fun hall => ?_
    rw [hstrict hall]
  · refine .advance_bind ?_
    rw [hcurrent]
    exact .ite (fun _ => .pure hadvance _) fun _ => .fail _ _

/-- A closing token after `p`, and then what `g` makes of the value of `p`. -/
theorem sameAt_closed {p : Parser α} {k : TokenKind} {g : α → β} (hk : k ≠ .endOfInput)
    (h : SameAt strict p p s t) :
    SameAt strict (do let a ← p; let _ ← expect k; return g a)
      (do let a ← p; let _ ← expect k; return g a) s t :=
  h.bind fun _ _ _ _ hr => (sameAt_expect hr hk).bind fun _ _ _ _ hr' => .pure hr' _

theorem sameAt_separator (h : s.ShortensTo strict t) : SameAt strict separator separator s t := by
  rcases h.cases with ⟨hs, ht, -⟩ | ⟨-, hcurrent, hbreak, hadvance⟩
  · exact .of_gives (gives_separator_of_end hs) (gives_separator_of_end ht) h
  · refine .input_bind ?_
    rw [hcurrent, hbreak]
    refine .ite (fun _ => .advance_bind (.pure hadvance _)) fun _ => ?_
    exact .ite (fun _ => .pure h _) fun _ => .fail _ _

/-- An input that is not at its end has an item, and so a bound for it has a first one. -/
theorem exists_bound_eq_cons (ht : t.current.kind ≠ .endOfInput)
    (hfinal : t.final.kind = .endOfInput) {bound : List Item}
    (hbound : t.items.length ≤ bound.length) : ∃ x xs, bound = x :: xs := by
  have hlt := Input.length_advance_lt hfinal ht
  exact List.exists_cons_of_length_pos (by omega)

theorem sameAt_statementsWithin {ends : TokenKind → Bool} {read : Parser Tree}
    (hends : ends .endOfInput)
    (hread : ∀ {s t}, s.ShortensTo strict t → SameAt strict read read s t)
    (htakes : ∀ {t r : Input} {x : Tree}, t.final.kind = .endOfInput → read.Gives t x r →
      r.items.length < t.items.length)
    {xs ys : List Item} (h : s.ShortensTo strict t) (hxs : t.items.length ≤ xs.length)
    (hys : t.items.length ≤ ys.length) :
    SameAt strict (statementsWithin ends read xs) (statementsWithin ends read ys) s t := by
  induction xs generalizing ys s t with
  | nil =>
    have ht := h.kind_current_of_length_le hxs
    exact .of_gives (gives_statementsWithin_of_end (h.kind_current ▸ ht) hends _ _)
      (gives_statementsWithin_of_end ht hends _ _) h
  | cons x xs ih =>
    rcases h.cases with ⟨hs, ht, -⟩ | ⟨hs, hcurrent, -, -⟩
    · exact .of_gives (gives_statementsWithin_of_end hs hends _ _)
        (gives_statementsWithin_of_end ht hends _ _) h
    · obtain ⟨y, ys, rfl⟩ := exists_bound_eq_cons (hcurrent ▸ hs) h.kind_final hys
      rw [statementsWithin, statementsWithin]
      refine .peek_bind ?_
      rw [hcurrent]
      refine .ite (fun _ => .pure h _) fun _ => ?_
      refine (hread h).bind fun first r r' hfirst hr => .map ?_ _
      have hlt := htakes h.kind_final hfirst
      rw [List.length_cons] at hxs hys
      exact ih hr (by omega) (by omega)

theorem sameAt_statements {ends : TokenKind → Bool} {read : Parser Tree}
    (hends : ends .endOfInput)
    (hread : ∀ {s t}, s.ShortensTo strict t → SameAt strict read read s t)
    (htakes : ∀ {t r : Input} {x : Tree}, t.final.kind = .endOfInput → read.Gives t x r →
      r.items.length < t.items.length)
    (h : s.ShortensTo strict t) :
    SameAt strict (statements ends read) (statements ends read) s t :=
  .input_bind (sameAt_statementsWithin hends hread htakes h h.length_le (Nat.le_refl _))

/-! ### Levels -/

/-- At this level nothing behind the first end token is looked at. -/
structure SameBelow (strict : Prop) (n : Nat) : Prop where
  statement : ∀ {mode : StatementMode} {s t : Input}, s.ShortensTo strict t →
    SameAt strict (statement (levels n) mode) (statement (levels n) mode) s t
  expression : ∀ {least : Nat} {s t : Input}, s.ShortensTo strict t →
    SameAt strict (expression (levels n) least) (expression (levels n) least) s t

variable {n least : Nat}

theorem sameAt_nested {p : Span} {read : Grammar → Parser α}
    (h : ∀ m, n = m + 1 →
      SameAt strict (read (.above (levels m))) (read (.above (levels m))) s t) :
    SameAt strict (nested (levels n) p read) (nested (levels n) p read) s t := by
  cases n with
  | zero => exact .fail _ _
  | succ n =>
    have hread := h n rfl
    rw [← grammar_eq_above] at hread
    exact hread

section

variable (below : ∀ m, n = m + 1 → SameBelow strict m)
include below

/-- A statement in brackets, the opening one of which has been taken. -/
theorem sameAt_bracketed (h : s.ShortensTo strict t) {p : Span} {k : TokenKind}
    (hk : k ≠ .endOfInput) (build : Tree → Tree) :
    SameAt strict
      (do let inner ← nested (levels n) p fun g => g.statement .expression
          let _ ← expect k
          return build inner)
      (do let inner ← nested (levels n) p fun g => g.statement .expression
          let _ ← expect k
          return build inner) s t :=
  sameAt_closed hk (sameAt_nested fun m hm => (below m hm).statement h)

theorem sameAt_operand (h : s.ShortensTo strict t) :
    SameAt strict (operand (levels n) least) (operand (levels n) least) s t := by
  rcases h.cases with ⟨hs, ht, hstrict⟩ | ⟨-, hcurrent, -, hadvance⟩
  · refine .of_fails (fails_operand_of_end hs) (fails_operand_of_end ht) fun hall => ?_
    rw [hstrict hall]
  · refine .peek_bind ?_
    rw [hcurrent]
    refine .ite (fun _ => .advance_bind ?_) fun _ => .ite (fun _ => ?_) fun _ => ?_
    · rw [hcurrent]
      split
      · exact sameAt_bracketed below hadvance (by decide) _
      · exact .fail _ _
      · split
        · exact .pure hadvance _
        · exact .fail _ _
    · exact .note_bind (.advance_bind (.fail _ _))
    · refine .advance_bind (.bind (sameAt_nested fun m hm => ?_) fun _ _ _ _ hr => .pure hr _)
      exact (below m hm).expression hadvance

theorem sameAt_operatorsWithin {xs ys : List Item} {left : Tree} (h : s.ShortensTo strict t)
    (hxs : t.items.length ≤ xs.length) (hys : t.items.length ≤ ys.length) :
    SameAt strict (operatorsWithin (operand (levels n)) xs least left)
      (operatorsWithin (operand (levels n)) ys least left) s t := by
  have hagrees : ∀ m, n = m + 1 → Agrees m := fun m _ => agrees m
  induction xs generalizing ys s t least left with
  | nil =>
    have ht := h.kind_current_of_length_le hxs
    exact .of_gives (gives_operatorsWithin_of_end (h.kind_current ▸ ht) _ _ _)
      (gives_operatorsWithin_of_end ht _ _ _) h
  | cons x xs ih =>
    rcases h.cases with ⟨hs, ht, -⟩ | ⟨hs, hcurrent, -, hadvance⟩
    · exact .of_gives (gives_operatorsWithin_of_end hs _ _ _)
        (gives_operatorsWithin_of_end ht _ _ _) h
    · have hlt := Input.length_advance_lt h.kind_final (hcurrent ▸ hs)
      obtain ⟨y, ys, rfl⟩ := exists_bound_eq_cons (hcurrent ▸ hs) h.kind_final hys
      rw [List.length_cons] at hxs hys
      rw [operatorsWithin, operatorsWithin]
      refine .peek_bind ?_
      rw [hcurrent]
      refine .ite (fun _ => .pure h _) fun _ => .advance_bind ?_
      refine .ite (fun _ => .pure hadvance _) fun _ => ?_
      -- What the second run takes leaves enough of both bounds.
      refine (sameAt_operand below hadvance).bind fun first r₁ t₁ hfirst hr₁ => ?_
      have hfirst' := (gives_operand_iff hagrees hadvance.kind_final).1 hfirst
      have hle₁ := hfirst'.ahead.length_le
      refine (ih hr₁ (by omega) (by omega)).bind fun right r₂ t₂ hright hr₂ => ?_
      have hright' := (gives_operatorsWithin_iff hagrees hr₁.kind_final (by omega)).1 hright
      have hle₂ := hright'.ahead.length_le
      exact ih hr₂ (by omega) (by omega)

theorem sameAt_expression (h : s.ShortensTo strict t) :
    SameAt strict (expression (levels n) least) (expression (levels n) least) s t := by
  refine (sameAt_operand below h).bind fun first r r' _ hr => .input_bind ?_
  exact sameAt_operatorsWithin below hr hr.length_le (Nat.le_refl _)

theorem sameAt_simple {control : Parser Tree → Parser Tree} (h : s.ShortensTo strict t)
    (hs : s.current.kind ≠ .endOfInput)
    (hcontrol : SameAt strict (control (expression (levels n) 0))
      (control (expression (levels n) 0)) s t) :
    SameAt strict (simple (levels n) control) (simple (levels n) control) s t := by
  rcases h.cases with ⟨hend, -⟩ | ⟨-, hcurrent, -, hadvance⟩
  · exact absurd hend hs
  · refine .input_bind ?_
    rw [hcurrent, hadvance.followedBy_eq (by decide)]
    split
    · refine .ite (fun _ => .advance_bind ?_) fun _ => .note_bind hcontrol
      rw [hcurrent]
      refine (sameAt_expect hadvance (by decide)).bind fun _ _ _ _ hr => ?_
      exact sameAt_bracketed below hr (by decide) _
    · exact hcontrol

theorem sameAt_block (h : s.ShortensTo strict t) (hs : s.current.kind ≠ .endOfInput)
    {m : Nat} (hm : n = m + 1) (mode : StatementMode) :
    SameAt strict (block (.above (levels m)) mode) (block (.above (levels m)) mode) s t := by
  rcases h.cases with ⟨hend, -⟩ | ⟨-, hcurrent, -, hadvance⟩
  · exact absurd hend hs
  · refine .advance_bind ?_
    rw [hcurrent]
    refine sameAt_closed (by decide) (sameAt_statements (by decide) (below m hm).statement ?_
      hadvance)
    exact fun hfinal hx => (((agrees m).statement hfinal).1 hx).length_lt hfinal rfl

theorem sameAt_statementWith {control : Parser Tree → Parser Tree} {mode : StatementMode}
    (h : s.ShortensTo strict t)
    (hcontrol : s.current.kind ≠ .endOfInput → SameAt strict (control (expression (levels n) 0))
      (control (expression (levels n) 0)) s t) :
    SameAt strict (statementWith (levels n) control mode)
      (statementWith (levels n) control mode) s t := by
  refine .peek_bind ?_
  rcases h.cases with ⟨hs, ht, hstrict⟩ | ⟨hs, hcurrent, -, -⟩
  · rw [if_pos hs, if_pos ht]
    refine .of_fails (fails_fail.2 rfl) (fails_fail.2 rfl) fun hall => ?_
    rw [hstrict hall]
  · rw [hcurrent]
    refine .ite (fun _ => .fail _ _) fun _ => .ite (fun _ => ?_) fun _ => ?_
    · exact sameAt_nested fun m hm => sameAt_block below h hs hm mode
    · refine (sameAt_simple below h hs (hcontrol hs)).bind fun x r r' _ hr => ?_
      split
      · exact (sameAt_separator hr).bind fun _ _ _ _ hr' => .note_bind (.pure hr' _)
      · exact .note_bind (.pure hr _)

theorem sameAt_statement {mode : StatementMode} (h : s.ShortensTo strict t) :
    SameAt strict (statement (levels n) mode) (statement (levels n) mode) s t := by
  have hinner : ∀ {s t}, s.ShortensTo strict t →
      SameAt strict (inner (levels n)) (inner (levels n)) s t := fun h =>
    sameAt_statementWith below h fun _ => sameAt_expression below h
  refine sameAt_statementWith below h fun hs => .peek_bind ?_
  rcases h.cases with ⟨hend, -⟩ | ⟨-, hcurrent, -, hadvance⟩
  · exact absurd hend hs
  · rw [hcurrent]
    refine .ite (fun _ => .advance_bind (.pure hadvance _)) fun _ => ?_
    refine .ite (fun _ => .advance_bind (.pure hadvance _)) fun _ => ?_
    refine .ite (fun _ => .advance_bind ?_) fun _ => sameAt_expression below h
    exact (hinner hadvance).bind fun _ _ _ _ hr => .pure hr _

end

/-- At every level nothing behind the first end token is looked at. -/
theorem sameBelow (strict : Prop) (n : Nat) : SameBelow strict n := by
  induction n with
  | zero =>
    have below : ∀ m, 0 = m + 1 → SameBelow strict m := fun m hm => by omega
    exact ⟨sameAt_statement below, sameAt_expression below⟩
  | succ n ih =>
    have below : ∀ m, n + 1 = m + 1 → SameBelow strict m := fun m hm => by
      obtain rfl : n = m := by omega
      exact ih
    exact ⟨sameAt_statement below, sameAt_expression below⟩

theorem sameAt_program (o : ParseOptions) (h : s.ShortensTo strict t) :
    SameAt strict (program o) (program o) s t := by
  rw [program, grammar_eq_above]
  refine .bind (sameAt_statements (by decide) (sameBelow strict maxNesting).statement ?_ h)
    fun _ _ _ _ hr => .pure hr _
  exact fun hfinal hx => (((agrees maxNesting).statement hfinal).1 hx).length_lt hfinal rfl

/-- The trees of both inputs are the same, or both are errors. -/
theorem root_parse_shortened (o : ParseOptions) (h : s.ShortensTo strict t) :
    (parse o t).root = (parse o s).root ∨
      ¬ strict ∧ (parse o s).root.isBad ∧ (parse o t).root.isBad := by
  rcases gives_or_fails (program o) s with ⟨x, r, hx⟩ | ⟨f, hf⟩
  · obtain ⟨r', hx', -⟩ := (sameAt_program o h).gives hx
    exact .inl ((parse_of_gives_program hx').1.trans (parse_of_gives_program hx).1.symm)
  · obtain ⟨f', hf', hstrict⟩ := (sameAt_program o h).fails hf
    rw [parse_of_fails hf, parse_of_fails hf']
    by_cases hall : strict
    · exact .inl (by rw [hstrict hall])
    · exact .inr ⟨hall, rfl, rfl⟩

end Parser

/-! ### Programs -/

namespace Input

variable {pre rest : List Token} {e : Token}

/-- In front of tokens without an end token, one of which may come next, nothing changes. -/
theorem shortensTo_joined (strict : Prop) {r : Input} {last : Token}
    (hpre : ∀ t ∈ pre, t.kind ≠ .endOfInput)
    (hr : r.current.kind = .endOfInput) (hlast : last.kind = .endOfInput)
    (hstrict : strict → last = r.current) (broken : Bool) :
    (r.joined broken pre).ShortensTo strict ⟨itemsFrom broken pre, last⟩ := by
  induction pre generalizing broken with
  | nil => exact .ending hr hlast hstrict
  | cons t pre ih =>
    obtain ⟨ht, hpre⟩ := List.forall_mem_cons.1 hpre
    rw [joined, itemsFrom]
    split
    · exact ih hpre true
    · exact .item ht (ih hpre false)

theorem current_ofTokens_cons (h : e.kind ≠ .newLine) (ts : List Token) :
    (ofTokens (e :: ts)).current = e := by
  induction ts using List.reverseRecOn with
  | nil =>
    rw [ofTokens]
    dsimp only [List.getLast?_singleton]
    split
    · rfl
    · rw [itemsFrom, if_neg h]
      rfl
  | append_singleton ts u _ =>
    rw [ofTokens, ← List.cons_append, List.getLast?_concat]
    dsimp only
    split
    · rw [List.dropLast_concat, itemsFrom, if_neg h]
      rfl
    · rw [List.cons_append, itemsFrom, if_neg h]
      rfl

/-- What stands behind the first end token is cut off. -/
theorem shortensTo_ofTokens (strict : Prop) {last : Token} (hpre : ∀ t ∈ pre, t.kind ≠ .endOfInput)
    (he : e.kind = .endOfInput) (hlast : last.kind = .endOfInput) (hstrict : strict → last = e)
    (rest : List Token) :
    (ofTokens (pre ++ e :: rest)).ShortensTo strict ⟨itemsFrom false pre, last⟩ := by
  obtain ⟨r, hnext, happend⟩ := exists_sameNext_append pre (List.cons_ne_nil e rest)
  have hcurrent : r.current = e :=
    hnext.current.trans (current_ofTokens_cons (by rw [he]; decide) rest)
  rw [happend]
  exact shortensTo_joined strict hpre (by rw [hcurrent]; exact he) hlast
    (fun h => (hstrict h).trans hcurrent.symm) false

end Input

theorem kind_ne_of_mem_programTokens {ts : List Token} {t : Token} (h : t ∈ programTokens ts) :
    t.kind ≠ .endOfInput :=
  of_decide_eq_true (List.all_eq_true.1 List.all_takeWhile t h)

/-- The first end token stands behind the tokens of the program, if there is one. -/
theorem programTokens_cases (ts : List Token) :
    programTokens ts = ts ∨
      ∃ e rest, e.kind = .endOfInput ∧ ts = programTokens ts ++ e :: rest := by
  induction ts with
  | nil => exact .inl rfl
  | cons t ts ih =>
    by_cases ht : t.kind = .endOfInput
    · have hnil : programTokens (t :: ts) = [] :=
        List.takeWhile_cons_of_neg fun h => absurd ht (of_decide_eq_true h)
      exact .inr ⟨t, ts, ht, by rw [hnil, List.nil_append]⟩
    · rw [programTokens_cons ht]
      rcases ih with ih | ⟨e, rest, he, ih⟩
      · exact .inl (by rw [ih])
      · exact .inr ⟨e, rest, he, congrArg (t :: ·) ih⟩

/-- Behind tokens without an end token the program goes on. -/
theorem programTokens_append_of_unended {ts : List Token} (h : ∀ t ∈ ts, t.kind ≠ .endOfInput)
    (us : List Token) : programTokens (ts ++ us) = ts ++ programTokens us :=
  List.takeWhile_append_of_pos fun t ht => decide_eq_true (h t ht)

/-- Behind an end token it does not. -/
theorem programTokens_append_of_ended {ts rest : List Token} {e : Token}
    (he : e.kind = .endOfInput) (h : ts = programTokens ts ++ e :: rest) (us : List Token) :
    programTokens (ts ++ us) = programTokens ts := by
  have hkinds : ∀ t ∈ programTokens ts, t.kind ≠ .endOfInput :=
    fun _ => kind_ne_of_mem_programTokens
  have hnil : programTokens (e :: (rest ++ us)) = [] :=
    List.takeWhile_cons_of_neg fun h => of_decide_eq_true h he
  calc programTokens (ts ++ us) = programTokens (programTokens ts ++ e :: (rest ++ us)) := by
        rw [← List.cons_append, ← List.append_assoc, ← h]
    _ = programTokens ts := by
        rw [programTokens_append_of_unended hkinds, hnil, List.append_nil]

/-- Tokens that are shortened to the same have the same tree, unless both have an error. -/
theorem parseTokens_of_shortened {o : ParseOptions} {ts us : List Token} {t : Input}
    (hts : (Input.ofTokens ts).ShortensTo False t)
    (hus : (Input.ofTokens us).ShortensTo False t) :
    parseTokens o us = parseTokens o ts ∨
      (parseTokens o ts).isBad ∧ (parseTokens o us).isBad := by
  show (parse o (.ofTokens us)).root = (parse o (.ofTokens ts)).root ∨ _ ∧ _
  rcases Parser.root_parse_shortened o hts with hroot | ⟨-, hbad, hbad'⟩
  · rcases Parser.root_parse_shortened o hus with hroot' | ⟨-, hbad, hbad'⟩
    · exact .inl (hroot'.symm.trans hroot)
    · rw [hroot] at hbad'
      exact .inr ⟨hbad', hbad⟩
  · rcases Parser.root_parse_shortened o hus with hroot | ⟨-, hbad'', -⟩
    · rw [hroot] at hbad'
      exact .inr ⟨hbad, hbad'⟩
    · exact .inr ⟨hbad, hbad''⟩

/-- The tokens before the first end token give what all give, unless there is an error. -/
theorem parseTokens_programTokens (o : ParseOptions) (ts : List Token) :
    parseTokens o (programTokens ts) = parseTokens o ts ∨
      (parseTokens o ts).isBad ∧ (parseTokens o (programTokens ts)).isBad := by
  rcases programTokens_cases ts with hall | ⟨e, rest, he, hts⟩
  · exact .inl (by rw [hall])
  have hkinds : ∀ t ∈ programTokens ts, t.kind ≠ .endOfInput :=
    fun _ => kind_ne_of_mem_programTokens
  have hlong := Input.shortensTo_ofTokens False hkinds he he nofun rest
  rw [← hts] at hlong
  obtain ⟨last, hlast, hinput⟩ := Input.exists_ofTokens_eq hkinds
  have hshort := Input.shortensTo_joined False (r := ⟨[], last⟩) hkinds hlast he nofun
    false
  rw [← hinput] at hshort
  exact parseTokens_of_shortened hlong hshort

/-- Where one of the two lists of tokens is a program, the tokens before the first end token
are the same program. -/
theorem parseTokens_programTokens_of_good {o : ParseOptions} {ts : List Token}
    (h : (parseTokens o ts).isBad = false) :
    parseTokens o (programTokens ts) = parseTokens o ts := by
  refine (parseTokens_programTokens o ts).resolve_right fun hbad => ?_
  rw [h] at hbad
  exact Bool.noConfusion hbad.1

/-- **Programs end at the first end token.**  The tokens behind it change nothing, be it
the tree of a program or an error.  Of a program that can be read its text and place
change nothing either, and it need not be there. -/
theorem parseTokens_end {o : ParseOptions} {pre : List Token} {e : Token}
    (hpre : ∀ t ∈ pre, t.kind ≠ .endOfInput) (he : e.kind = .endOfInput) :
    (∀ rest, parseTokens o (pre ++ [e] ++ rest) = parseTokens o (pre ++ [e])) ∧
      ((parseTokens o (pre ++ [e])).isBad = false →
        (∀ e' : Token, e'.kind = .endOfInput →
          parseTokens o (pre ++ [e']) = parseTokens o (pre ++ [e])) ∧
        parseTokens o pre = parseTokens o (pre ++ [e])) := by
  have hprogram : ∀ {e' : Token}, e'.kind = .endOfInput → programTokens (pre ++ [e']) = pre := by
    intro e' he'
    have hnil : programTokens [e'] = [] :=
      List.takeWhile_cons_of_neg fun h => of_decide_eq_true h he'
    rw [programTokens_append_of_unended hpre, hnil, List.append_nil]
  refine ⟨fun rest => ?_, fun hgood => ?_⟩
  · have hroot : ∀ rest, parseTokens o (pre ++ e :: rest) =
        (parse o ⟨Input.itemsFrom false pre, e⟩).root := fun rest =>
      ((Parser.root_parse_shortened o (Input.shortensTo_ofTokens True hpre he he
        (fun _ => rfl) rest)).resolve_right fun h => h.1 trivial).symm
    rw [List.append_assoc]
    exact (hroot rest).trans (hroot []).symm
  · have hbare : parseTokens o pre = parseTokens o (pre ++ [e]) := by
      have h := parseTokens_programTokens_of_good hgood
      rwa [hprogram he] at h
    refine ⟨fun e' he' => ?_, hbare⟩
    have h := parseTokens_programTokens o (pre ++ [e'])
    rw [hprogram he', hbare, hgood] at h
    exact (h.resolve_right fun h => Bool.noConfusion h.2).symm

/-- Behind the end of `1;` a sign and a number are not read. -/
theorem parseTokens_end_oneLine :
    let e := Token.endAt ⟨2, 1⟩
    (∀ t ∈ oneLine, t.kind ≠ .endOfInput) ∧ e.kind = .endOfInput ∧
      (parseTokens {} (oneLine ++ [e])).isBad = false ∧
      parseTokens {} (oneLine ++ [e] ++ minusTwo) = parseTokens {} (oneLine ++ [e]) ∧
      parseTokens {} (oneLine ++ [⟨.endOfInput, "", .start⟩]) = parseTokens {} (oneLine ++ [e]) ∧
      parseTokens {} oneLine = parseTokens {} (oneLine ++ [e]) := by
  intro e
  have hkinds : ∀ t ∈ oneLine, t.kind ≠ .endOfInput := by decide
  have hgood : (parseTokens {} (oneLine ++ [e])).isBad = false := rfl
  obtain ⟨hrest, hend⟩ := parseTokens_end (o := {}) (e := e) hkinds rfl
  obtain ⟨hother, hbare⟩ := hend hgood
  exact ⟨hkinds, rfl, hgood, hrest minusTwo, hother _ rfl, hbare⟩

end ScriptSyntax
