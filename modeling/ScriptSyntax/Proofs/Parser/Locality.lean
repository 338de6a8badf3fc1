/-
Reading is local.

What is read depends on the tokens that it takes and on the one behind them, and
on no other:

* `Input.Ahead` says of an input that it is what is left of another, and
  `Reads.ahead` that nothing else is left when a phrase has been read;
* `Reads.upTo` — the same phrase is read where other tokens follow.

Design notes: the tokens that follow are counted and not named.  `s.upTo k e` has
`e` in the place of the last `k` items of `s`, and it is the same as `s` wherever
more than `k` items are left.
-/
import ScriptSyntax.Proofs.Parser.Rules

namespace ScriptSyntax

/-! ### Inputs -/

namespace Input

/-- The first input is what is left of the second. -/
def Ahead (e s : Input) : Prop :=
  ∃ xs, s.items = xs ++ e.items ∧ s.final = e.final

namespace Ahead

variable {e r s : Input}

theorem refl (s : Input) : s.Ahead s :=
  ⟨[], rfl, rfl⟩

theorem advance (s : Input) : s.advance.Ahead s := by
  rcases s with ⟨_ | ⟨x, xs⟩, f⟩
  · exact refl _
  · exact ⟨[x], rfl, rfl⟩

theorem trans (h : e.Ahead r) (hr : r.Ahead s) : e.Ahead s := by
  obtain ⟨xs, hxs, hfinal⟩ := h
  obtain ⟨ys, hys, hfinal'⟩ := hr
  refine ⟨ys ++ xs, ?_, hfinal'.trans hfinal⟩
  rw [hys, hxs, List.append_assoc]

theorem length_le (h : e.Ahead s) : e.items.length ≤ s.items.length := by
  obtain ⟨xs, hxs, -⟩ := h
  rw [hxs, List.length_append]
  exact Nat.le_add_left _ _

theorem eq_of_length_le (h : e.Ahead s) (hlength : s.items.length ≤ e.items.length) : e = s := by
  obtain ⟨xs, hxs, hfinal⟩ := h
  have hnil : xs = [] := by
    rw [hxs, List.length_append] at hlength
    exact List.length_eq_zero_iff.1 (by omega)
  rw [hnil, List.nil_append] at hxs
  rcases e with ⟨items, final⟩
  rcases s with ⟨items', final'⟩
  simp_all

end Ahead

/-- The input with `e` in the place of its last `k` items. -/
def upTo (s : Input) (k : Nat) (e : Input) : Input :=
  ⟨s.items.take (s.items.length - k) ++ e.items, e.final⟩

variable {s : Input} {k : Nat}

theorem upTo_of_length_le (h : s.items.length ≤ k) (e : Input) : s.upTo k e = e := by
  rw [upTo, Nat.sub_eq_zero_of_le h, List.take_zero, List.nil_append]

/-- In front of the items that are replaced nothing changes. -/
theorem exists_upTo_eq (h : k < s.items.length) (e : Input) :
    ∃ x xs, s.items = x :: xs ∧
      s.upTo k e = ⟨x :: (xs.take (xs.length - k) ++ e.items), e.final⟩ := by
  rcases hs : s.items with _ | ⟨x, xs⟩
  · rw [hs] at h
    exact absurd h (Nat.not_lt_zero _)
  · rw [hs, List.length_cons] at h
    refine ⟨x, xs, rfl, ?_⟩
    rw [upTo, hs, List.length_cons, Nat.succ_sub (Nat.le_of_lt_succ h), List.take_succ_cons,
      List.cons_append]

theorem lt_of_le_advance (hfinal : s.final.kind = .endOfInput) (hs : s.current.kind ≠ .endOfInput)
    (h : k ≤ s.advance.items.length) : k < s.items.length :=
  Nat.lt_of_le_of_lt h (length_advance_lt hfinal hs)

theorem current_upTo (h : k < s.items.length) (e : Input) : (s.upTo k e).current = s.current := by
  obtain ⟨x, xs, hs, heq⟩ := exists_upTo_eq h e
  rw [heq, current, current, hs]

theorem afterBreak_upTo (h : k < s.items.length) (e : Input) :
    (s.upTo k e).afterBreak = s.afterBreak := by
  obtain ⟨x, xs, hs, heq⟩ := exists_upTo_eq h e
  rw [heq, afterBreak, afterBreak, hs]

theorem advance_upTo (h : k < s.items.length) (e : Input) :
    (s.upTo k e).advance = s.advance.upTo k e := by
  obtain ⟨x, xs, hs, heq⟩ := exists_upTo_eq h e
  rw [heq, advance, upTo, advance, hs]
  rfl

theorem followedBy_upTo (h : k < s.advance.items.length) (e : Input) (kind : TokenKind) :
    (s.upTo k e).followedBy kind = s.followedBy kind := by
  have hs : k < s.items.length := Nat.lt_of_lt_of_le h s.length_advance_le
  rw [followedBy, followedBy, advance_upTo hs, afterBreak_upTo h, current_upTo h]

end Input

/-! ### What is read depends on one token more -/

theorem Reads.ahead {n : Nat} {ph : Phrase} {s r : Input} (h : Reads n ph s r) : r.Ahead s := by
  induction h with
  | done | last => exact .refl _
  | literal | trailing | breakLoop | continueLoop => exact .advance _
  | group _ _ _ ih | block _ _ ih => exact ((Input.Ahead.advance _).trans ih).trans (.advance _)
  | unary _ _ _ ih | returnValue _ _ _ _ ih => exact ih.trans (.advance _)
  | convert _ _ _ _ ih =>
    exact (((Input.Ahead.advance _).trans ih).trans (.advance _)).trans (.advance _)
  | value _ ih | unseparated _ _ ih => exact ih
  | binary _ _ _ _ ihright ihrest => exact (ihrest.trans ihright).trans (.advance _)
  | expression _ _ ihfirst ihrest | more _ _ ihfirst ihrest => exact ihrest.trans ihfirst
  | separated _ _ hseparator ih =>
    rcases hseparator with ⟨-, rfl⟩ | ⟨-, -, rfl⟩
    · exact (Input.Ahead.advance _).trans ih
    · exact ih

theorem Reads.kind_final {n : Nat} {ph : Phrase} {s r : Input} (h : Reads n ph s r)
    (hfinal : s.final.kind = .endOfInput) : r.final.kind = .endOfInput := by
  rw [h.final_eq]
  exact hfinal

/-- A phrase that may end before any token that is no operator. -/
def Phrase.IsLoose : Phrase → Prop
  | statement mode _ => mode.separator = false
  | statements .. => False
  | _ => True

namespace Reads

variable {n k : Nat} {ph : Phrase} {s r : Input}

/-- What is read depends on the token behind it, and on no other. -/
theorem upTo {e : Input} (h : Reads n ph s r) (hfinal : s.final.kind = .endOfInput)
    (hk : k ≤ r.items.length)
    (hend : k < r.items.length ∨ ph.IsLoose ∧ e.current.kind.binaryPrecedence = 0) :
    Reads n ph (s.upTo k e) (r.upTo k e) := by
  -- All rules but those for the end of operators and of statements look only at
  -- tokens that they take, and more than `k` items are left in front of these.
  induction h with
  | @literal _ _ s _ hvalue =>
    have hs : k < s.items.length :=
      Input.lt_of_le_advance hfinal (fun h => by simp [Literal.ofToken?, h] at hvalue) hk
    rw [← Input.advance_upTo hs]
    rw [← Input.current_upTo hs e] at hvalue ⊢
    exact .literal hvalue
  | @group _ _ s r _ hopen hinner hclose ih =>
    have hr : k < r.items.length := Input.lt_of_le_advance (hinner.kind_final hfinal)
      (by rw [hclose]; decide) hk
    have hs : k < s.items.length := Input.lt_of_le_advance hfinal (by rw [hopen]; decide)
      (Nat.le_trans (Nat.le_of_lt hr) hinner.ahead.length_le)
    have hinner' := ih hfinal (Nat.le_of_lt hr) (.inl hr)
    rw [← Input.advance_upTo hs] at hinner'
    rw [← Input.current_upTo hs e] at hopen ⊢
    rw [← Input.current_upTo hr e] at hclose
    rw [← Input.advance_upTo hr]
    exact .group hopen hinner' hclose
  | @unary _ _ s r _ hoperator hleast hinner ih =>
    have hs : k < s.items.length := Input.lt_of_le_advance hfinal hoperator.ne_endOfInput
      (Nat.le_trans hk hinner.ahead.length_le)
    have hinner' := ih hfinal hk (hend.imp_right fun h => ⟨trivial, h.2⟩)
    rw [← Input.advance_upTo hs, ← Input.current_upTo hs e] at hinner'
    rw [← Input.current_upTo hs e] at hoperator hleast ⊢
    exact .unary hoperator hleast hinner'
  | @done _ _ s _ hleast =>
    refine .done ?_
    by_cases hs : k < s.items.length
    · rw [Input.current_upTo hs]
      exact hleast
    · rw [Input.upTo_of_length_le (Nat.le_of_not_lt hs), (hend.resolve_left hs).2]
      exact Nat.zero_le _
  | @trailing _ _ s _ hoperator hleast =>
    have hs : k < s.items.length :=
      Input.lt_of_le_advance hfinal (TokenKind.ne_endOfInput_of_lt_binaryPrecedence hleast) hk
    rw [← Input.advance_upTo hs]
    rw [← Input.current_upTo hs e] at hoperator hleast ⊢
    exact .trailing hoperator hleast
  | @binary _ _ s s' r _ _ _ hoperator hleast hright hrest ihright ihrest =>
    have hs' : k ≤ s'.items.length := Nat.le_trans hk hrest.ahead.length_le
    have hs : k < s.items.length :=
      Input.lt_of_le_advance hfinal (TokenKind.ne_endOfInput_of_lt_binaryPrecedence hleast)
        (Nat.le_trans hs' hright.ahead.length_le)
    have hright' := ihright hfinal hs' (hend.imp
      (fun h => Nat.lt_of_lt_of_le h hrest.ahead.length_le) fun h => ⟨trivial, h.2⟩)
    have hrest' := ihrest (hright.kind_final hfinal) hk
      (hend.imp_right fun h => ⟨trivial, h.2⟩)
    rw [← Input.advance_upTo hs] at hright'
    rw [← Input.current_upTo hs e] at hoperator hleast hright' hrest'
    exact .binary hoperator hleast hright' hrest'
  | expression hfirst hrest ihfirst ihrest =>
    have hfirst' := ihfirst hfinal (Nat.le_trans hk hrest.ahead.length_le) (hend.imp
      (fun h => Nat.lt_of_lt_of_le h hrest.ahead.length_le) fun h => ⟨trivial, h.2⟩)
    have hrest' := ihrest (hfirst.kind_final hfinal) hk
      (hend.imp_right fun h => ⟨trivial, h.2⟩)
    exact .expression hfirst' hrest'
  | @convert _ _ s r _ _ htarget hopen hinner hclose ih =>
    have hr : k < r.items.length := Input.lt_of_le_advance (hinner.kind_final hfinal)
      (by rw [hclose]; decide) hk
    have hs' : k < s.advance.items.length := Nat.lt_of_lt_of_le hr
      (hinner.ahead.trans (.advance _)).length_le
    have hs : k < s.items.length := Nat.lt_of_lt_of_le hs' s.length_advance_le
    have hinner' := ih hfinal (Nat.le_of_lt hr) (.inl hr)
    rw [← Input.advance_upTo hs', ← Input.advance_upTo hs] at hinner'
    rw [← Input.followedBy_upTo hs' e] at hopen
    rw [← Input.current_upTo hs e] at htarget ⊢
    rw [← Input.current_upTo hr e] at hclose
    rw [← Input.advance_upTo hr]
    exact .convert htarget hopen hinner' hclose
  | @breakLoop _ _ s hmode hkind htext =>
    have hs : k < s.items.length := Input.lt_of_le_advance hfinal (by rw [hkind]; decide) hk
    rw [← Input.advance_upTo hs]
    rw [← Input.current_upTo hs e] at hkind htext ⊢
    exact .breakLoop hmode hkind htext
  | @continueLoop _ _ s hmode hkind htext =>
    have hs : k < s.items.length := Input.lt_of_le_advance hfinal (by rw [hkind]; decide) hk
    rw [← Input.advance_upTo hs]
    rw [← Input.current_upTo hs e] at hkind htext ⊢
    exact .continueLoop hmode hkind htext
  | @returnValue _ _ s r _ hmode hkind htext hvalue ih =>
    have hs : k < s.items.length := Input.lt_of_le_advance hfinal (by rw [hkind]; decide)
      (Nat.le_trans hk hvalue.ahead.length_le)
    have hvalue' := ih hfinal hk (hend.imp_right fun h => ⟨rfl, h.2⟩)
    rw [← Input.advance_upTo hs] at hvalue'
    rw [← Input.current_upTo hs e] at hkind htext ⊢
    exact .returnValue hmode hkind htext hvalue'
  | value _ ih => exact .value (ih hfinal hk (hend.imp_right fun h => ⟨trivial, h.2⟩))
  | @block _ _ s r _ hopen hinner ih =>
    have hr : k < r.items.length := Input.lt_of_le_advance (hinner.kind_final hfinal)
      (by rw [hinner.kind_of_statements]; decide) hk
    have hs : k < s.items.length := Input.lt_of_le_advance hfinal (by rw [hopen]; decide)
      (Nat.le_trans (Nat.le_of_lt hr) hinner.ahead.length_le)
    have hinner' := ih hfinal (Nat.le_of_lt hr) (.inl hr)
    rw [← Input.advance_upTo hs] at hinner'
    rw [← Input.current_upTo hs e] at hopen ⊢
    rw [← Input.advance_upTo hr]
    exact .block hopen hinner'
  | unseparated hmode _ ih =>
    exact .unseparated hmode (ih hfinal hk (hend.imp_right fun h => ⟨trivial, h.2⟩))
  | @separated _ mode _ s' r _ hmode hsimple hseparator ih =>
    -- Only a token that stays can be seen as a separator.
    have hr : k < r.items.length := hend.resolve_right fun h => by
      have hloose : mode.separator = false := h.1
      rw [hmode] at hloose
      exact Bool.noConfusion hloose
    have hs' : k < s'.items.length := Nat.lt_of_lt_of_le hr hseparator.length_le
    refine .separated hmode (ih hfinal (Nat.le_of_lt hs') (.inl hs')) ?_
    rcases hseparator with ⟨hkind, rfl⟩ | ⟨hkind, hbreak, rfl⟩
    · refine .inl ⟨?_, (Input.advance_upTo hs' e).symm⟩
      rw [Input.current_upTo hs']
      exact hkind
    · refine .inr ⟨?_, ?_, rfl⟩
      · rw [Input.current_upTo hs']
        exact hkind
      · rw [Input.current_upTo hs', Input.afterBreak_upTo hs']
        exact hbreak
  | last hclose =>
    have hs := hend.resolve_right And.left
    refine .last ?_
    rw [Input.current_upTo hs]
    exact hclose
  | more hfirst hrest ihfirst ihrest =>
    have hr := hend.resolve_right And.left
    have hs' := Nat.lt_of_lt_of_le hr hrest.ahead.length_le
    exact .more (ihfirst hfinal (Nat.le_of_lt hs') (.inl hs'))
      (ihrest (hfirst.kind_final hfinal) hk (.inl hr))

end Reads

end ScriptSyntax
