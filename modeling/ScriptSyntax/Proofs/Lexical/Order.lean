/-
The order of tokens in a text.

Every token begins before the one that follows it, with one exception: the line
break that a comment makes is reported behind the comment, and another token may
begin right there.

* `Scan.comment_of_body_eq_nil` — all other lexemes take a character at the
  place where they are reported or behind it, those included that are reported
  in the middle of a numeral;
* `Lexer.pairwise_drain` — so a token other than a line break begins before all
  tokens behind it;
* `tokenize_ordered` — the same of the tokens of a text.
-/
import ScriptSyntax.Proofs.Lexical.Run

namespace ScriptSyntax

/-! ### Places -/

namespace Span

theorem lt_trans {p q r : Span} (hpq : p < q) (hqr : q < r) : p < r := by
  rw [lt_iff] at *
  omega

theorem lt_step (p : Span) (c : Char) : p < p.step c := by
  rw [lt_iff, step]
  by_cases hc : c = '\n'
  · rw [if_pos hc]
    exact .inl (Nat.lt_succ_self _)
  · rw [if_neg hc]
    exact .inr ⟨rfl, Nat.lt_succ_self _⟩

/-- Whatever is read, the position goes on. -/
theorem lt_after (p : Span) {cs : List Char} (h : cs ≠ []) : p < p.after cs := by
  induction cs generalizing p with
  | nil => exact absurd rfl h
  | cons c cs ih =>
    rw [after_cons]
    by_cases hcs : cs = []
    · rw [hcs, after_nil]
      exact p.lt_step c
    · exact lt_trans (p.lt_step c) (ih _ hcs)

theorem ne_of_lt {p q : Span} (h : p < q) : p ≠ q := by
  rintro rfl
  rw [lt_iff] at h
  omega

end Span

/-! ### Lexemes -/

namespace Numeral

/-- A fault stands before the end of the numeral. -/
theorem ahead_lt_of_spell {base : Base} {point exponent : Bool} {ahead : Nat} {ps : List Part}
    {f : Fault} (h : spell base point exponent ahead ps = .error f) :
    f.ahead = 0 ∨ f.ahead < ahead + (ps.flatMap Part.source).length := by
  -- Only a result can be changed by what stands before it.
  have hmap : ∀ {r : Except Fault (List Char × Bool)} {g : List Char × Bool → List Char × Bool},
      r.map g = .error f → r = .error f := by
    intro r g hr
    cases r with
    | error e => exact hr
    | ok a => exact nomatch hr
  induction ps generalizing point exponent ahead with
  | nil => exact nomatch h
  | cons p ps ih =>
    rw [List.flatMap_cons, List.length_append]
    cases p with
    | digit c =>
      have := ih (hmap h)
      simp only [Part.source, List.length_singleton]
      omega
    | underscore =>
      have := ih h
      simp only [Part.source, List.length_singleton]
      omega
    | point =>
      rw [spell] at h
      simp only [Part.source, List.length_singleton]
      split at h
      · obtain rfl := Except.error.inj h
        exact .inl rfl
      · split at h
        · obtain rfl := Except.error.inj h
          exact .inr (by show ahead < _; omega)
        · have := ih (hmap h)
          omega
    | exponent c sign =>
      rw [spell.eq_def] at h
      dsimp only at h
      simp only [Part.source, List.length_cons]
      split at h
      · obtain rfl := Except.error.inj h
        exact .inl rfl
      · split at h
        · obtain rfl := Except.error.inj h
          exact .inr (by show ahead < _; omega)
        · split at h
          · obtain rfl := Except.error.inj h
            exact .inl rfl
          · have := ih (hmap h)
            simp only [Option.toList, List.length_singleton]
            omega

theorem ahead_lt_of_value {w : Written} {f : Fault} (h : w.value = .error f) :
    f.ahead = 0 ∨ f.ahead < w.source.length := by
  unfold Written.value at h
  cases hspell : spell w.base false false 0 w.parts with
  | error e =>
    rw [hspell] at h
    obtain rfl := Except.error.inj h
    have := ahead_lt_of_spell hspell
    simp only [Written.source, List.length_append]
    omega
  | ok r =>
    -- All faults found later are reported at the numeral.
    rw [hspell] at h
    dsimp only [bind, Except.bind] at h
    split at h
    · obtain rfl := Except.error.inj h
      exact .inl rfl
    · split at h
      · obtain rfl := Except.error.inj h
        exact .inl rfl
      · cases h

theorem body_lexeme_ne_nil {w : Written} (h : w.source ≠ []) : w.lexeme.body ≠ [] := by
  unfold Written.lexeme
  split
  · exact h
  · next f hf =>
    have hpos := List.length_pos_iff.2 h
    have hlt := ahead_lt_of_value hf
    show w.source.drop f.ahead ≠ []
    rw [ne_eq, List.drop_eq_nil_iff]
    omega

end Numeral

namespace TextLiteral

theorem body_readString_ne_nil (s : List Char) : (readString s).lexeme.body ≠ [] := by
  unfold readString
  split
  · exact List.cons_ne_nil _ _
  · exact List.cons_ne_nil _ _

theorem body_close_ne_nil (bytes : List UInt8) {taken : List Char} (h : taken ≠ [])
    (s : List Char) : (close bytes taken s).lexeme.body ≠ [] := by
  unfold close
  dsimp only
  split
  · simp [Lexeme.whole]
  · simp [unclosed, Lexeme.bad, h]

theorem body_readCharacter_ne_nil (s : List Char) : (readCharacter s).lexeme.body ≠ [] := by
  unfold readCharacter
  dsimp only
  split
  · exact List.cons_ne_nil _ _
  · split
    · split
      · exact body_close_ne_nil _ (List.cons_ne_nil _ _) _
      · exact List.cons_ne_nil _ _
    · exact body_close_ne_nil _ (List.cons_ne_nil _ _) _

end TextLiteral

namespace Scan

/-- A lexeme that takes nothing from the place on where it is reported is the
line break of a comment. -/
theorem comment_of_body_readAt_eq_nil {c : Char} {cs : List Char}
    (h : (readAt c cs).lexeme.body = []) :
    (readAt c cs).lexeme.kind = .newLine ∧ (comment? (c :: cs)).isSome := by
  have hreads := readsAt c cs
  generalize readAt c cs = r at hreads h ⊢
  cases hreads with
  | lineBreak => exact absurd h (List.cons_ne_nil _ _)
  | comment hcomment => exact ⟨rfl, by rw [hcomment]; rfl⟩
  | word hword => exact absurd h (source_readWord_ne_nil hword cs)
  | numeral hdigit =>
    refine absurd h (Numeral.body_lexeme_ne_nil fun hnil => ?_)
    refine Numeral.source_read_ne_nil hdigit cs ?_
    show (Numeral.Written.lexeme _).source = []
    rw [Numeral.Written.source_lexeme, hnil]
  | string => exact absurd h (TextLiteral.body_readString_ne_nil cs)
  | character => exact absurd h (TextLiteral.body_readCharacter_ne_nil cs)
  | mark =>
    unfold readMark at h
    split at h
    · next k _ => exact absurd h k.toList_spelling_ne_nil
    · exact absurd h (List.cons_ne_nil _ _)

theorem comment_of_body_eq_nil {s : List Char} (hkind : (next s).lexeme.kind ≠ .endOfInput)
    (h : (next s).lexeme.body = []) :
    (next s).lexeme.kind = .newLine ∧ (comment? (Gap.gap s).2).isSome := by
  unfold next at hkind h ⊢
  rcases hgap : Gap.gap s with ⟨gap, _ | ⟨c, cs⟩⟩
  · rw [hgap] at hkind
    exact absurd rfl hkind
  · rw [hgap] at h
    exact comment_of_body_readAt_eq_nil h

end Scan

/-! ### Tokens -/

namespace Lexer

/-- The next token is the line break of a comment. -/
def AtComment (l : Lexer) : Prop :=
  (Scan.comment? (Gap.gap l.unread).2).isSome

/-- From one token on to the next. -/
theorem span_next_next (l : Lexer) :
    l.next.2.next.1.span = l.next.1.span.after
      ((Scan.next l.unread).lexeme.body ++ (Scan.next l.next.2.unread).lexeme.lead) := by
  show (l.position.after (Scan.next l.unread).lexeme.source).after _ = _
  rw [Lexeme.source, Span.after_append, Span.after_append]
  rfl

/-- A token begins before the next one, unless it is the line break of a
comment and the next one begins right behind the comment. -/
theorem span_lt_span_next {l : Lexer} (h : l.next.1.kind ≠ .endOfInput) :
    l.next.1.span < l.next.2.next.1.span ∨
      l.next.1.span = l.next.2.next.1.span ∧ l.next.1.kind = .newLine ∧ l.AtComment := by
  rw [span_next_next]
  by_cases hbody : (Scan.next l.unread).lexeme.body = []
  · obtain ⟨hkind, hcomment⟩ := Scan.comment_of_body_eq_nil h hbody
    by_cases hlead : (Scan.next l.next.2.unread).lexeme.lead = []
    · rw [hbody, hlead]
      exact .inr ⟨rfl, hkind, hcomment⟩
    · exact .inl (Span.lt_after _ (List.append_ne_nil_of_right_ne_nil _ hlead))
  · exact .inl (Span.lt_after _ (List.append_ne_nil_of_left_ne_nil hbody _))

/-- A token other than a line break begins before the position behind it. -/
theorem span_lt_position {l : Lexer} (h : l.next.1.kind ≠ .endOfInput)
    (hbreak : l.next.1.kind ≠ .newLine) : l.next.1.span < l.next.2.position := by
  have hbody : (Scan.next l.unread).lexeme.body ≠ [] := fun hnil =>
    hbreak (Scan.comment_of_body_eq_nil h hnil).1
  have hposition : l.next.2.position = l.next.1.span.after (Scan.next l.unread).lexeme.body :=
    Span.after_append _ _ _
  rw [hposition]
  exact Span.lt_after _ hbody

/-- No token begins before the lexer that reads it. -/
theorem not_before_position (l : Lexer) : ∀ t ∈ l.drain.1, ∃ cs, t.span = l.position.after cs := by
  induction hlength : l.unread.length using Nat.strongRecOn generalizing l with
  | ind length ih =>
    have hfirst : ∃ cs, l.next.1.span = l.position.after cs := ⟨_, rfl⟩
    by_cases h : l.next.1.kind = .endOfInput
    · rw [drain_of_kind h]
      exact List.forall_mem_singleton.2 hfirst
    · rw [drain_of_kind_ne h]
      refine List.forall_mem_cons.2 ⟨hfirst, fun t ht => ?_⟩
      have hlt : l.next.2.unread.length < length := hlength ▸ Scan.length_rest_next_lt h
      obtain ⟨cs, hcs⟩ := ih _ hlt l.next.2 rfl t ht
      refine ⟨(Scan.next l.unread).lexeme.source ++ cs, ?_⟩
      rw [Span.after_append]
      exact hcs

/-- A token other than a line break begins before all tokens behind it. -/
theorem pairwise_drain (l : Lexer) :
    l.drain.1.Pairwise fun t u => t.kind ≠ .newLine → t.span < u.span := by
  induction hlength : l.unread.length using Nat.strongRecOn generalizing l with
  | ind length ih =>
    by_cases h : l.next.1.kind = .endOfInput
    · rw [drain_of_kind h]
      exact List.pairwise_singleton _ _
    · rw [drain_of_kind_ne h]
      have hlt : l.next.2.unread.length < length := hlength ▸ Scan.length_rest_next_lt h
      refine List.pairwise_cons.2 ⟨fun u hu hbreak => ?_, ih _ hlt l.next.2 rfl⟩
      have hposition := span_lt_position h hbreak
      obtain ⟨cs, hcs⟩ := l.next.2.not_before_position u hu
      rw [hcs]
      by_cases hnil : cs = []
      · rw [hnil]
        exact hposition
      · exact Span.lt_trans hposition (Span.lt_after _ hnil)

/-- The tokens that are left are those that calls give one by one. -/
theorem next_of_getElem?_drain {l : Lexer} {k : Nat} {t u : Token} (ht : l.drain.1[k]? = some t)
    (hu : l.drain.1[k + 1]? = some u) :
    t = (l.calls k).2.next.1 ∧ u = (l.calls k).2.next.2.next.1 ∧ t.kind ≠ .endOfInput := by
  induction k generalizing l with
  | zero =>
    by_cases h : l.next.1.kind = .endOfInput
    · rw [drain_of_kind h] at hu
      exact nomatch hu
    · rw [drain_of_kind_ne h] at ht hu
      obtain rfl : l.next.1 = t := Option.some.inj ht
      refine ⟨rfl, ?_, h⟩
      -- The first of the tokens left is the next one, whether others follow it or not.
      show u = l.next.2.next.1
      by_cases h₂ : l.next.2.next.1.kind = .endOfInput
      · rw [drain_of_kind h₂] at hu
        exact (Option.some.inj hu).symm
      · rw [drain_of_kind_ne h₂] at hu
        exact (Option.some.inj hu).symm
  | succ k ih =>
    by_cases h : l.next.1.kind = .endOfInput
    · rw [drain_of_kind h] at hu
      exact nomatch hu
    · rw [drain_of_kind_ne h] at ht hu
      exact ih ht hu

end Lexer

/-- **Tokens stand in the order of their places.**  Each token of a text begins
before the next one, unless it is the line break of a comment and the next token
begins right behind the comment.  Tokens other than line breaks all begin at
different places. -/
theorem tokenize_ordered (text : String) :
    (∀ k t u, (tokenize text)[k]? = some t → (tokenize text)[k + 1]? = some u →
      t.span < u.span ∨
        t.span = u.span ∧ t.kind = .newLine ∧ ((Lexer.ofText text).calls k).2.AtComment) ∧
      (tokenize text).Pairwise fun t u =>
        t.kind ≠ .newLine → u.kind ≠ .newLine → t.span < u.span ∧ t.span ≠ u.span := by
  constructor
  · intro k t u ht hu
    obtain ⟨rfl, rfl, hkind⟩ := Lexer.next_of_getElem?_drain ht hu
    exact Lexer.span_lt_span_next hkind
  · refine (Lexer.pairwise_drain _).imp fun h hbreak _ => ?_
    exact ⟨h hbreak, Span.ne_of_lt (h hbreak)⟩

end ScriptSyntax
