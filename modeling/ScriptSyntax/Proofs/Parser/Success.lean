/-
What a parser gives when it succeeds.

`p.Gives s a r` says that `p` reads the value `a` from the input `s` and leaves
the input `r`; the log plays no part in it.  Every way of putting parsers
together has one statement here that says what it gives, so that nothing else
has to look into an `Outcome`:

* `gives_bind` — a sequence gives what its second parser gives after its first;
* `gives_expect` — a token of a kind is given exactly if it is the next one;
* `gives_separator` — what ends a statement;
* `gives_nested` — one level further down there must be a grammar.
-/
import ScriptSyntax.Parser.Program

namespace ScriptSyntax

namespace Parser

variable {α β : Type}

/-- Reading `s`, the parser `p` succeeds with `a` and leaves `r`. -/
def Gives (p : Parser α) (s : Input) (a : α) (r : Input) : Prop :=
  (p s).result = .ok a ∧ (p s).rest = r

/-! ### Sequences -/

theorem gives_pure {a b : α} {s r : Input} :
    (Pure.pure a : Parser α).Gives s b r ↔ b = a ∧ r = s := by
  constructor
  · rintro ⟨h, rfl⟩
    exact ⟨(Except.ok.inj h).symm, rfl⟩
  · rintro ⟨rfl, rfl⟩
    exact ⟨rfl, rfl⟩

theorem not_gives_fail {cause : ParseError} {p : Span} {s r : Input} {a : α} :
    ¬ (fail cause p : Parser α).Gives s a r := by
  rintro ⟨h, -⟩
  exact nomatch h

theorem gives_bind {p : Parser α} {f : α → Parser β} {s r : Input} {b : β} :
    (p >>= f).Gives s b r ↔ ∃ a s', p.Gives s a s' ∧ (f a).Gives s' b r := by
  unfold Gives
  rw [bind_run, Parser.bind]
  rcases p s with ⟨e | a, rest, log⟩
  · simp
  · simp only [Except.ok.injEq]
    constructor
    · intro h
      exact ⟨a, rest, ⟨rfl, rfl⟩, h⟩
    · rintro ⟨_, _, ⟨rfl, rfl⟩, h⟩
      exact h

theorem gives_map {f : α → β} {p : Parser α} {s r : Input} {b : β} :
    (f <$> p).Gives s b r ↔ ∃ a, p.Gives s a r ∧ f a = b := by
  unfold Gives
  rw [map_run]
  rcases p s with ⟨e | a, rest, log⟩
  · simp [Except.map]
  · simp only [Except.map, Except.ok.injEq]
    constructor
    · rintro ⟨h, hr⟩
      exact ⟨a, ⟨rfl, hr⟩, h⟩
    · rintro ⟨_, ⟨rfl, hr⟩, h⟩
      exact ⟨h, hr⟩

theorem gives_peek_bind {f : Token → Parser β} {s r : Input} {b : β} :
    (peek >>= f).Gives s b r ↔ (f s.current).Gives s b r :=
  Iff.rfl

theorem gives_input_bind {f : Input → Parser β} {s r : Input} {b : β} :
    (input >>= f).Gives s b r ↔ (f s).Gives s b r :=
  Iff.rfl

theorem gives_advance_bind {f : Token → Parser β} {s r : Input} {b : β} :
    (advance >>= f).Gives s b r ↔ (f s.current).Gives s.advance b r :=
  Iff.rfl

theorem gives_note_bind {e : Event} {f : PUnit → Parser β} {s r : Input} {b : β} :
    (note e >>= f).Gives s b r ↔ (f ⟨⟩).Gives s b r :=
  Iff.rfl

/-! ### Tokens and separators -/

theorem gives_expect {k : TokenKind} {s r : Input} {t : Token} :
    (expect k).Gives s t r ↔ s.current.kind = k ∧ t = s.current ∧ r = s.advance := by
  rw [expect, gives_advance_bind]
  by_cases hk : s.current.kind = k
  · rw [if_pos hk, gives_pure]
    exact ⟨fun h => ⟨hk, h⟩, fun h => h.2⟩
  · rw [if_neg hk]
    exact ⟨fun h => absurd h not_gives_fail, fun h => absurd h.1 hk⟩

/-- A closing token after `p`, and then what `f` makes of the value of `p`. -/
theorem gives_closed {p : Parser α} {k : TokenKind} {f : α → β} {s r : Input} {b : β} :
    (do let a ← p; let _ ← expect k; return f a : Parser β).Gives s b r ↔
      ∃ a s', p.Gives s a s' ∧ s'.current.kind = k ∧ b = f a ∧ r = s'.advance := by
  simp only [gives_bind, gives_expect, gives_pure]
  constructor
  · rintro ⟨a, s', ha, _, _, ⟨hk, -, rfl⟩, hb, hr⟩
    exact ⟨a, s', ha, hk, hb, hr⟩
  · rintro ⟨a, s', ha, hk, hb, hr⟩
    exact ⟨a, s', ha, _, _, ⟨hk, rfl, rfl⟩, hb, hr⟩

/-- What ends a statement that needs a separator: a semicolon, which is taken,
or a line break or the end of the input, which stays. -/
def SeparatorAt (s r : Input) : Prop :=
  s.current.kind = .semicolon ∧ r = s.advance ∨
    s.current.kind ≠ .semicolon ∧ (s.current.kind = .endOfInput ∨ s.afterBreak) ∧ r = s

theorem gives_separator {s r : Input} {u : PUnit} :
    separator.Gives s u r ↔ SeparatorAt s r := by
  rw [separator, gives_input_bind]
  by_cases hk : s.current.kind = .semicolon
  · rw [if_pos hk, gives_advance_bind, gives_pure]
    simp [SeparatorAt, hk]
  · rw [if_neg hk]
    by_cases he : s.current.kind = .endOfInput ∨ s.afterBreak
    · rw [if_pos he, gives_pure]
      simp [SeparatorAt, hk, he]
    · rw [if_neg he]
      simp [SeparatorAt, hk, he, not_gives_fail]

/-! ### Levels -/

/-- What a grammar with `n` levels below it is built on. -/
def levels : Nat → Option Grammar
  | 0 => none
  | n + 1 => some (grammar n)

theorem grammar_eq_above (n : Nat) : grammar n = .above (levels n) := by
  cases n <;> rfl

theorem gives_nested {n : Nat} {p : Span} {read : Grammar → Parser α} {s r : Input} {a : α} :
    (nested (levels n) p read).Gives s a r ↔
      ∃ m, n = m + 1 ∧ (read (.above (levels m))).Gives s a r := by
  cases n with
  | zero => exact ⟨fun h => absurd h not_gives_fail, fun ⟨m, hm, _⟩ => by omega⟩
  | succ n =>
    show (read (grammar n)).Gives s a r ↔ _
    rw [grammar_eq_above]
    constructor
    · intro h
      exact ⟨n, rfl, h⟩
    · rintro ⟨m, hm, h⟩
      obtain rfl : n = m := by omega
      exact h

end Parser

end ScriptSyntax
