/-
The run of a lexer over a text.

However many tokens have been asked for, the lexer stands between two
characters of its text, at the position that one gets by counting lines and
columns up to there:

* `Lexer.calls k` asks for `k` tokens;
* `Lexer.OnCourse text l` is what holds of every lexer `l` that comes up in the
  run over `text`;
* `Lexer.Reached.onCourse` — it does hold, and so the tokens of a text are
  finitely many, of which the last and no other is the end token.

Design notes: the invariant that is carried from token to token is smaller
(`Lexer.Reached`).  All the rest is about the tokens still to come, and holds of
a lexer wherever it stands.
-/
import Mathlib.Data.List.Induction
import ScriptSyntax.Lexical.Lexer
import ScriptSyntax.Proofs.Text.ByteCursor

namespace ScriptSyntax

/-! ### Counting lines and columns -/

namespace Span

/-- The position behind some characters at the beginning of a text. -/
def counted (cs : List Char) : Span :=
  ⟨1 + cs.count '\n', 1 + (cs.reverse.takeWhile (· ≠ '\n')).length⟩

/-- Reading a text from its start counts its lines and columns. -/
theorem after_start (cs : List Char) : start.after cs = counted cs := by
  induction cs using List.reverseRecOn with
  | nil => rfl
  | append_singleton cs c ih =>
    rw [after_append, ih, after_cons, after_nil, step]
    -- The last character either ends the line or goes on with it.
    by_cases hc : c = '\n'
    · subst hc
      simp [counted, Nat.add_assoc]
    · rw [if_neg hc]
      simp [counted, hc, Nat.add_assoc]

end Span

/-! ### Only the end of a text gives an end token -/

namespace TokenKind

/-- The kinds of numerals. -/
def numerals : List TokenKind :=
  [integer, longInteger, decimal, longDecimal, hexadecimal, octal, binary]

/-- The kinds of words, reserved or not. -/
def words : List TokenKind :=
  [word, null, boolean, controller, isType, isIn, asType]

/-- Neither the end of a text nor a numeral. -/
def IsOrdinary (k : TokenKind) : Prop :=
  k ≠ endOfInput ∧ k ∉ numerals

instance (k : TokenKind) : Decidable k.IsOrdinary :=
  inferInstanceAs (Decidable (_ ∧ _))

end TokenKind

namespace Numeral

theorem kind_mem_numerals (w : Written) (fraction : Bool) :
    w.kind fraction ∈ TokenKind.numerals := by
  unfold Written.kind
  split
  · decide
  · decide
  · cases fraction with
    | true => exact (by decide : TokenKind.decimal ∈ TokenKind.numerals)
    | false => cases w.base <;> decide

theorem kind_of_value {w : Written} {k : TokenKind} {text : List Char}
    (h : w.value = .ok (k, text)) : ∃ fraction, k = w.kind fraction := by
  unfold Written.value at h
  cases hspell : spell w.base false false 0 w.parts with
  | error f =>
    rw [hspell] at h
    exact nomatch h
  | ok r =>
    rw [hspell] at h
    dsimp only [bind, Except.bind] at h
    split at h
    · exact nomatch h
    · split at h
      · exact nomatch h
      · injection h with h
        injection h with hk _
        exact ⟨r.2, hk.symm⟩

theorem kind_read (s : List Char) : (read s).lexeme.kind ∈ .bad :: TokenKind.numerals := by
  show (Written.lexeme _).kind ∈ _
  unfold Written.lexeme
  split
  · next k text h =>
    obtain ⟨fraction, rfl⟩ := kind_of_value h
    exact List.mem_cons_of_mem _ (kind_mem_numerals _ fraction)
  · exact List.mem_cons_self

end Numeral

namespace TextLiteral

theorem kind_readString (s : List Char) : (readString s).lexeme.kind ∈ [.bad, .string] := by
  unfold readString
  split
  · exact (by decide : TokenKind.string ∈ [TokenKind.bad, .string])
  · exact List.mem_cons_self

theorem kind_unclosed (taken s : List Char) : (unclosed taken s).lexeme.kind ∈ [.bad, .char] :=
  List.mem_cons_self

theorem kind_close (bytes : List UInt8) (taken s : List Char) :
    (close bytes taken s).lexeme.kind ∈ [.bad, .char] := by
  unfold close
  dsimp only
  split
  · exact (by decide : TokenKind.char ∈ [TokenKind.bad, .char])
  · exact kind_unclosed _ _

theorem kind_readCharacter (s : List Char) :
    (readCharacter s).lexeme.kind ∈ [.bad, .char] := by
  unfold readCharacter
  dsimp only
  split
  · exact kind_unclosed _ _
  · split
    · split
      · exact kind_close _ _ _
      · exact kind_unclosed _ _
    · exact kind_close _ _ _

end TextLiteral

namespace Scan

theorem kind_readWord (s : List Char) : (readWord s).lexeme.kind ∈ TokenKind.words := by
  show wordKind _ ∈ _
  unfold wordKind TokenKind.reserved?
  split <;> decide

theorem kind_readMark (c : Char) (cs : List Char) :
    (readMark c cs).lexeme.kind ∈ .bad :: TokenKind.marks := by
  unfold readMark
  split
  · next k hk => exact List.mem_cons_of_mem _ (List.mem_of_find?_eq_some hk)
  · exact List.mem_cons_self

/-- How the lexeme at the front of a text is read: what comes first decides. -/
inductive ReadsAt (c : Char) (cs : List Char) : Reading → Prop where
  | lineBreak (hbreak : c = '\n') : ReadsAt c cs ⟨lineBreak [] [c], cs⟩
  | comment {taken rest : List Char} (hcomment : comment? (c :: cs) = some (taken, rest)) :
      ReadsAt c cs ⟨Scan.lineBreak taken [], rest⟩
  | word (hword : isWordStart c) : ReadsAt c cs (readWord (c :: cs))
  | numeral (hdigit : c.isDigit) : ReadsAt c cs (Numeral.read (c :: cs))
  | string (hquote : c = '"') : ReadsAt c cs (TextLiteral.readString cs)
  | character (hquote : c = '\'') : ReadsAt c cs (TextLiteral.readCharacter cs)
  | mark (hcomment : comment? (c :: cs) = none) : ReadsAt c cs (readMark c cs)

theorem readsAt (c : Char) (cs : List Char) : ReadsAt c cs (readAt c cs) := by
  unfold readAt
  split
  · next hbreak => exact .lineBreak hbreak
  · split
    · next hcomment => exact .comment hcomment
    · next hcomment =>
      split_ifs with hword hdigit hquote hquote
      · exact .word hword
      · exact .numeral hdigit
      · exact .string hquote
      · exact .character hquote
      · exact .mark hcomment

/-- What begins a text is read as a numeral, or is none. -/
theorem readAt_cases (c : Char) (cs : List Char) :
    (readAt c cs).lexeme.kind.IsOrdinary ∨
      c.isDigit ∧ readAt c cs = Numeral.read (c :: cs) := by
  have hreads := readsAt c cs
  generalize readAt c cs = r at hreads ⊢
  cases hreads with
  | lineBreak | comment => exact .inl (by decide : TokenKind.newLine.IsOrdinary)
  | word => exact .inl ((by decide : ∀ k ∈ TokenKind.words, k.IsOrdinary) _ (kind_readWord _))
  | numeral hdigit => exact .inr ⟨hdigit, rfl⟩
  | string =>
    exact .inl ((by decide : ∀ k ∈ [TokenKind.bad, .string], k.IsOrdinary) _
      (TextLiteral.kind_readString cs))
  | character =>
    exact .inl ((by decide : ∀ k ∈ [TokenKind.bad, .char], k.IsOrdinary) _
      (TextLiteral.kind_readCharacter cs))
  | mark =>
    exact .inl ((by decide : ∀ k ∈ TokenKind.bad :: TokenKind.marks, k.IsOrdinary) _
      (kind_readMark c cs))

theorem kind_readAt_ne (c : Char) (cs : List Char) :
    (readAt c cs).lexeme.kind ≠ .endOfInput := by
  rcases readAt_cases c cs with h | ⟨-, h⟩
  · exact h.1
  · rw [h]
    exact (by decide : ∀ k ∈ TokenKind.bad :: TokenKind.numerals, k ≠ .endOfInput) _
      (Numeral.kind_read (c :: cs))

/-- The lexeme that ends a text is all of it. -/
theorem next_of_kind {s : List Char} (h : (next s).lexeme.kind = .endOfInput) :
    next s = ⟨ending s, []⟩ := by
  have hgap := Gap.gap_cuts s
  unfold next at h ⊢
  split at h
  · next gap hs =>
    rw [hs, List.append_nil] at hgap
    rw [show gap = s from hgap]
  · next gap c cs hs => exact absurd h (kind_readAt_ne c cs)

end Scan

/-! ### One token -/

namespace Lexer

/-- The end of a text gives the end token, and leaves nothing. -/
theorem next_of_kind {l : Lexer} (h : l.next.1.kind = .endOfInput) :
    l.next = (.endAt (l.position.after l.unread), ⟨l.position.after l.unread, []⟩) := by
  have hnext := Scan.next_of_kind h
  rw [next]
  simp only [hnext]
  simp [Scan.ending, Lexeme.tokenAt, skip, Lexeme.source, Token.endAt]

/-- A lexer with nothing left stays as it is. -/
theorem next_nil (p : Span) : (⟨p, []⟩ : Lexer).next = (.endAt p, ⟨p, []⟩) := by
  have hkind : (⟨p, []⟩ : Lexer).next.1.kind = .endOfInput := by
    show (Scan.next []).lexeme.kind = _
    rw [Scan.next, Gap.gap]
    rfl
  exact next_of_kind hkind

/-- Reading a token leads to where its characters lead. -/
theorem after_next (l : Lexer) :
    l.next.2.position.after l.next.2.unread = l.position.after l.unread := by
  have hcuts : (Scan.next l.unread).lexeme.source ++ (Scan.next l.unread).rest = l.unread :=
    Scan.next_cuts l.unread
  calc l.next.2.position.after l.next.2.unread
      = l.position.after ((Scan.next l.unread).lexeme.source ++ (Scan.next l.unread).rest) :=
        (Span.after_append _ _ _).symm
    _ = l.position.after l.unread := by rw [hcuts]

/-- Any other token takes at least one character. -/
theorem exists_taken {l : Lexer} (h : l.next.1.kind ≠ .endOfInput) :
    ∃ taken, taken ≠ [] ∧ taken ++ l.next.2.unread = l.unread := by
  have hcuts : (Scan.next l.unread).lexeme.source ++ l.next.2.unread = l.unread :=
    Scan.next_cuts l.unread
  refine ⟨(Scan.next l.unread).lexeme.source, fun hnil => ?_, hcuts⟩
  have hlt : l.next.2.unread.length < l.unread.length := Scan.length_rest_next_lt h
  rw [hnil, List.nil_append] at hcuts
  rw [hcuts] at hlt
  exact Nat.lt_irrefl _ hlt

/-! ### All tokens -/

theorem drain_of_kind {l : Lexer} (h : l.next.1.kind = .endOfInput) :
    l.drain = ([l.next.1], l.next.2) := by
  have hlexemes : Scan.lexemes l.unread = [(Scan.next l.unread).lexeme] := by
    rw [Scan.lexemes]
    exact if_pos h
  have hstate := congrArg Prod.snd (next_of_kind h)
  rw [drain, hlexemes, hstate]
  rfl

theorem drain_of_kind_ne {l : Lexer} (h : l.next.1.kind ≠ .endOfInput) :
    l.drain = (l.next.1 :: l.next.2.drain.1, l.next.2.drain.2) := by
  have hlexemes : Scan.lexemes l.unread =
      (Scan.next l.unread).lexeme :: Scan.lexemes (Scan.next l.unread).rest := by
    rw [Scan.lexemes]
    exact if_neg h
  rw [drain, hlexemes, ← after_next]
  rfl

/-- Asks for some tokens, one after the other. -/
def calls : Nat → Lexer → List Token × Lexer
  | 0, l => ([], l)
  | k + 1, l => (l.next.1 :: (calls k l.next.2).1, (calls k l.next.2).2)

/-- Where nothing is left, the end token comes again and again. -/
theorem calls_nil (k : Nat) (p : Span) :
    (⟨p, []⟩ : Lexer).calls k = (List.replicate k (.endAt p), ⟨p, []⟩) := by
  induction k with
  | zero => rfl
  | succ k ih => rw [calls, next_nil, ih, List.replicate_succ]

/-- All tokens that are left are asked for one by one, and only the last is the
end token. -/
theorem exists_drain (l : Lexer) :
    ∃ ts, l.drain.1 = ts ++ [.endAt (l.position.after l.unread)] ∧
      (∀ t ∈ ts, t.kind ≠ .endOfInput) ∧ l.calls (ts.length + 1) = l.drain := by
  -- Every token before the end takes something, so the text left gets shorter.
  induction hlength : l.unread.length using Nat.strongRecOn generalizing l with
  | ind length ih =>
    by_cases h : l.next.1.kind = .endOfInput
    · refine ⟨[], ?_, nofun, ?_⟩
      · rw [drain_of_kind h, next_of_kind h]
        rfl
      · rw [drain_of_kind h]
        rfl
    · have hlt : l.next.2.unread.length < length := by
        rw [← hlength]
        exact Scan.length_rest_next_lt h
      obtain ⟨ts, hts, hkinds, hcalls⟩ := ih _ hlt l.next.2 rfl
      refine ⟨l.next.1 :: ts, ?_, List.forall_mem_cons.2 ⟨h, hkinds⟩, ?_⟩
      · rw [drain_of_kind_ne h, hts, after_next]
        rfl
      · rw [drain_of_kind_ne h, List.length_cons, calls, hcalls]

/-- Every token that is asked for is the next token at that time. -/
theorem exists_calls_of_mem_calls {k : Nat} {l : Lexer} {t : Token} (h : t ∈ (l.calls k).1) :
    ∃ j, t = (l.calls j).2.next.1 := by
  induction k generalizing l with
  | zero => exact absurd h List.not_mem_nil
  | succ k ih =>
    rcases List.mem_cons.1 h with rfl | h
    · exact ⟨0, rfl⟩
    · obtain ⟨j, rfl⟩ := ih h
      exact ⟨j + 1, rfl⟩

theorem exists_calls_of_mem_drain {l : Lexer} {t : Token} (h : t ∈ l.drain.1) :
    ∃ j, t = (l.calls j).2.next.1 := by
  obtain ⟨ts, -, -, hcalls⟩ := exists_drain l
  rw [← hcalls] at h
  exact exists_calls_of_mem_calls h

/-- Every token that is left is the next token of some lexer. -/
theorem exists_next_of_mem_drain {l : Lexer} {t : Token} (h : t ∈ l.drain.1) :
    ∃ l' : Lexer, t = l'.next.1 := by
  obtain ⟨j, rfl⟩ := exists_calls_of_mem_drain h
  exact ⟨_, rfl⟩

/-! ### The run over a text -/

/-- The lexer has come to the end of `read` in a text. -/
structure Reached (text : String) (read : List Char) (l : Lexer) : Prop where
  cut : read ++ l.unread = text.toList
  position : l.position = Span.start.after read

theorem reached_ofText (text : String) : Reached text [] (ofText text) :=
  ⟨rfl, rfl⟩

/-- A token takes the lexer on in its text. -/
theorem Reached.next {text : String} {read : List Char} {l : Lexer} (h : Reached text read l) :
    Reached text (read ++ (Scan.next l.unread).lexeme.source) l.next.2 := by
  have hcuts : (Scan.next l.unread).lexeme.source ++ l.next.2.unread = l.unread :=
    Scan.next_cuts l.unread
  constructor
  · rw [List.append_assoc, hcuts]
    exact h.cut
  · rw [Span.after_append, ← h.position]
    rfl

/-- Some tokens take the lexer on in its text. -/
theorem Reached.calls {text : String} {read : List Char} {l : Lexer} (h : Reached text read l)
    (k : Nat) : ∃ read', Reached text read' (l.calls k).2 := by
  induction k generalizing read l with
  | zero => exact ⟨read, h⟩
  | succ k ih => exact ih h.next

/-- Every token of a text is read where the lexer has come to in it. -/
theorem exists_reached_of_mem_tokenize {text : String} {t : Token} (h : t ∈ tokenize text) :
    ∃ read l, Reached text read l ∧ t = l.next.1 := by
  obtain ⟨j, rfl⟩ := exists_calls_of_mem_drain h
  obtain ⟨read, hread⟩ := (reached_ofText text).calls j
  exact ⟨read, _, hread, rfl⟩

theorem Reached.end_eq {text : String} {read : List Char} {l : Lexer} (h : Reached text read l) :
    l.position.after l.unread = .counted text.toList := by
  rw [h.position, ← Span.after_append, h.cut, Span.after_start]

/-- A lexer that is in the middle of a text, or at its end. -/
structure OnCourse (text : String) (l : Lexer) : Prop where
  /-- The lexer stands between two characters, where a cursor over the bytes of
  the text would stand, and its position counts those before. -/
  between : ∃ read, read ++ l.unread = text.toList ∧ l.position = .counted read ∧
    (ByteCursor.before .start text.toList).advanceBy (Utf8.encode read).length =
      .before l.position l.unread
  /-- A token that is not the end token takes a character. -/
  taken : l.next.1.kind ≠ .endOfInput →
    ∃ taken, taken ≠ [] ∧ taken ++ l.next.2.unread = l.unread
  /-- The end token stands at the end of the text, and is all that follows it. -/
  ended : l.next.1.kind = .endOfInput → l.next.1 = .endAt (.counted text.toList) ∧
    ∀ j, l.next.2.calls j = (List.replicate j l.next.1, l.next.2)
  /-- The tokens that are left are finitely many, and one of them is the end
  token, the last. -/
  drained : ∃ ts, l.drain.1 = ts ++ [.endAt (.counted text.toList)] ∧
    (∀ t ∈ ts, t.kind ≠ .endOfInput) ∧ l.calls (ts.length + 1) = l.drain

theorem Reached.onCourse {text : String} {read : List Char} {l : Lexer}
    (h : Reached text read l) : l.OnCourse text := by
  refine ⟨⟨read, h.cut, ?_, ?_⟩, exists_taken, fun hkind => ?_, ?_⟩
  · rw [h.position, Span.after_start]
  · rw [← h.cut, ByteCursor.advanceBy_encode, ← h.position]
  · rw [next_of_kind hkind, h.end_eq]
    exact ⟨rfl, fun j => calls_nil j _⟩
  · rw [← h.end_eq]
    exact exists_drain l

end Lexer

end ScriptSyntax
