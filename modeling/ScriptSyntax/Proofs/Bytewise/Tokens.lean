/-
Tokens byte by byte.

A lexer that works on bytes and a lexer that works on characters read the same tokens from a
text, each at the same position, and after each of them both stand at the same place.  So the
lexer on bytes never stops in the middle of a character, although it may pass through one byte by
byte.

* `Lexer.toBytes l` is the cursor over bytes that stands where `l` stands;
* `ByteCursor.reads_next` and `Lexer.next_toBytes` — the next token is the same;
* `Lexer.calls_toBytes` — so are all others, and `Lexer.calls_before` is this for a whole text.

Design notes: white space and comments are passed in one go on one side and one by one on the
other.  The proof follows the gap in front of the token (`Gap.gap`).
-/
import ScriptSyntax.Proofs.Bytewise.Marks

namespace ScriptSyntax

namespace ByteCursor

open Utf8

variable {x : ByteCursor} {p : Span} {b : UInt8} {bs : List UInt8} {c d fallback : Char}
  {cs s g : List Char}

/-! ### At the first byte of a token -/

/-- At a single byte that begins no comment. -/
theorem reads_readAt (hc : c.toNat < 0x80) (hcomment : Scan.comment? (c :: cs) = none) (p : Span) :
    Reads p (Scan.readAt c cs) ((before p (c :: cs)).readAt fallback c) := by
  rw [Scan.readAt, readAt, hcomment]
  dsimp only
  split_ifs with hbreak hword hdigit hquote hapostrophe
  · rw [advance_narrow hc, Reads]
    rfl
  · exact reads_readWord p (c :: cs)
  · exact reads_readNumber hdigit p cs
  · subst hquote
    exact reads_readString p cs
  · subst hapostrophe
    exact reads_readCharacter p cs
  · exact reads_readMark hc p cs

theorem narrow_isWordStart : Narrow Scan.isWordStart := by
  intro c hc
  refine narrow_isWordChar c ?_
  simp only [Scan.isWordStart, Bool.or_eq_true] at hc
  simp only [Scan.isWordChar, Char.isAlphanum, Bool.or_eq_true]
  exact hc.imp_left .inl

/-- What is no single byte begins no token, be it a character or a byte of one. -/
theorem readAt_wide (hc : ¬ c.toNat < 0x80) (x : ByteCursor) :
    x.readAt fallback c = x.readUnexpected fallback := by
  rw [readAt, if_neg (ne_of_wide hc (by decide)), if_neg fun h => hc (narrow_isWordStart c h),
    if_neg fun h => hc (narrow_isDigit c h), if_neg (ne_of_wide hc (by decide)),
    if_neg (ne_of_wide hc (by decide)),
    readMark_of_notMem fun h => hc (Scan.narrow_markStarts c h)]

/-- Where no comment begins. -/
theorem comment?_eq_none_iff :
    Scan.comment? (c :: cs) = none ↔ ¬ (c = '/' ∧ (cs.head? = some '/' ∨ cs.head? = some '*')) := by
  constructor
  · rintro h ⟨rfl, hslash | hstar⟩
    · obtain ⟨ds, rfl⟩ := List.head?_eq_some_iff.1 hslash
      exact nomatch h
    · obtain ⟨ds, rfl⟩ := List.head?_eq_some_iff.1 hstar
      exact nomatch h
  · intro h
    unfold Scan.comment?
    split
    · next hcs =>
      obtain ⟨rfl, rfl⟩ := List.cons.inj hcs
      exact absurd ⟨rfl, .inl rfl⟩ h
    · next hcs =>
      obtain ⟨rfl, rfl⟩ := List.cons.inj hcs
      exact absurd ⟨rfl, .inr rfl⟩ h
    · rfl

theorem scanAt_wide (hc : ¬ c.toNat < 0x80) (cs : List Char) :
    Scan.readAt c cs = Scan.readMark c cs := by
  have hcomment : Scan.comment? (c :: cs) = none :=
    comment?_eq_none_iff.2 fun h => ne_of_wide hc (by decide) h.1
  rw [Scan.readAt, if_neg (ne_of_wide hc (by decide)), hcomment]
  dsimp only
  rw [if_neg fun h => hc (narrow_isWordStart c h), if_neg fun h => hc (narrow_isDigit c h),
    if_neg (ne_of_wide hc (by decide)), if_neg (ne_of_wide hc (by decide))]

/-! ### In front of a token -/

/-- Blank space in front of a token. -/
theorem Reads.behind {r : Reading} {result : Token × ByteCursor} (h : Reads (p.after g) r result) :
    Reads p ⟨r.lexeme.behind g, r.rest⟩ result := by
  rw [Reads] at h ⊢
  rw [h, Lexeme.source_behind, Span.after_append, Lexeme.tokenAt, Lexeme.tokenAt, Lexeme.behind,
    Span.after_append]

theorem next_eq (fallback : Char) (x : ByteCursor) :
    x.next fallback =
      match (x.skipWhile Gap.isBlank).peek with
      | none => (.endAt (x.skipWhile Gap.isBlank).position, x.skipWhile Gap.isBlank)
      | some c =>
        if c = '/' ∧ ((x.skipWhile Gap.isBlank).peekAt 1 = some '/' ∨
            (x.skipWhile Gap.isBlank).peekAt 1 = some '*') then
          if (x.skipWhile Gap.isBlank).passComment.1 then
            (⟨.newLine, TokenKind.newLine.spelling,
              (x.skipWhile Gap.isBlank).passComment.2.position⟩,
              (x.skipWhile Gap.isBlank).passComment.2)
          else next fallback (x.skipWhile Gap.isBlank).passComment.2
        else (x.skipWhile Gap.isBlank).readAt fallback c := by
  rw [next]
  split <;> next h => rw [h]

theorem narrow_isBlank : Narrow Gap.isBlank := by
  intro c hc
  simp only [Gap.isBlank, Bool.or_eq_true, beq_iff_eq] at hc
  rcases hc with (((rfl | rfl) | rfl) | rfl) | rfl <;> decide

/-- Blank space is passed. -/
theorem next_blank (hc : Gap.isBlank c) (p : Span) (s : List Char) :
    (before p (c :: s)).next fallback = (before (p.step c) s).next fallback := by
  have hskip : (before p (c :: s)).skipWhile Gap.isBlank =
      (before (p.step c) s).skipWhile Gap.isBlank := by
    rw [skipWhile_before narrow_isBlank, skipWhile_before narrow_isBlank,
      List.takeWhile_cons_of_pos hc, List.dropWhile_cons_of_pos hc, Span.after_cons]
  rw [next_eq, next_eq fallback (before (p.step c) s), hskip]

/-- Where no blank space comes first. -/
theorem next_of_peek (hc : (before p s).peek = some d) (hblank : ∀ c ∈ s.head?, ¬ Gap.isBlank c) :
    (before p s).next fallback =
      if d = '/' ∧ ((before p s).peekAt 1 = some '/' ∨ (before p s).peekAt 1 = some '*') then
        if (before p s).passComment.1 then
          (⟨.newLine, TokenKind.newLine.spelling, (before p s).passComment.2.position⟩,
            (before p s).passComment.2)
        else next fallback (before p s).passComment.2
      else (before p s).readAt fallback d := by
  have hskip : (before p s).skipWhile Gap.isBlank = before p s := by
    rw [skipWhile_before narrow_isBlank]
    cases s with
    | nil => rfl
    | cons c s =>
      rw [List.takeWhile_cons_of_neg (hblank c rfl), List.dropWhile_cons_of_neg (hblank c rfl)]
      rfl
  rw [next_eq, hskip, hc]

/-- A comment in front is passed, or it is a line break. -/
theorem next_comment {taken rest : List Char} {crossed : Bool} (hd : d = '/' ∨ d = '*')
    (hpass : (before p ('/' :: d :: s)).passComment = (crossed, before (p.after taken) rest)) :
    (before p ('/' :: d :: s)).next fallback =
      if crossed then
        (⟨.newLine, TokenKind.newLine.spelling, p.after taken⟩, before (p.after taken) rest)
      else (before (p.after taken) rest).next fallback := by
  have hnarrow : d.toNat < 0x80 := by
    rcases hd with rfl | rfl <;> decide
  have hcomment : (before p ('/' :: d :: s)).peekAt 1 = some '/' ∨
      (before p ('/' :: d :: s)).peekAt 1 = some '*' := by
    rw [peekAt_one (by decide), peek_narrow hnarrow]
    exact hd.imp (congrArg some) (congrArg some)
  rw [next_of_peek (peek_narrow (by decide) p _) (by rintro _ ⟨⟩; decide), if_pos ⟨rfl, hcomment⟩,
    hpass]
  rfl

/-- Blank space in front of the next lexeme. -/
theorem scanNext_of_gap {t : List Char} (h : Gap.gap s = (g ++ (Gap.gap t).1, (Gap.gap t).2)) :
    Scan.next s = ⟨(Scan.next t).lexeme.behind g, (Scan.next t).rest⟩ := by
  rw [Scan.next, Scan.next, h]
  rcases Gap.gap t with ⟨g', _ | ⟨c, cs⟩⟩
  · rfl
  · simp [Lexeme.behind]

/-- A comment that is a line break. -/
theorem reads_comment {taken rest : List Char} (hc : c ≠ '\n')
    (h : Scan.comment? (c :: cs) = some (taken, rest)) (p : Span) :
    Reads p (Scan.readAt c cs)
      (⟨.newLine, TokenKind.newLine.spelling, p.after taken⟩, before (p.after taken) rest) := by
  rw [Scan.readAt, if_neg hc, h, Reads]
  simp only [Scan.lineBreak, Lexeme.tokenAt, Lexeme.source, List.append_nil]

/-- Where neither blank space nor a comment comes first. -/
theorem reads_next_token (hblank : Gap.isBlank c = false)
    (hcomment : Scan.comment? (c :: cs) = none) (fallback : Char) (p : Span) :
    Reads p (Scan.next (c :: cs)) ((before p (c :: cs)).next fallback) := by
  have hhead : ∀ d ∈ (c :: cs).head?, ¬ Gap.isBlank d := by
    rintro d ⟨⟩
    rw [hblank]
    decide
  rw [Scan.next_of_gap (Gap.gap_of_comment?_eq_none hblank hcomment)]
  by_cases hnarrow : c.toNat < 0x80
  · rw [next_of_peek (peek_narrow hnarrow p cs) hhead, if_neg]
    · exact reads_readAt hnarrow hcomment p
    · rw [peekAt_one hnarrow, peek_eq_some_iff (by decide), peek_eq_some_iff (by decide)]
      exact comment?_eq_none_iff.1 hcomment
  · obtain ⟨b, b', bs, hunread, hb, -⟩ := exists_unread_wide hnarrow p cs
    have hmark : Scan.mark? (c :: cs) = none :=
      Scan.mark?_eq_none_iff.2 fun h => hnarrow (Scan.narrow_markStarts c h)
    rw [next_of_peek (peek_of_unread hunread) hhead, if_neg fun h => charOf_ne hb (by decide) h.1,
      readAt_wide (charOf_wide hb), scanAt_wide hnarrow]
    exact reads_readUnexpected hmark p

/-- **The next token is read alike in bytes and in characters**, from every place between two
characters. -/
theorem reads_next (fallback : Char) (p : Span) (s : List Char) :
    Reads p (Scan.next s) ((before p s).next fallback) := by
  -- What stands in front of the token is passed piece by piece, on both sides alike.
  fun_induction Gap.gap s generalizing p with
  | case1 =>
    rw [next_eq, Scan.next, Gap.gap]
    rfl
  | case2 cs b hbreak =>
    have hcrossed : b.1.any (· == '\n') := List.any_eq_true.2 ⟨'\n', hbreak, rfl⟩
    rw [next_comment (.inr rfl) (passComment_block p cs), if_pos hcrossed,
      Scan.next_of_gap (by rw [Gap.gap_block rfl, if_pos hbreak])]
    exact reads_comment (by decide) rfl p
  | case3 cs b hbreak ih =>
    have hcrossed : ¬ b.1.any (· == '\n') := by
      rw [List.any_eq_true]
      rintro ⟨c, hc, hnewLine⟩
      exact hbreak (beq_iff_eq.1 hnewLine ▸ hc)
    have hgap : Gap.gap ('/' :: '*' :: cs) =
        ('/' :: '*' :: b.1 ++ (Gap.gap b.2).1, (Gap.gap b.2).2) := by
      rw [Gap.gap_block rfl, if_neg hbreak]
      rfl
    rw [next_comment (.inr rfl) (passComment_block p cs), if_neg hcrossed, scanNext_of_gap hgap]
    exact (ih _).behind
  | case4 c cs _ hc ih =>
    rw [next_blank hc, scanNext_of_gap (t := cs) (g := [c]) (Gap.gap_blank hc cs)]
    exact (ih _).behind
  | case5 c cs hblock hc =>
    by_cases hline : c = '/' ∧ cs.head? = some '/'
    · obtain ⟨rfl, hslash⟩ := hline
      obtain ⟨ds, rfl⟩ := List.head?_eq_some_iff.1 hslash
      rw [next_comment (.inl rfl) (passComment_line p ds), if_pos rfl,
        Scan.next_of_gap (Gap.gap_line ds)]
      exact reads_comment (by decide) rfl p
    · refine reads_next_token (eq_false_of_ne_true hc) (comment?_eq_none_iff.2 ?_) fallback p
      rintro ⟨rfl, hslash | hstar⟩
      · exact hline ⟨rfl, hslash⟩
      · obtain ⟨ds, rfl⟩ := List.head?_eq_some_iff.1 hstar
        exact hblock ds rfl rfl

end ByteCursor

/-! ### All tokens -/

namespace Lexer

open ByteCursor

/-- The cursor over the bytes of the text that is left. -/
def toBytes (l : Lexer) : ByteCursor :=
  before l.position l.unread

theorem next_toBytes (fallback : Char) (l : Lexer) :
    l.toBytes.next fallback = (l.next.1, l.next.2.toBytes) :=
  reads_next fallback l.position l.unread

/-- **The same tokens are read from the bytes of a text as from its characters**, and after each
of them the cursor stands between two characters. -/
theorem calls_toBytes (fallback : Char) (k : Nat) (l : Lexer) :
    l.toBytes.calls fallback k = ((l.calls k).1, (l.calls k).2.toBytes) := by
  induction k generalizing l with
  | zero => rfl
  | succ k ih => rw [ByteCursor.calls, next_toBytes, ih, Lexer.calls]

/-- After some tokens of a text both lexers have read the same tokens, and stand at the same
place. -/
theorem calls_before (text : String) (fallback : Char) (k : Nat) :
    (before .start text.toList).calls fallback k =
      (((ofText text).calls k).1, ((ofText text).calls k).2.toBytes) :=
  calls_toBytes fallback k (ofText text)

end Lexer

end ScriptSyntax
