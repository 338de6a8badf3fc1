/-
Characters that begin no token.

A character that begins no token is an error of its own.  The error names the character and
stands where the character stands, one column wide, and reading goes on behind it.  The lexer on
bytes has to decode the character for that, and always can: wherever it stops, whether behind a
literal or behind another error, it stands between two characters.

* `LexicalError.eq_unexpected` — the wording of the error tells it from all others, and names the
  character;
* `Scan.IsStray c` — the character begins neither a token nor blank space, and
  `Scan.IsStray.next` what is read where it stands;
* `Lexer.exists_of_unexpected` — such a character has been read where the error comes up;
* `Reports` — what it means that a token reports a character, and `reports_stray` that a stray
  character is reported.

Design notes: that the lexer on bytes never falls back on another character is said by letting
this character be any one: the tokens do not depend on it.
-/
import ScriptSyntax.Proofs.Bytewise.Tokens

namespace ScriptSyntax

variable {c d : Char} {cs ds s : List Char} {l : Lexer}

/-! ### The wording -/

theorem LexicalError.toList_message (c : Char) :
    (unexpectedCharacter c).message.toList =
      "Unexpected character '".toList ++ ([c] ++ "'".toList) := by
  have hmessage : (unexpectedCharacter c).message =
      "Unexpected character '" ++ String.singleton c ++ "'" := rfl
  rw [hmessage, String.toList_append, String.toList_append, String.toList_singleton,
    List.append_assoc]

/-- No other error is worded like that of a character. -/
theorem LexicalError.eq_unexpected {e : LexicalError}
    (h : e.message = (unexpectedCharacter c).message) : e = unexpectedCharacter c := by
  have hlist := congrArg String.toList h
  have hletter : (unexpectedCharacter c).message.toList[2]? = some 'e' := by
    have hwords : "Unexpected character '".toList[2]? = some 'e' := by decide +kernel
    have hlength : 2 < "Unexpected character '".toList.length := by decide +kernel
    rw [toList_message, List.getElem?_append_left hlength, hwords]
  cases e with
  | unexpectedCharacter d =>
    rw [toList_message, toList_message, List.append_cancel_left_eq,
      List.append_cancel_right_eq] at hlist
    rw [(List.cons.inj hlist).1]
  | _ =>
    -- The third letters differ.
    rw [← hlist] at hletter
    exact absurd hletter (by decide +kernel)

/-- A lexeme that is no error, or another one than that of a character. -/
def Lexeme.IsOther (x : Lexeme) : Prop :=
  x.kind ≠ .bad ∨ ∃ e : LexicalError, (∀ c, e ≠ .unexpectedCharacter c) ∧ x.text = e.message

theorem Lexeme.IsOther.false {x : Lexeme} (h : x.IsOther) (hkind : x.kind = .bad)
    (htext : x.text = (LexicalError.unexpectedCharacter c).message) : False := by
  rcases h with hother | ⟨e, he, hmessage⟩
  · exact hother hkind
  · exact he c (LexicalError.eq_unexpected (hmessage.symm.trans htext))

theorem Numeral.isOther_read (s : List Char) : (Numeral.read s).lexeme.IsOther := by
  rcases ofNumeral_tokenAt (Written.ofText s).1 .start with hkind | ⟨-, e, he, htext⟩
  · refine .inl fun hbad => ?_
    have hall : ∀ k ∈ TokenKind.numerals, k ≠ .bad := by decide
    exact hall _ hkind hbad
  · refine .inr ⟨e, ?_, htext⟩
    rintro c rfl
    exact Bool.noConfusion he

theorem TextLiteral.isOther_readString (s : List Char) : (readString s).lexeme.IsOther := by
  unfold readString
  split
  · exact .inl nofun
  · exact .inr ⟨.unterminatedString, nofun, rfl⟩

theorem TextLiteral.isOther_readCharacter (s : List Char) :
    (readCharacter s).lexeme.IsOther := by
  rcases readCharacter_cases s with ⟨bytes, literal, -, hlexeme⟩ | ⟨body, hlexeme⟩
  · rw [hlexeme]
    exact .inl nofun
  · rw [hlexeme]
    exact .inr ⟨.unterminatedCharacter, nofun, rfl⟩

namespace Scan

/-! ### Stray characters -/

/-- A character that begins neither a token nor blank space. -/
structure IsStray (c : Char) : Prop where
  blank : Gap.isBlank c = false
  lineBreak : c ≠ '\n'
  word : ¬ isWordStart c
  digit : ¬ c.isDigit
  quote : c ≠ '"'
  apostrophe : c ≠ '\''
  mark : c ∉ markStarts

/-- A slash is a mark. -/
theorem IsStray.comment (h : IsStray c) (cs : List Char) : comment? (c :: cs) = none := by
  refine ByteCursor.comment?_eq_none_iff.2 fun hslash => h.mark ?_
  rw [hslash.1]
  decide

theorem IsStray.readAt (h : IsStray c) (cs : List Char) :
    readAt c cs = ⟨.bad (.unexpectedCharacter c) [c], cs⟩ := by
  rw [Scan.readAt, if_neg h.lineBreak, h.comment]
  dsimp only
  rw [if_neg h.word, if_neg h.digit, if_neg h.quote, if_neg h.apostrophe, readMark,
    mark?_eq_none_iff.2 h.mark]

/-- Wherever a stray character stands, it is taken for itself. -/
theorem IsStray.next (h : IsStray c) (cs : List Char) :
    next (c :: cs) = ⟨.bad (.unexpectedCharacter c) [c], cs⟩ := by
  rw [next_of_gap (Gap.gap_of_comment?_eq_none h.blank (h.comment cs)), h.readAt]

/-- The error of a character is read at a stray character, and names it. -/
theorem isStray_of_readAt (hblank : Gap.isBlank d = false)
    (hkind : (readAt d ds).lexeme.kind = .bad)
    (htext : (readAt d ds).lexeme.text = (LexicalError.unexpectedCharacter c).message) :
    d = c ∧ IsStray d := by
  have hnewLine : TokenKind.newLine ≠ .bad := by decide
  by_cases hbreak : d = '\n'
  · rw [readAt, if_pos hbreak] at hkind
    exact absurd hkind hnewLine
  rw [readAt, if_neg hbreak] at hkind htext
  cases hcomment : comment? (d :: ds) with
  | some r =>
    rw [hcomment] at hkind
    exact absurd hkind hnewLine
  | none =>
    rw [hcomment] at hkind htext
    dsimp only at hkind htext
    split_ifs at hkind htext with hword hdigit hquote hapostrophe
    · have hwords : ∀ k ∈ TokenKind.words, k ≠ .bad := by decide
      exact absurd hkind (hwords _ (kind_readWord _))
    · exact ((Numeral.isOther_read _).false hkind htext).elim
    · exact ((TextLiteral.isOther_readString _).false hkind htext).elim
    · exact ((TextLiteral.isOther_readCharacter _).false hkind htext).elim
    · cases hmark : mark? (d :: ds) with
      | some k =>
        have hmarks : ∀ k ∈ TokenKind.marks, k ≠ .bad := by decide
        rw [readMark, hmark] at hkind
        exact absurd hkind (hmarks k (List.mem_of_find?_eq_some hmark))
      | none =>
        rw [readMark, hmark] at htext
        have herror := LexicalError.eq_unexpected (e := .unexpectedCharacter d) htext
        exact ⟨LexicalError.unexpectedCharacter.inj herror,
          hblank, hbreak, hword, hdigit, hquote, hapostrophe, mark?_eq_none_iff.1 hmark⟩

end Scan

/-! ### Tokens -/

namespace Lexer

/-- Where the error of a character is read, the character stands behind a gap. -/
theorem exists_of_unexpected (hkind : l.next.1.kind = .bad)
    (htext : l.next.1.text = (LexicalError.unexpectedCharacter c).message) :
    ∃ gap rest, l.unread = gap ++ c :: rest ∧ Gap.Filler gap ∧ Scan.IsStray c := by
  have hcuts := Gap.gap_cuts l.unread
  have hgap := Gap.gap_gap l.unread
  have hfiller := Gap.filler_gap (s := l.unread)
  change (Scan.next l.unread).lexeme.kind = .bad at hkind
  change (Scan.next l.unread).lexeme.text = _ at htext
  rw [Scan.next] at hkind htext
  -- The end of a text is no error, so there is a character behind the gap.
  rcases hs : Gap.gap l.unread with ⟨gap, _ | ⟨d, ds⟩⟩
  · have hend : TokenKind.endOfInput ≠ .bad := by decide
    rw [hs] at hkind
    exact absurd hkind hend
  · rw [hs] at hkind htext hcuts hgap hfiller
    have hblank : Gap.isBlank d = false := by
      rw [← Bool.not_eq_true]
      intro hd
      rw [Gap.gap_blank hd] at hgap
      exact absurd (congrArg Prod.fst hgap) (List.cons_ne_nil _ _)
    obtain ⟨rfl, hstray⟩ := Scan.isStray_of_readAt hblank hkind htext
    exact ⟨gap, ds, hcuts.symm, hfiller (List.cons_ne_nil d ds), hstray⟩

/-- Behind a gap a stray character is an error, one column wide. -/
theorem next_stray {g : List Char} (hg : Gap.Filler g) (hc : Scan.IsStray c) (p : Span)
    (s : List Char) :
    (⟨p, g ++ c :: s⟩ : Lexer).next =
      (⟨.bad, (LexicalError.unexpectedCharacter c).message, p.after g⟩,
        ⟨⟨(p.after g).line, (p.after g).column + 1⟩, s⟩) := by
  have hstep : (p.after g).step c = ⟨(p.after g).line, (p.after g).column + 1⟩ :=
    if_neg hc.lineBreak
  rw [next_passable hg.passable, next, hc.next, ← hstep]
  rfl

end Lexer

open Utf8

/-- Where the lexer on bytes comes to after `k` tokens of a text and the bytes of a gap. -/
def ByteCursor.reached (text : String) (fallback : Char) (k : Nat) (gap : List Char) : ByteCursor :=
  ((Lexer.ofText text).toBytes.calls fallback k).2.advanceBy (encode gap).length

/-- The token `t` reports the character `c`: in the text stands `c` behind a gap, at the place of
the token, and the lexer comes to the gap after `k` tokens. -/
structure Reports (text : String) (t : Token) (c : Char) (k : Nat) (read gap rest : List Char) :
    Prop where
  cut : text.toList = read ++ gap ++ c :: rest
  filler : Gap.Filler gap
  span : t.span = .counted (read ++ gap)
  reached : ((Lexer.ofText text).calls k).2 = ⟨.counted read, gap ++ c :: rest⟩
  /-- Behind the character, one column on, reading goes on. -/
  next : ((Lexer.ofText text).calls k).2.next =
    (t, ⟨⟨t.span.line, t.span.column + 1⟩, rest⟩)
  /-- On bytes the token is read behind the gap, whichever character may be put for others. -/
  next_bytes : ∀ fallback, (ByteCursor.reached text fallback k []).next fallback =
    (ByteCursor.reached text fallback k gap).readUnexpected fallback
  /-- What is decoded there are the bytes of the character, all of them and no others. -/
  slice : ∀ fallback, (ByteCursor.reached text fallback k gap).slice = encodeChar c ∧
    (ByteCursor.reached text fallback k gap).character? = some c

theorem ByteCursor.reached_eq {text : String} {k : Nat} {read gap rest : List Char}
    (h : ((Lexer.ofText text).calls k).2 = ⟨.counted read, gap ++ rest⟩) (fallback : Char) :
    reached text fallback k gap = before (.counted (read ++ gap)) rest := by
  rw [reached, Lexer.calls_toBytes, h, Lexer.toBytes, advanceBy_encode, Span.after_counted]

/-- A stray character behind a gap is reported. -/
theorem reports_stray {text : String} {k : Nat} {read gap rest : List Char}
    (hcut : text.toList = read ++ gap ++ c :: rest)
    (hl : ((Lexer.ofText text).calls k).2 = ⟨.counted read, gap ++ c :: rest⟩)
    (hgap : Gap.Filler gap) (hc : Scan.IsStray c) :
    Reports text ((Lexer.ofText text).calls k).2.next.1 c k read gap rest := by
  have hnext := Lexer.next_stray hgap hc (.counted read) rest
  have hstep : (Span.counted (read ++ gap)).step c =
      ⟨(Span.counted (read ++ gap)).line, (Span.counted (read ++ gap)).column + 1⟩ :=
    if_neg hc.lineBreak
  rw [Span.after_counted] at hnext
  constructor
  · exact hcut
  · exact hgap
  · rw [hl, hnext]
  · exact hl
  · rw [hl, hnext]
  · intro fallback
    have hstart : ByteCursor.reached text fallback k [] =
        ((Lexer.ofText text).calls k).2.toBytes :=
      congrArg Prod.snd (Lexer.calls_before text fallback k)
    rw [hstart, Lexer.next_toBytes, ByteCursor.reached_eq hl, ByteCursor.readUnexpected_before, hl,
      hnext, hstep]
    rfl
  · intro fallback
    rw [ByteCursor.reached_eq hl]
    exact ⟨ByteCursor.slice_before _ _ _, ByteCursor.character?_before _ _ _⟩

/-- **Unexpected characters are reported faithfully.**  The lexer on bytes reads the tokens of a
text and comes to stand between two characters after each of them, whichever character it may put
for bytes that are none: there are no such bytes.  An error that names a character stands where
this character stands in the text, and takes it and nothing else.  The character begins no token:
wherever one may begin and there is the character, there is the same error. -/
theorem unexpected_character (text : String) :
    (∀ fallback k, (ByteCursor.before .start text.toList).calls fallback k =
      (((Lexer.ofText text).calls k).1, ((Lexer.ofText text).calls k).2.toBytes)) ∧
    ∀ t ∈ tokenize text, ∀ c, t.kind = .bad →
      t.text = "Unexpected character '" ++ String.singleton c ++ "'" →
      (∃ k read gap rest, Reports text t c k read gap rest) ∧
        ∀ g, Gap.Filler g → ∀ p s, (⟨p, g ++ c :: s⟩ : Lexer).next =
          (⟨.bad, t.text, p.after g⟩, ⟨⟨(p.after g).line, (p.after g).column + 1⟩, s⟩) := by
  refine ⟨Lexer.calls_before text, ?_⟩
  intro t ht c hkind htext
  obtain ⟨k, rfl⟩ := Lexer.exists_calls_of_mem_drain ht
  obtain ⟨read, hread⟩ := (Lexer.reached_ofText text).calls k
  obtain ⟨gap, rest, hunread, hgap, hstray⟩ := Lexer.exists_of_unexpected hkind htext
  have hcut : text.toList = read ++ gap ++ c :: rest := by
    rw [← hread.cut, hunread, List.append_assoc]
  have hl : ((Lexer.ofText text).calls k).2 = ⟨.counted read, gap ++ c :: rest⟩ := by
    rw [← hunread, ← Span.after_start, ← hread.position]
  refine ⟨⟨k, read, gap, rest, reports_stray hcut hl hgap hstray⟩, fun g hg p s => ?_⟩
  rw [Lexer.next_stray hg hstray, htext]
  rfl

/-- Behind a literal that is cut off in the middle of a character, and behind a comment, `😀` is
reported, and so it is behind a blank. -/
theorem unexpected_character_emoji :
    (⟨.bad, "Unexpected character '😀'", ⟨1, 12⟩⟩ : Token) ∈ tokenize "'\\é' /*é*/ 😀;" ∧
      (∃ k read gap rest, Reports "'\\é' /*é*/ 😀;"
        ⟨.bad, "Unexpected character '😀'", ⟨1, 12⟩⟩ '😀' k read gap rest) ∧
      (⟨.start, [' ', '😀', '1']⟩ : Lexer).next =
        (⟨.bad, "Unexpected character '😀'", ⟨1, 2⟩⟩, ⟨⟨1, 3⟩, ['1']⟩) := by
  have hmem : (⟨.bad, "Unexpected character '😀'", ⟨1, 12⟩⟩ : Token) ∈
      tokenize "'\\é' /*é*/ 😀;" := by
    decide +kernel
  have hfiller : Gap.Filler [' '] := .blank rfl .nil
  obtain ⟨hreports, hnext⟩ := (unexpected_character _).2 _ hmem '😀' rfl (by decide +kernel)
  exact ⟨hmem, hreports, hnext [' '] hfiller .start ['1']⟩

end ScriptSyntax
