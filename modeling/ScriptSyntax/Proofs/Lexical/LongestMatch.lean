/-
Words and marks are taken as long as they can be.

The text of a word or a mark is what the lexer has passed, but for blank space and comments in
front of it.  A word goes on up to a character that is part of no word, and it is reserved only
as a whole.  A mark is the longest of those that the text goes on with there.

* `Scan.length_le_of_mark?` — where a mark has been found no longer one begins;
* `Scan.WordBefore` and `Scan.MarkBefore` — a word and a mark, and what stands behind them;
* `Scan.exists_of_next` — the lexemes of their kinds are such words and marks, behind a gap;
* `exists_takes_of_mem_tokenize` — and so are the tokens of a text, also for a lexer that looks at
  one byte after the other.

Design notes: marks are looked for in a list, longer ones first, and so the first one that fits
is the longest.  Nothing else about the list matters.
-/
import ScriptSyntax.Proofs.Bytewise.Runs

namespace ScriptSyntax

/-! ### The longest mark -/

namespace TokenKind

/-- Whether a kind is spelled with punctuation only: no white space, and nothing that can be
part of a word. -/
def isPunctuation (k : TokenKind) : Bool :=
  k.spelling.toList.all fun c => c ∉ Gap.whites && !Scan.isWordChar c

theorem mem_marks_of_isPunctuation {k : TokenKind} (h : k.isPunctuation) : k ∈ marks := by
  revert h
  cases k <;> decide +kernel

theorem pairwise_marks :
    marks.Pairwise fun j k => k.spelling.toList.length ≤ j.spelling.toList.length := by
  decide +kernel

/-- A word has the kind of a reserved word exactly if it is this word. -/
theorem getD_reserved?_eq_iff {word : String} {k : TokenKind} (hk : k ≠ .word) :
    (reserved? word).getD .word = k ↔ (word, k) ∈ reservedWords := by
  have hlookup : ∀ e ∈ reservedWords, reservedWords.lookup e.1 = some e.2 := by decide
  rw [reserved?_eq_lookup]
  constructor
  · intro h
    cases hword : reservedWords.lookup word with
    | none =>
      rw [hword] at h
      exact absurd h.symm hk
    | some j =>
      rw [hword] at h
      obtain rfl : j = k := h
      obtain ⟨before, behind, hsplit, -⟩ := List.lookup_eq_some_iff.1 hword
      rw [hsplit]
      exact List.mem_append_right _ List.mem_cons_self
  · intro h
    rw [hlookup _ h]
    rfl

end TokenKind

namespace Scan

variable {c : Char} {cs s : List Char} {j k : TokenKind}

/-- Where a mark has been found no longer one begins. -/
theorem length_le_of_mark? (h : mark? s = some k) (hj : j ∈ TokenKind.marks)
    (hbegins : j.spelling.toList <+: s) :
    j.spelling.toList.length ≤ k.spelling.toList.length := by
  obtain ⟨-, before, behind, hmarks, hbefore⟩ := List.find?_eq_some_iff_append.1 h
  have hpairwise := TokenKind.pairwise_marks
  rw [hmarks] at hj hpairwise
  rcases List.mem_append.1 hj with hj | hj
  · have hnot := hbefore j hj
    rw [Bool.not_eq_true', Bool.eq_false_iff, ne_eq, List.isPrefixOf_iff_prefix] at hnot
    exact absurd hbegins hnot
  · rcases List.mem_cons.1 hj with rfl | hj
    · exact Nat.le_refl _
    · have hbehind := (List.pairwise_append.1 hpairwise).2.1
      exact (List.pairwise_cons.1 hbehind).1 j hj

/-! ### Words and marks in front of a text -/

/-- A word of kind `k` in front of `rest`. -/
structure WordBefore (k : TokenKind) (word rest : List Char) : Prop where
  identifier : ∃ w : Identifier, w.chars = word
  /-- No further letter, digit or underscore follows. -/
  ends : ∀ c ∈ rest.head?, isWordChar c = false
  /-- The kind is that of a reserved word exactly if this is the word. -/
  reserved : ∀ j, j ≠ .word → (k = j ↔ (String.ofList word, j) ∈ TokenKind.reservedWords)

/-- A mark of kind `k` in front of `rest`. -/
structure MarkBefore (k : TokenKind) (mark rest : List Char) : Prop where
  spelling : mark = k.spelling.toList
  /-- No longer spelling that is punctuation only begins here. -/
  longest : ∀ j : TokenKind, j.isPunctuation →
    k.spelling.toList.length < j.spelling.toList.length → ¬ j.spelling.toList <+: mark ++ rest
  /-- No comment begins here. -/
  noComment : ¬ ['/', '/'] <+: mark ++ rest ∧ ¬ ['/', '*'] <+: mark ++ rest

theorem wordBefore_readWord (h : isWordStart c) :
    WordBefore (wordKind ((c :: cs).takeWhile isWordChar)) ((c :: cs).takeWhile isWordChar)
      ((c :: cs).dropWhile isWordChar) where
  identifier := by
    let w : Identifier := ⟨c, cs.takeWhile isWordChar, h, List.all_eq_true.1 List.all_takeWhile⟩
    exact ⟨w, (List.takeWhile_cons_of_pos (w.isWordChar c List.mem_cons_self)).symm⟩
  ends := by
    intro d hd
    have hnot := List.head?_dropWhile_not isWordChar (c :: cs)
    rw [Option.mem_def.1 hd] at hnot
    simpa using hnot
  reserved := fun j hj => TokenKind.getD_reserved?_eq_iff hj

theorem not_comment_prefix (h : comment? s = none) :
    ¬ ['/', '/'] <+: s ∧ ¬ ['/', '*'] <+: s := by
  constructor
  · rintro ⟨t, rfl⟩
    exact nomatch h
  · rintro ⟨t, rfl⟩
    exact nomatch h

theorem markBefore_of_mark? (hcomment : comment? s = none) (hmark : mark? s = some k) :
    MarkBefore k k.spelling.toList (s.drop k.spelling.toList.length) := by
  have hcut : k.spelling.toList ++ s.drop k.spelling.toList.length = s :=
    List.prefix_iff_eq_append.1 (isPrefix_of_mark? hmark)
  constructor
  · rfl
  · intro j hj hlength hbegins
    rw [hcut] at hbegins
    have hle := length_le_of_mark? hmark (TokenKind.mem_marks_of_isPunctuation hj) hbegins
    exact absurd hle (Nat.not_le.2 hlength)
  · rw [hcut]
    exact not_comment_prefix hcomment

/-! ### Lexemes -/

/-- A lexeme in front of `rest`, taken as long as it can be if it is a word or a mark. -/
structure LexemeBefore (k : TokenKind) (body rest : List Char) : Prop where
  word : k ∈ TokenKind.words → WordBefore k body rest
  mark : k.isMark → MarkBefore k body rest

/-- No kind is that of a word and that of a mark. -/
theorem not_isMark_of_mem_words : ∀ k ∈ TokenKind.words, ¬ k.isMark := by
  decide

theorem readAt_before (h : (readAt c cs).lexeme.kind ∈ TokenKind.words ++ TokenKind.marks) :
    ∃ k body rest, c :: cs = body ++ rest ∧ readAt c cs = ⟨.whole k body body, rest⟩ ∧
      LexemeBefore k body rest := by
  have hreads := readsAt c cs
  generalize readAt c cs = r at hreads h ⊢
  cases hreads with
  | lineBreak | comment => exact absurd h (by decide : TokenKind.newLine ∉ _)
  | word hword =>
    refine ⟨_, _, _, List.takeWhile_append_dropWhile.symm, rfl, fun _ =>
      wordBefore_readWord hword, fun hmark => ?_⟩
    exact absurd hmark (not_isMark_of_mem_words _ (kind_readWord (c :: cs)))
  | numeral =>
    exact absurd h ((by decide : ∀ k ∈ .bad :: TokenKind.numerals, k ∉ _) _ (Numeral.kind_read _))
  | string =>
    exact absurd h ((by decide : ∀ k ∈ [TokenKind.bad, .string], k ∉ _) _
      (TextLiteral.kind_readString cs))
  | character =>
    exact absurd h ((by decide : ∀ k ∈ [TokenKind.bad, .char], k ∉ _) _
      (TextLiteral.kind_readCharacter cs))
  | mark hcomment =>
    cases hmark : mark? (c :: cs) with
    | none =>
      rw [readMark_of_none hmark] at h
      exact absurd h (by decide : TokenKind.bad ∉ _)
    | some k =>
      have hk : k ∈ TokenKind.marks := List.mem_of_find?_eq_some hmark
      refine ⟨k, _, _, (List.prefix_iff_eq_append.1 (isPrefix_of_mark? hmark)).symm,
        readMark_of_mark? hmark, fun hword => ?_, fun _ => markBefore_of_mark? hcomment hmark⟩
      exact absurd ((TokenKind.mem_marks_iff k).1 hk) (not_isMark_of_mem_words k hword)

/-- A word or a mark is the text behind blank space and closed comments. -/
theorem exists_of_next (h : (next s).lexeme.kind ∈ TokenKind.words ++ TokenKind.marks) :
    ∃ k gap body rest, Gap.Filler gap ∧ s = gap ++ (body ++ rest) ∧
      next s = ⟨(Lexeme.whole k body body).behind gap, rest⟩ ∧ LexemeBefore k body rest := by
  have hgap := Gap.gap_cuts s
  have hfiller : (Gap.gap s).2 ≠ [] → Gap.Filler (Gap.gap s).1 := Gap.filler_gap
  unfold next at h ⊢
  split at h
  · exact absurd h (by decide : TokenKind.endOfInput ∉ _)
  · next gap c cs hs =>
    rw [hs] at hgap hfiller
    obtain ⟨k, body, rest, hcut, hread, hbefore⟩ := readAt_before h
    refine ⟨k, gap, body, rest, hfiller (List.cons_ne_nil c cs), ?_, ?_, hbefore⟩
    · rw [← hcut]
      exact hgap.symm
    · rw [hread]

end Scan

/-! ### Tokens -/

namespace Lexer

/-- The next token of a lexer is `t`, and its text is what the lexer passes between a gap and
`rest`. -/
structure Takes (l : Lexer) (gap : List Char) (t : Token) (rest : List Char) : Prop where
  /-- The gap is blank space and closed comments. -/
  filler : Gap.Filler gap
  unread : l.unread = gap ++ (t.text.toList ++ rest)
  span : t.span = l.position.after gap
  next : l.next = (t, ⟨t.span.after t.text.toList, rest⟩)

theorem exists_takes {l : Lexer} (h : l.next.1.kind ∈ TokenKind.words ++ TokenKind.marks) :
    ∃ gap rest, l.Takes gap l.next.1 rest ∧
      Scan.LexemeBefore l.next.1.kind l.next.1.text.toList rest := by
  obtain ⟨k, gap, body, rest, hfiller, hcut, hnext, hbefore⟩ := Scan.exists_of_next h
  have htoken : l.next = (⟨k, String.ofList body, l.position.after gap⟩,
      ⟨(l.position.after gap).after body, rest⟩) := by
    rw [Lexer.next, skip, hnext, Lexeme.source_behind, Span.after_append]
    simp [Lexeme.tokenAt, Lexeme.behind, Lexeme.whole, Lexeme.source]
  rw [htoken]
  dsimp only
  rw [String.toList_ofList]
  refine ⟨gap, rest, ⟨hfiller, ?_, rfl, ?_⟩, hbefore⟩
  · rw [String.toList_ofList]
    exact hcut
  · rw [String.toList_ofList]
    exact htoken

end Lexer

/-- The next token of a cursor over bytes is `t`, and between a gap and `rest` it passes the bytes
of the text of `t`, and no others. -/
structure ByteCursor.Takes (fallback : Char) (x : ByteCursor) (gap : List Char) (t : Token)
    (rest : List Char) : Prop where
  unread : x.unread = Utf8.encode gap ++ (Utf8.encode t.text.toList ++ Utf8.encode rest)
  start : (x.advanceBy (Utf8.encode gap).length).position = t.span
  next : x.next fallback = (t, x.advanceBy (Utf8.encode (gap ++ t.text.toList)).length)

/-- A cursor over bytes takes what a lexer takes. -/
theorem Lexer.Takes.toBytes {l : Lexer} {gap rest : List Char} {t : Token} (h : l.Takes gap t rest)
    (fallback : Char) : l.toBytes.Takes fallback gap t rest := by
  have hcut : l.toBytes = .before l.position (gap ++ (t.text.toList ++ rest)) := by
    rw [Lexer.toBytes, h.unread]
  have hnext : l.next = (t, ⟨l.position.after (gap ++ t.text.toList), rest⟩) := by
    rw [Span.after_append, ← h.span]
    exact h.next
  constructor
  · rw [hcut, ByteCursor.unread_before, Utf8.encode_append, Utf8.encode_append]
  · rw [hcut, ByteCursor.advanceBy_encode, h.span]
    rfl
  · rw [Lexer.next_toBytes, hcut, hnext, ← List.append_assoc, ByteCursor.advanceBy_encode]
    rfl

/-- **The longest match is taken.**  Every word and every mark among the tokens of a text is
spelled by the characters that the lexer passes for it, behind blank space and comments, from
where it has come to in the text.  A word ends where no letter, digit or underscore follows, and
is reserved only as a whole.  Where a mark stands, neither a comment nor any longer spelling in
punctuation begins.  A lexer that works on the bytes of the text, and branches on one, two or
three of them at a time, takes the same bytes for the same token, from the same place. -/
theorem exists_takes_of_mem_tokenize {text : String} {t : Token} (ht : t ∈ tokenize text)
    (hk : t.kind ∈ TokenKind.words ∨ t.kind.isMark) :
    ∃ k before gap rest, Lexer.Reached text before ((Lexer.ofText text).calls k).2 ∧
      ((Lexer.ofText text).calls k).2.Takes gap t rest ∧
      (∀ fallback, ((ByteCursor.before .start text.toList).calls fallback k).2.Takes fallback
        gap t rest) ∧
      (t.kind ∈ TokenKind.words → Scan.WordBefore t.kind t.text.toList rest) ∧
      (t.kind.isMark → Scan.MarkBefore t.kind t.text.toList rest) := by
  obtain ⟨k, rfl⟩ := Lexer.exists_calls_of_mem_drain ht
  obtain ⟨before, hreached⟩ := (Lexer.reached_ofText text).calls k
  rw [← TokenKind.mem_marks_iff, ← List.mem_append] at hk
  obtain ⟨gap, rest, htakes, hbefore⟩ := Lexer.exists_takes hk
  refine ⟨k, before, gap, rest, hreached, htakes, fun fallback => ?_, hbefore.word, hbefore.mark⟩
  rw [Lexer.calls_before]
  exact htakes.toBytes fallback

/-- Three marks begin behind the comment, and the longest of them is taken. -/
theorem exists_takes_shift_behind_comment :
    ∃ k before gap rest,
      Lexer.Reached "a/**/>>==in2" before ((Lexer.ofText "a/**/>>==in2").calls k).2 ∧
      ((Lexer.ofText "a/**/>>==in2").calls k).2.Takes gap
        ⟨.shiftRightAssign, ">>=", ⟨1, 6⟩⟩ rest ∧
      Scan.MarkBefore .shiftRightAssign ">>=".toList rest := by
  have hmem : ⟨.shiftRightAssign, ">>=", ⟨1, 6⟩⟩ ∈ tokenize "a/**/>>==in2" := by decide +kernel
  obtain ⟨k, before, gap, rest, hreached, htakes, -, -, hmark⟩ :=
    exists_takes_of_mem_tokenize hmem (.inr rfl)
  exact ⟨k, before, gap, rest, hreached, htakes, hmark rfl⟩

end ScriptSyntax
