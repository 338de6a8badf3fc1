/-
The next lexeme of a text.

After the blank space at the front of a text, the next character decides what
follows: a line break or a comment that counts as one, a word, a numeral, a
text literal, or a mark.  Of several marks the longest is taken.  Any other
character is a lexeme of its own, and a bad one.

* `Scan.next` is the next lexeme, the end of the text included.
* `Scan.next_cuts` says that nothing is lost, and `Scan.length_rest_next_lt`
  that every lexeme but the end of the text takes at least one character.
* `Scan.lexemes` are all lexemes of a text.
-/
import ScriptSyntax.Lexical.Gap
import ScriptSyntax.Lexical.Numeral
import ScriptSyntax.Lexical.TextLiteral

namespace ScriptSyntax

namespace Scan

/-! ### Words and marks -/

/-- Whether a character can begin a word. -/
def isWordStart (c : Char) : Bool :=
  c.isAlpha || c == '_'

/-- Whether a character can go on with a word. -/
def isWordChar (c : Char) : Bool :=
  c.isAlphanum || c == '_'

/-- The kind of a word. -/
def wordKind (word : List Char) : TokenKind :=
  (TokenKind.reserved? (String.ofList word)).getD .word

/-- Reads the longest word at the front of a text. -/
def readWord (s : List Char) : Reading :=
  let word := s.takeWhile isWordChar
  ⟨.whole (wordKind word) word word, s.dropWhile isWordChar⟩

/-- The longest mark at the front of a text. -/
def mark? (s : List Char) : Option TokenKind :=
  TokenKind.marks.find? fun k => k.spelling.toList.isPrefixOf s

/-- Reads a mark, or the character that is none. -/
def readMark (c : Char) (cs : List Char) : Reading :=
  match mark? (c :: cs) with
  | some k => ⟨.whole k k.spelling.toList k.spelling.toList, (c :: cs).drop k.spelling.toList.length⟩
  | none => ⟨.bad (.unexpectedCharacter c) [c], cs⟩

/-! ### Lines -/

/-- A line break of which `lead` stands before the place where it is reported,
and `body` after it. -/
def lineBreak (lead body : List Char) : Lexeme :=
  ⟨.newLine, TokenKind.newLine.spelling, lead, body⟩

/-- The comment at the front of a text, if there is one, and the text after
it. -/
def comment? : List Char → Option (List Char × List Char)
  | '/' :: '/' :: cs => some ('/' :: '/' :: (Gap.line cs).1, (Gap.line cs).2)
  | '/' :: '*' :: cs => some ('/' :: '*' :: (Gap.blockComment cs).1, (Gap.blockComment cs).2)
  | _ => none

/-! ### Lexemes -/

/-- Reads the lexeme at the front of a text that begins with neither blank
space nor a comment that counts as blank space. -/
def readAt (c : Char) (cs : List Char) : Reading :=
  if c = '\n' then ⟨lineBreak [] [c], cs⟩
  else match comment? (c :: cs) with
    | some (taken, rest) => ⟨lineBreak taken [], rest⟩
    | none =>
      if isWordStart c then readWord (c :: cs)
      else if c.isDigit then Numeral.read (c :: cs)
      else if c = '"' then TextLiteral.readString cs
      else if c = '\'' then TextLiteral.readCharacter cs
      else readMark c cs

/-- The end of a text, with the blank space before it. -/
def ending (gap : List Char) : Lexeme :=
  ⟨.endOfInput, TokenKind.endOfInput.spelling, gap, []⟩

/-- Reads the next lexeme of a text. -/
def next (s : List Char) : Reading :=
  match Gap.gap s with
  | (gap, []) => ⟨ending gap, []⟩
  | (gap, c :: cs) => ⟨(readAt c cs).lexeme.behind gap, (readAt c cs).rest⟩

/-! ### Nothing is lost, and every lexeme takes something -/

theorem isPrefix_of_mark? {s : List Char} {k : TokenKind} (h : mark? s = some k) :
    k.spelling.toList <+: s := by
  simpa [List.isPrefixOf_iff_prefix] using List.find?_some h

theorem readWord_cuts (s : List Char) : (readWord s).Cuts s := by
  simp [readWord, Reading.Cuts]

theorem readMark_cuts (c : Char) (cs : List Char) : (readMark c cs).Cuts (c :: cs) := by
  unfold readMark
  split
  · next k h =>
    have := List.prefix_iff_eq_append.1 (isPrefix_of_mark? h)
    simpa [Reading.Cuts] using this
  · simp [Reading.Cuts]

theorem comment?_cuts {s taken rest : List Char} (h : comment? s = some (taken, rest)) :
    taken ++ rest = s := by
  unfold comment? at h
  split at h
  · next cs =>
    simp only [Option.some.injEq, Prod.mk.injEq] at h
    obtain ⟨rfl, rfl⟩ := h
    simp [Gap.line_cuts]
  · next cs =>
    simp only [Option.some.injEq, Prod.mk.injEq] at h
    obtain ⟨rfl, rfl⟩ := h
    simp [Gap.blockComment_cuts]
  · simp at h

theorem readAt_cuts (c : Char) (cs : List Char) : (readAt c cs).Cuts (c :: cs) := by
  unfold readAt
  split
  · simp [Reading.Cuts, lineBreak, Lexeme.source]
  · split
    · next taken rest h =>
      simpa [Reading.Cuts, lineBreak, Lexeme.source] using comment?_cuts h
    · split
      · exact readWord_cuts _
      · split
        · exact Numeral.read_cuts _
        · split
          · next h => rw [h]; exact TextLiteral.readString_cuts cs
          · split
            · next h => rw [h]; exact TextLiteral.readCharacter_cuts cs
            · exact readMark_cuts c cs

theorem next_cuts (s : List Char) : (next s).Cuts s := by
  have hg := Gap.gap_cuts s
  unfold next
  split
  · next gap h =>
    rw [h] at hg
    simpa [Reading.Cuts, ending, Lexeme.source] using hg
  · next gap c cs h =>
    rw [h] at hg
    have := readAt_cuts c cs
    simp only [Reading.Cuts, Lexeme.source_behind, List.append_assoc] at this ⊢
    rw [this, hg]

theorem source_readWord_ne_nil {c : Char} (h : isWordStart c = true) (cs : List Char) :
    (readWord (c :: cs)).lexeme.source ≠ [] := by
  have hc : isWordChar c = true := by
    simp only [isWordStart, Bool.or_eq_true] at h
    simp only [isWordChar, Char.isAlphanum, Bool.or_eq_true]
    exact h.imp_left .inl
  simp [readWord, hc]

theorem source_readMark_ne_nil (c : Char) (cs : List Char) :
    (readMark c cs).lexeme.source ≠ [] := by
  unfold readMark
  split
  · next k _ => exact k.toList_spelling_ne_nil
  · simp

theorem source_readAt_ne_nil (c : Char) (cs : List Char) :
    (readAt c cs).lexeme.source ≠ [] := by
  unfold readAt
  split
  · simp [lineBreak, Lexeme.source]
  · split
    · next h =>
      unfold comment? at h
      split at h <;> simp_all [lineBreak, Lexeme.source]
      all_goals
        obtain ⟨rfl, -⟩ := h
        simp
    · split
      · next h => exact source_readWord_ne_nil h cs
      · split
        · next h => exact Numeral.source_read_ne_nil h cs
        · split
          · exact TextLiteral.source_readString_ne_nil cs
          · split
            · exact TextLiteral.source_readCharacter_ne_nil cs
            · exact source_readMark_ne_nil c cs

theorem length_rest_readAt_le (c : Char) (cs : List Char) :
    (readAt c cs).rest.length ≤ cs.length := by
  have h := congrArg List.length (readAt_cuts c cs)
  have hp := List.length_pos_iff.2 (source_readAt_ne_nil c cs)
  simp only [List.length_append, List.length_cons] at h
  omega

theorem length_rest_next_lt {s : List Char} (h : (next s).lexeme.kind ≠ .endOfInput) :
    (next s).rest.length < s.length := by
  have hg := Gap.length_gap_le s
  unfold next at h ⊢
  split at h
  · simp [ending] at h
  · next gap c cs he =>
    have := length_rest_readAt_le c cs
    rw [he] at hg
    simp only [List.length_cons] at hg
    dsimp only
    omega

/-! ### All lexemes -/

/-- All lexemes of a text, up to and with the one that ends it. -/
def lexemes (s : List Char) : List Lexeme :=
  let r := next s
  if r.lexeme.kind = .endOfInput then [r.lexeme]
  else r.lexeme :: lexemes r.rest
  termination_by s.length
  decreasing_by exact length_rest_next_lt ‹_›

end Scan

end ScriptSyntax
