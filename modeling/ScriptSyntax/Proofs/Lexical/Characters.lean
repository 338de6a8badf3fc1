/-
Texts of character literals.

A character literal holds one unit, and the bytes of this unit may be those of several
characters.

* `TextLiteral.IsCharacter bytes s` — the characters `s` are a character literal whose unit
  stands for `bytes`;
* `Lexer.Reached.exists_isCharacter` — a token that is a character is read from such a literal;
* `TextLiteral.length_text_eq_one_iff` — its text is one character exactly if there is a single
  byte or if some character begins with the bytes.

Design notes: what an escape takes is a unit wherever it stands (`TextLiteral.spells_read`), so
the literals are described without saying what follows them.
-/
import ScriptSyntax.Proofs.Lexical.NumeralExtents
import ScriptSyntax.Proofs.Lexical.TextUnits
import ScriptSyntax.Proofs.Text.Bytes

namespace ScriptSyntax

/-! ### Units stand for something -/

theorem Radix.bytesFrom_ne_nil (r : Radix) {ds : List Nat} (h : ds ≠ []) (high : Nat) :
    r.bytesFrom high ds ≠ [] := by
  induction ds generalizing high with
  | nil => exact absurd rfl h
  | cons d ds ih =>
    rw [bytesFrom]
    split
    · exact List.cons_ne_nil _ _
    · next hgroup =>
      refine ih ?_ _
      rintro rfl
      exact hgroup (Nat.zero_mod _)

namespace TextLiteral

variable {s : List Char} {bytes : List UInt8}

theorem Spells.bytes_ne_nil {u : List Char} (hu : Spells u bytes) : bytes ≠ [] := by
  have hchar : ∀ c, Utf8.encodeChar c ≠ [] := by
    intro c
    obtain ⟨b, bs, hbytes, -⟩ := Utf8.encodeChar_eq_cons c
    rw [hbytes]
    exact List.cons_ne_nil _ _
  cases hu with
  | plain => exact hchar _
  | escape c =>
    rw [Escape.single]
    cases Escape.control? c with
    | some b => exact List.cons_ne_nil _ _
    | none => exact hchar c
  | run _ hne => exact Radix.bytesFrom_ne_nil _ (List.map_eq_nil_iff.not.2 hne) _

/-- What an escape takes is a unit. -/
theorem spells_read (c : Char) (cs : List Char) :
    Spells ('\\' :: (Escape.read (c :: cs)).taken) (Escape.read (c :: cs)).bytes := by
  -- Without digits an escape is one character, whichever it is.
  have hsingle := Spells.escape c
  cases hc : Escape.control? c with
  | some b =>
    rw [Escape.read_of_control? hc]
    rwa [Escape.single, hc] at hsingle
  | none =>
    rw [Escape.single_of_control?_eq_none hc] at hsingle
    cases hr : Radix.ofLetter? c with
    | none => rwa [Escape.read_other hc hr]
    | some r =>
      rw [Escape.read_of_ofLetter? hc hr]
      split
      · exact hsingle
      · next hne => exact .run hr hne (r.isRun_digits cs)

/-! ### Literals -/

/-- Between apostrophes stands a unit, and perhaps white space that is dropped. -/
def IsCharacter (bytes : List UInt8) (s : List Char) : Prop :=
  ∃ gap u gap', s = marked '\'' (gap ++ u ++ gap') ∧ (∀ c ∈ gap ++ gap', isDropped c) ∧
    Spells u bytes

/-- A literal is closed by an apostrophe behind white space, or it is an error. -/
theorem close_cases (bytes : List UInt8) (taken s : List Char) :
    (∃ gap, (∀ c ∈ gap, isDropped c) ∧
        (close bytes taken s).lexeme = .whole .char (textOf bytes) (taken ++ gap ++ ['\''])) ∨
      ∃ body, (close bytes taken s).lexeme = .bad .unterminatedCharacter body := by
  by_cases hquote : ∃ r, s.dropWhile isDropped = '\'' :: r
  · obtain ⟨r, hr⟩ := hquote
    rw [close_of_quote hr]
    exact .inl ⟨_, List.all_eq_true.1 List.all_takeWhile, rfl⟩
  · rw [close_of_not_quote (not_exists.1 hquote)]
    exact .inr ⟨_, rfl⟩

/-- Behind an apostrophe stands a character literal, or it is an error. -/
theorem readCharacter_cases (s : List Char) :
    (∃ bytes literal, IsCharacter bytes literal ∧
        (readCharacter s).lexeme = .whole .char (textOf bytes) literal) ∨
      ∃ body, (readCharacter s).lexeme = .bad .unterminatedCharacter body := by
  rcases exists_gap s with hgap | ⟨gap, c, cs, rfl, hgap, hdropped⟩
  · rw [readCharacter_gap hgap]
    exact .inr ⟨_, rfl⟩
  · by_cases hc : c = '\\'
    · subst hc
      cases cs with
      | nil =>
        rw [readCharacter_escape_of_not_mem hgap List.not_mem_nil]
        exact .inr ⟨_, rfl⟩
      | cons d ds =>
        rw [readCharacter_escape hgap]
        split
        · rcases close_cases (Escape.read (d :: ds)).bytes
            ('\'' :: gap ++ '\\' :: (Escape.read (d :: ds)).taken) (Escape.read (d :: ds)).rest with
            ⟨gap', hgap', hclose⟩ | hbad
          · refine .inl ⟨_, _, ⟨gap, _, gap', ?_, ?_, spells_read d ds⟩, hclose⟩
            · simp [marked]
            · exact List.forall_mem_append.2 ⟨hgap, hgap'⟩
          · exact .inr hbad
        · exact .inr ⟨_, rfl⟩
    · rw [readCharacter_plain hgap hdropped hc]
      rcases close_cases (Utf8.encodeChar c) ('\'' :: gap ++ [c]) cs with
        ⟨gap', hgap', hclose⟩ | hbad
      · refine .inl ⟨_, _, ⟨gap, [c], gap', ?_, ?_, .plain hc hdropped⟩, hclose⟩
        · simp [marked]
        · exact List.forall_mem_append.2 ⟨hgap, hgap'⟩
      · exact .inr hbad

end TextLiteral

open TextLiteral

/-! ### Tokens -/

namespace Scan

/-- Characters are read behind apostrophes only. -/
theorem readAt_char_cases (c : Char) (cs : List Char) :
    (readAt c cs).lexeme.kind ≠ .char ∨ readAt c cs = readCharacter cs := by
  have hreads := readsAt c cs
  generalize readAt c cs = r at hreads ⊢
  cases hreads with
  | lineBreak | comment => exact .inl nofun
  | word => exact .inl ((by decide : ∀ k ∈ TokenKind.words, k ≠ .char) _ (kind_readWord _))
  | numeral =>
    exact .inl ((by decide : ∀ k ∈ TokenKind.bad :: TokenKind.numerals, k ≠ .char) _
      (Numeral.kind_read _))
  | string =>
    exact .inl ((by decide : ∀ k ∈ [TokenKind.bad, .string], k ≠ .char) _ (kind_readString cs))
  | character => exact .inr rfl
  | mark =>
    exact .inl ((by decide : ∀ k ∈ TokenKind.bad :: TokenKind.marks, k ≠ .char) _
      (kind_readMark c cs))

/-- A character is a character literal with a gap in front. -/
theorem exists_of_next_char {s : List Char} (h : (next s).lexeme.kind = .char) :
    ∃ bytes gap literal, IsCharacter bytes literal ∧
      (next s).lexeme = (Lexeme.whole .char (textOf bytes) literal).behind gap := by
  unfold next at h ⊢
  split at h
  · cases h
  · next gap c cs _ =>
    have hread := (readAt_char_cases c cs).resolve_left (not_not.2 h)
    rw [hread] at h ⊢
    rcases readCharacter_cases cs with ⟨bytes, literal, hliteral, hlexeme⟩ | ⟨body, hbad⟩
    · exact ⟨bytes, gap, literal, hliteral, congrArg (Lexeme.behind gap) hlexeme⟩
    · rw [hbad] at h
      cases h

end Scan

/-- A token that is a character is read from a character literal. -/
theorem Lexer.Reached.exists_isCharacter {text : String} {read : List Char} {l : Lexer}
    (hl : Reached text read l) (h : l.next.1.kind = .char) :
    ∃ bytes front literal back, IsCharacter bytes literal ∧
      text.toList = front ++ literal ++ back ∧
      l.next.1 = ⟨.char, String.ofList (textOf bytes), .counted front⟩ := by
  obtain ⟨bytes, gap, literal, hliteral, hlexeme⟩ := Scan.exists_of_next_char h
  have hcuts : gap ++ literal ++ (Scan.next l.unread).rest = l.unread := by
    have hnext : (Scan.next l.unread).lexeme.source ++ (Scan.next l.unread).rest = l.unread :=
      Scan.next_cuts l.unread
    rwa [hlexeme, Lexeme.source_behind, Lexeme.source_whole] at hnext
  refine ⟨bytes, read ++ gap, literal, (Scan.next l.unread).rest, hliteral, ?_, ?_⟩
  · rw [List.append_assoc, List.append_assoc, ← List.append_assoc gap, hcuts, hl.cut]
  · rw [Lexer.next]
    simp only [hlexeme]
    rw [← Span.after_start, Span.after_append, ← hl.position, Lexeme.tokenAt, Lexeme.behind,
      Lexeme.whole, List.append_nil]

namespace TextLiteral

theorem length_textOf_eq_one_iff {bytes : List UInt8} (h : bytes ≠ []) :
    (textOf bytes).length = 1 ↔ bytes.length = 1 ∨ ∃ c, bytes <+: Utf8.encodeChar c := by
  rw [textOf, Utf8.decodeLossy, List.length_map, Utf8.length_decode_eq_one_iff, and_iff_right h]

theorem textOf_ne_nil {bytes : List UInt8} (h : bytes ≠ []) : textOf bytes ≠ [] := by
  rw [textOf, Utf8.decodeLossy, Ne, List.map_eq_nil_iff]
  exact fun hnil => h (Utf8.decodeFrom_eq_nil_iff.1 hnil).2

/-- **Which character literals hold one character.**  A token that is a character comes from a
literal with one unit between apostrophes, and its text is what the bytes of this unit are read
as.  It is not empty, and it is one character exactly if there is a single byte or if some
character begins with the bytes.  Any other token that begins with an apostrophe is an error. -/
theorem length_text_eq_one_iff (text : String) :
    (∀ t ∈ tokenize text, t.kind = .char →
        ∃ bytes front literal back, IsCharacter bytes literal ∧
          text.toList = front ++ literal ++ back ∧ t.span = .counted front ∧
          t.text = String.ofList (Utf8.decodeLossy bytes) ∧ t.text ≠ "" ∧
          (t.text.length = 1 ↔ bytes.length = 1 ∨ ∃ c, bytes <+: Utf8.encodeChar c)) ∧
      ∀ read l g s, Lexer.Reached text read l → Gap.Filler g → l.unread = g ++ '\'' :: s →
        l.next.1.kind = .char ∨
          l.next.1 = ⟨.bad, "Unterminated character", .counted (read ++ g)⟩ := by
  constructor
  · intro t ht hkind
    obtain ⟨read, l, hl, rfl⟩ := Lexer.exists_reached_of_mem_tokenize ht
    obtain ⟨bytes, front, literal, back, hliteral, hcut, htoken⟩ := hl.exists_isCharacter hkind
    have hne : bytes ≠ [] := by
      obtain ⟨_, _, _, -, -, hu⟩ := hliteral
      exact hu.bytes_ne_nil
    refine ⟨bytes, front, literal, back, hliteral, hcut, ?_⟩
    rw [htoken]
    refine ⟨rfl, rfl, ?_, ?_⟩
    · rw [Ne, ← String.toList_inj, String.toList_ofList]
      exact textOf_ne_nil hne
    · rw [String.length_ofList]
      exact length_textOf_eq_one_iff hne
  · intro read l g s hl hg hunread
    have hnext : l.next = (⟨.counted (read ++ g), '\'' :: s⟩ : Lexer).next := by
      rw [← Span.after_start, Span.after_append, ← hl.position, ← Lexer.next_passable hg.passable,
        ← hunread]
    rw [hnext, Lexer.next]
    simp only [Scan.next_apostrophe]
    rcases readCharacter_cases s with ⟨bytes, literal, -, hlexeme⟩ | ⟨body, hbad⟩
    · rw [hlexeme]
      exact .inl rfl
    · rw [hbad]
      exact .inr rfl

/-- `'\xC3A9'` is one character, and `'\x4142'` is two; `''` is an error. -/
theorem length_text_eq_one_iff_pair :
    ((⟨.char, "é", ⟨1, 1⟩⟩ : Token) ∈ tokenize "'\\xC3A9' '\\x4142' ''" ∧
        ∃ bytes, "é" = String.ofList (Utf8.decodeLossy bytes) ∧
          (bytes.length = 1 ∨ ∃ c, bytes <+: Utf8.encodeChar c)) ∧
      ((⟨.char, "AB", ⟨1, 10⟩⟩ : Token) ∈ tokenize "'\\xC3A9' '\\x4142' ''" ∧
        ∃ bytes, "AB" = String.ofList (Utf8.decodeLossy bytes) ∧
          ¬ (bytes.length = 1 ∨ ∃ c, bytes <+: Utf8.encodeChar c)) ∧
      Lexer.Reached "''" [] ⟨.start, ['\'', '\'']⟩ ∧ Gap.Filler [] ∧
        (⟨.start, ['\'', '\'']⟩ : Lexer).next.1 = ⟨.bad, "Unterminated character", .start⟩ := by
  have hone : (⟨.char, "é", ⟨1, 1⟩⟩ : Token) ∈ tokenize "'\\xC3A9' '\\x4142' ''" := by
    decide +kernel
  have htwo : (⟨.char, "AB", ⟨1, 10⟩⟩ : Token) ∈ tokenize "'\\xC3A9' '\\x4142' ''" := by
    decide +kernel
  obtain ⟨hcharacters, -⟩ := length_text_eq_one_iff "'\\xC3A9' '\\x4142' ''"
  obtain ⟨bytes, _, _, _, -, -, -, htext, -, hlength⟩ := hcharacters _ hone rfl
  obtain ⟨bytes', _, _, _, -, -, -, htext', -, hlength'⟩ := hcharacters _ htwo rfl
  have hlong : ¬ "AB".length = 1 := by decide
  have hstart : Lexer.Reached "''" [] ⟨.start, ['\'', '\'']⟩ := Lexer.reached_ofText "''"
  have hnone : (⟨.start, ['\'', '\'']⟩ : Lexer).next.1.kind ≠ .char := by
    decide +kernel
  have hbad := ((length_text_eq_one_iff "''").2 [] _ [] ['\''] hstart .nil rfl).resolve_left hnone
  exact ⟨⟨hone, bytes, htext, hlength.1 rfl⟩, ⟨htwo, bytes', htext', hlength'.not.1 hlong⟩,
    hstart, .nil, hbad⟩

/-- **Not every character is one character.**  The text of `'\x4142'` is two of them. -/
theorem not_forall_length_text_eq_one :
    ¬ ∀ (text : String) (t : Token), t ∈ tokenize text → t.kind = .char → t.text.length = 1 := by
  intro h
  have hmem : (⟨.char, "AB", .start⟩ : Token) ∈ tokenize "'\\x4142'" := by
    decide +kernel
  exact absurd (h _ _ hmem rfl) (by decide)

end TextLiteral

end ScriptSyntax
