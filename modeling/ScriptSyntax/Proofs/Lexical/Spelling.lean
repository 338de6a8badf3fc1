/-
Tokens are read as they are spelled.

Marks, words and plain numerals have one usual spelling each.  Written one after
the other with a space between them, they are read back as what they are, each at
the column where it begins.

* `Spelled` is a token that has a usual spelling, and `Spelled.written` its
  characters;
* `Spelled.next_written` — it is read as a whole at the end of a text and in front
  of a space;
* `tokenize_spelled` — and so are any number of them.

Design notes: a token is read at the end of a text first.  That the space behind
it changes nothing is known from how lexemes end (`Reading.Settled`).
-/
import Mathlib
import ScriptSyntax.Proofs.Lexical.Numerals
import ScriptSyntax.Proofs.Lexical.Restart

namespace ScriptSyntax

open Reading

/-! ### Marks and words -/

namespace TokenKind

/-- A kind that is written with punctuation, `!in` included: neither an end, nor a
word, nor a literal. -/
def isMark : TokenKind → Bool
  | endOfInput | newLine | bad | word | char | string | integer | longInteger | decimal
  | longDecimal | hexadecimal | octal | binary | boolean | controller | null | isIn | isType
  | asType => false
  | _ => true

theorem mem_marks_iff (k : TokenKind) : k ∈ marks ↔ k.isMark := by
  cases k <;> decide

/-- The words that are not ordinary words. -/
def reservedWords : List (String × TokenKind) :=
  [("null", null), ("true", boolean), ("false", boolean), ("break", controller),
    ("continue", controller), ("is", isType), ("in", isIn), ("as", asType)]

theorem reserved?_eq_lookup (word : String) : reserved? word = reservedWords.lookup word := by
  unfold reserved?
  split
  case h_9 hnull htrue hfalse hbreak hcontinue his hin has =>
    have hall : ∀ e ∈ reservedWords, word ≠ e.1 := by
      simp only [reservedWords, List.forall_mem_cons]
      exact ⟨hnull, htrue, hfalse, hbreak, hcontinue, his, hin, has, nofun⟩
    exact (List.lookup_eq_none_iff.2 fun e he => bne_iff_ne.2 (hall e he)).symm
  all_goals decide

end TokenKind

/-- A letter or an underscore, and letters, digits and underscores behind it. -/
structure Identifier where
  first : Char
  others : List Char
  isWordStart_first : Scan.isWordStart first
  isWordChar_others : ∀ c ∈ others, Scan.isWordChar c

namespace Identifier

/-- The characters of an identifier. -/
def chars (w : Identifier) : List Char :=
  w.first :: w.others

/-- The kind of an identifier: that of a reserved word, or that of all others. -/
def kind (w : Identifier) : TokenKind :=
  (TokenKind.reservedWords.lookup (String.ofList w.chars)).getD .word

theorem kind_eq_wordKind (w : Identifier) : w.kind = Scan.wordKind w.chars := by
  rw [kind, ← TokenKind.reserved?_eq_lookup]
  rfl

theorem isWordChar (w : Identifier) : ∀ c ∈ w.chars, Scan.isWordChar c := by
  refine List.forall_mem_cons.2 ⟨?_, w.isWordChar_others⟩
  have hfirst := w.isWordStart_first
  simp only [Scan.isWordStart, Bool.or_eq_true] at hfirst
  simp only [Scan.isWordChar, Char.isAlphanum, Bool.or_eq_true]
  exact hfirst.imp_left .inl

end Identifier

/-! ### Tokens with a usual spelling -/

/-- A token that has a usual spelling. -/
inductive Spelled where
  | mark (k : TokenKind) (hmark : k.isMark)
  /-- A word, reserved or not. -/
  | word (w : Identifier)
  | numeral (n : Numeral.Plain)

namespace Spelled

/-- The characters of the usual spelling. -/
def written : Spelled → List Char
  | mark k _ => k.spelling.toList
  | word w => w.chars
  | numeral n => n.written

def kind : Spelled → TokenKind
  | mark k _ => k
  | word w => w.kind
  | numeral n => n.kind

/-- The text of the token: its spelling, if it is no numeral. -/
def text : Spelled → List Char
  | mark k _ => k.spelling.toList
  | word w => w.chars
  | numeral n => n.text

/-- The lexeme of the token. -/
def lexeme (x : Spelled) : Lexeme :=
  .whole x.kind x.text x.written

/-- The usual spellings of some tokens, with single spaces between them. -/
def joined (xs : List Spelled) : List Char :=
  [' '].intercalate (xs.map written)

/-- Some tokens in the first line of a text, the first of them at some column and
each of the others behind a space. -/
def tokensFrom (column : Nat) : List Spelled → List Token
  | [] => []
  | x :: xs =>
    ⟨x.kind, String.ofList x.text, ⟨1, column⟩⟩ :: tokensFrom (column + x.written.length + 1) xs

/-- What can stand behind a token: nothing, or a space. -/
def Apart (t : List Char) : Prop :=
  t = [] ∨ ∃ u, t = ' ' :: u

/-- What is read as a whole at the end of a text is read so in front of a space. -/
theorem next_append {c : Char} {cs t : List Char} {x : Lexeme} (hblank : Gap.isBlank c = false)
    (hbreak : c ≠ '\n') (hcomment : Scan.comment? (c :: cs) = none)
    (hsettled : Settled (Scan.reader c) (c :: cs)) (hsource : x.source = c :: cs)
    (hread : Scan.reader c (c :: cs) = ⟨x, []⟩) (ht : Apart t) :
    Scan.next (c :: cs ++ t) = ⟨x, t⟩ := by
  have hnext : Scan.next (c :: cs) = ⟨x, []⟩ := by
    rw [Scan.next_eq_reader hblank hbreak hcomment, hread]
  rcases ht with rfl | ⟨u, rfl⟩
  · rw [List.append_nil, hnext]
  · have hspace : ' ' ∈ Gap.whites := by decide
    have happend := Scan.settled_of_reader hblank hbreak hcomment hsettled (' ' :: u)
    rw [hnext, hsource] at happend
    exact happend (.here hspace _ _)

/-- What begins neither blank space, nor a line, nor a comment. -/
theorem begins_of_class {p : Char → Bool} {c : Char} (hc : p c)
    (hp : p ' ' = false ∧ p '\t' = false ∧ p '\x0b' = false ∧ p '\x0c' = false ∧
      p '\r' = false ∧ p '\n' = false ∧ p '/' = false) (cs : List Char) :
    Gap.isBlank c = false ∧ c ≠ '\n' ∧ Scan.comment? (c :: cs) = none := by
  have hne : ∀ {d : Char}, p d = false → c ≠ d := by
    rintro _ hd rfl
    rw [hc] at hd
    exact Bool.noConfusion hd
  obtain ⟨hspace, htab, hvertical, hform, hreturn, hbreak, hslash⟩ := hp
  refine ⟨?_, hne hbreak, ?_⟩
  · simp [Gap.isBlank, hne hspace, hne htab, hne hvertical, hne hform, hne hreturn]
  · unfold Scan.comment?
    split
    · next h => exact absurd (List.cons.inj h).1 (hne hslash)
    · next h => exact absurd (List.cons.inj h).1 (hne hslash)
    · rfl

/-! ### Marks -/

/-- Nothing but a mark begins like this. -/
def beginsMark : List Char → Bool
  | [] => false
  | c :: cs =>
    !Gap.isBlank c && c != '\n' && (Scan.comment? (c :: cs)).isNone && !Scan.isWordStart c &&
      !c.isDigit && c != '"' && c != '\''

/-- Every mark is the longest at the front of its spelling. -/
theorem mark?_spelling {k : TokenKind} (h : k.isMark) :
    beginsMark k.spelling.toList ∧ Scan.mark? k.spelling.toList = some k := by
  have hall : TokenKind.marks.all fun k =>
      beginsMark k.spelling.toList && Scan.mark? k.spelling.toList == some k := by
    decide +kernel
  have hk := List.all_eq_true.1 hall k ((TokenKind.mem_marks_iff k).2 h)
  rwa [Bool.and_eq_true, beq_iff_eq] at hk

theorem next_mark {k : TokenKind} (h : k.isMark) {t : List Char} (ht : Apart t) :
    Scan.next (k.spelling.toList ++ t) = ⟨(mark k h).lexeme, t⟩ := by
  obtain ⟨hbegins, hmark⟩ := mark?_spelling h
  rcases hspelling : k.spelling.toList with _ | ⟨c, cs⟩
  · exact absurd hspelling k.toList_spelling_ne_nil
  rw [hspelling] at hbegins hmark
  simp only [beginsMark, Bool.and_eq_true, Bool.not_eq_true', bne_iff_ne, ne_eq,
    Option.isNone_iff_eq_none] at hbegins
  obtain ⟨⟨⟨⟨⟨⟨hblank, hbreak⟩, hcomment⟩, hword⟩, hdigit⟩, hquote⟩, happostrophe⟩ := hbegins
  have hreader : Scan.reader c = fun s => Scan.readMark c s.tail := by
    rw [Scan.reader, if_neg (by rw [hword]; decide), if_neg (by rw [hdigit]; decide),
      if_neg hquote, if_neg happostrophe]
  refine next_append hblank hbreak hcomment ?_ ?_ ?_ ht
  · rw [hreader]
    exact Scan.readMark_settled c cs
  · exact hspelling
  · rw [hreader]
    show Scan.readMark c cs = _
    rw [Scan.readMark_of_mark? hmark, lexeme, hspelling, List.drop_length]
    simp only [kind, text, written, hspelling]

/-! ### Words -/

theorem next_word (w : Identifier) {t : List Char} (ht : Apart t) :
    Scan.next (w.chars ++ t) = ⟨(word w).lexeme, t⟩ := by
  obtain ⟨htake, hdrop⟩ := takeWhile_append_of_stop (s := []) w.isWordChar rfl
  rw [List.append_nil] at htake hdrop
  obtain ⟨hblank, hbreak, hcomment⟩ :=
    begins_of_class w.isWordStart_first (by decide) w.others
  have hreader : Scan.reader w.first = Scan.readWord := if_pos w.isWordStart_first
  refine next_append hblank hbreak hcomment ?_ rfl ?_ ht
  · rw [hreader]
    exact Scan.readWord_settled _
  · rw [hreader]
    show Scan.readWord w.chars = _
    rw [Scan.readWord, htake, hdrop, lexeme, kind, w.kind_eq_wordKind]
    rfl

/-! ### Numerals -/

/-- No digit begins a word. -/
theorem isWordStart_of_isDigit {c : Char} (h : c.isDigit) : Scan.isWordStart c = false := by
  have hunderscore : c ≠ '_' := Numeral.ne_of_isDigit h rfl
  have halpha : c.isAlpha = false := by
    simp only [Char.isDigit, Bool.and_eq_true, decide_eq_true_eq, UInt32.le_iff_toNat_le,
      ge_iff_le] at h
    simp only [Char.isAlpha, Char.isUpper, Char.isLower, Bool.or_eq_false_iff,
      Bool.and_eq_false_iff, decide_eq_false_iff_not, UInt32.le_iff_toNat_le, ge_iff_le]
    change _ ∧ c.val.toNat ≤ 57 at h
    change ¬ (65 ≤ c.val.toNat ∧ _) ∧ (¬ 97 ≤ c.val.toNat ∨ _)
    omega
  rw [Scan.isWordStart, halpha, beq_false_of_ne hunderscore]
  rfl

theorem reader_of_isDigit {c : Char} (h : c.isDigit) : Scan.reader c = Numeral.read := by
  rw [Scan.reader, if_neg (by rw [isWordStart_of_isDigit h]; decide), if_pos h]

theorem exists_written_eq_cons (n : Numeral.Plain) :
    ∃ c cs, n.written = c :: cs ∧ c.isDigit := by
  cases n with
  | whole base ds =>
    obtain ⟨c, cs, hds, hc⟩ := ds.exists_eq_cons
    cases base with
    | decimal => exact ⟨c, cs, hds, hc⟩
    | _ => exact ⟨'0', _, rfl, rfl⟩
  | large ds x =>
    obtain ⟨c, cs, hds, hc⟩ := ds.exists_eq_cons
    exact ⟨c, cs ++ [x.letter], by rw [Numeral.Plain.written, hds]; rfl, hc⟩
  | fraction ds fs wide =>
    obtain ⟨c, cs, hds, hc⟩ := ds.exists_eq_cons
    exact ⟨c, _, by rw [Numeral.Plain.written, hds]; rfl, hc⟩

theorem read_written (n : Numeral.Plain) :
    Numeral.read n.written = ⟨(numeral n).lexeme, []⟩ := by
  have hcut : Numeral.Written.ofText (n.written ++ []) = (n.numeral, []) := by
    rw [List.append_nil, n.ofText_written]
  have hread := Numeral.read_append_of_value hcut n.value_numeral
  rwa [List.append_nil] at hread

theorem next_numeral (n : Numeral.Plain) {t : List Char} (ht : Apart t) :
    Scan.next (n.written ++ t) = ⟨(numeral n).lexeme, t⟩ := by
  have hread := read_written n
  obtain ⟨c, cs, hwritten, hc⟩ := exists_written_eq_cons n
  have hsource : (numeral n).lexeme.source = c :: cs := hwritten
  rw [hwritten] at hread ⊢
  obtain ⟨hblank, hbreak, hcomment⟩ := begins_of_class hc (by decide) cs
  have hreader := reader_of_isDigit hc
  refine next_append hblank hbreak hcomment ?_ hsource ?_ ht
  · rw [hreader]
    exact Numeral.read_settled _
  · rw [hreader]
    exact hread

theorem next_written (x : Spelled) {t : List Char} (ht : Apart t) :
    Scan.next (x.written ++ t) = ⟨x.lexeme, t⟩ := by
  cases x with
  | mark k h => exact next_mark h ht
  | word w => exact next_word w ht
  | numeral n => exact next_numeral n ht

/-! ### Many tokens -/

/-- No spelling goes over a line. -/
theorem newline_notMem_written (x : Spelled) : '\n' ∉ x.written := by
  cases x with
  | mark k h =>
    show '\n' ∉ k.spelling.toList
    revert h
    cases k <;> decide
  | word w =>
    intro hmem
    exact absurd (w.isWordChar _ hmem) (by decide)
  | numeral n =>
    have hds : ∀ ds : Numeral.Digits, '\n' ∉ ds.chars := fun ds hmem =>
      absurd (ds.isDigit _ hmem) (by decide)
    cases n with
    | whole base ds => cases base <;> simp [written, Numeral.Plain.written, Numeral.Base.mark, hds]
    | large ds x =>
      cases x <;> simp [written, Numeral.Plain.written, Numeral.Suffix.letter, hds]
    | fraction ds fs wide =>
      cases wide <;> simp [written, Numeral.Plain.written, Numeral.Plain.fractionSuffix,
        Numeral.Suffix.letter, hds]

/-- Within a line every character takes one column. -/
theorem after_of_notMem {cs : List Char} (h : '\n' ∉ cs) (line column : Nat) :
    (⟨line, column⟩ : Span).after cs = ⟨line, column + cs.length⟩ := by
  induction cs generalizing column with
  | nil => rfl
  | cons c cs ih =>
    obtain ⟨hc, hcs⟩ := not_or.1 (List.mem_cons.not.1 h)
    rw [Span.after_cons, Span.step, if_neg (Ne.symm hc), ih hcs, List.length_cons, Nat.add_right_comm,
      Nat.add_assoc]

theorem kind_ne (x : Spelled) : x.kind ≠ .endOfInput := by
  cases x with
  | mark k h =>
    rintro rfl
    exact absurd h (by decide)
  | word w =>
    show w.kind ≠ _
    rw [w.kind_eq_wordKind]
    unfold Scan.wordKind TokenKind.reserved?
    split <;> exact nofun
  | numeral n =>
    show n.kind ≠ _
    cases n with
    | whole base ds => cases base <;> exact nofun
    | large ds x => cases x <;> exact nofun
    | fraction ds fs wide => cases wide <;> exact nofun

/-- A token that stands apart is read first, and then what is behind it. -/
theorem drain_written (x : Spelled) {t : List Char} (ht : Apart t) (column : Nat) :
    (⟨⟨1, column⟩, x.written ++ t⟩ : Lexer).drain.1 =
      ⟨x.kind, String.ofList x.text, ⟨1, column⟩⟩ ::
        (⟨⟨1, column + x.written.length⟩, t⟩ : Lexer).drain.1 := by
  have hnext : (⟨⟨1, column⟩, x.written ++ t⟩ : Lexer).next =
      (⟨x.kind, String.ofList x.text, ⟨1, column⟩⟩, ⟨⟨1, column + x.written.length⟩, t⟩) := by
    rw [Lexer.next, Lexer.skip]
    simp only [x.next_written ht]
    rw [show x.lexeme.source = x.written from rfl, after_of_notMem x.newline_notMem_written]
    rfl
  have hkind : (⟨⟨1, column⟩, x.written ++ t⟩ : Lexer).next.1.kind ≠ .endOfInput := by
    rw [hnext]
    exact x.kind_ne
  rw [Lexer.drain_of_kind_ne hkind, hnext]

theorem drain_space (s : List Char) (column : Nat) :
    (⟨⟨1, column⟩, ' ' :: s⟩ : Lexer).drain = (⟨⟨1, column + 1⟩, s⟩ : Lexer).drain :=
  have hblank : Gap.Blank [' '] := List.forall_mem_singleton.2 (by decide)
  Lexer.drain_passable hblank.passable ⟨1, column⟩ s

theorem drain_joined (xs : List Spelled) (column : Nat) :
    (⟨⟨1, column⟩, joined xs⟩ : Lexer).drain.1 =
      tokensFrom column xs ++ [.endAt ⟨1, column + (joined xs).length⟩] := by
  induction xs generalizing column with
  | nil =>
    have hnext := Lexer.next_nil ⟨1, column⟩
    have hkind : (⟨⟨1, column⟩, []⟩ : Lexer).next.1.kind = .endOfInput := by
      rw [hnext]
      rfl
    show (⟨⟨1, column⟩, []⟩ : Lexer).drain.1 = _
    rw [Lexer.drain_of_kind hkind, hnext]
    rfl
  | cons x xs ih =>
    cases xs with
    | nil =>
      have hjoined : joined [x] = x.written ++ [] := rfl
      rw [hjoined, x.drain_written (.inl rfl), List.append_nil]
      exact congrArg _ (ih (column + x.written.length))
    | cons y ys =>
      have hjoined : joined (x :: y :: ys) = x.written ++ ' ' :: joined (y :: ys) := rfl
      have hlength : (joined (x :: y :: ys)).length =
          x.written.length + 1 + (joined (y :: ys)).length := by
        rw [hjoined, List.length_append, List.length_cons, Nat.add_right_comm, Nat.add_assoc]
      rw [hlength, ← Nat.add_assoc, ← Nat.add_assoc, hjoined, x.drain_written (.inr ⟨_, rfl⟩),
        drain_space, ih]
      rfl

end Spelled

/-- **Tokens are read as they are spelled.**  Marks, words and plain numerals that
are written one after the other, with single spaces between them, are read back
with their kinds and texts, each in the column where it begins, and then comes the
end. -/
theorem tokenize_spelled (xs : List Spelled) :
    tokenize (String.ofList (Spelled.joined xs)) =
      Spelled.tokensFrom 1 xs ++ [.endAt ⟨1, 1 + (Spelled.joined xs).length⟩] := by
  rw [tokenize, Lexer.ofText, String.toList_ofList]
  exact Spelled.drain_joined xs 1

end ScriptSyntax
