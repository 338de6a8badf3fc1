/-
String and character literals.

A string ends at the first quotation mark that no backslash precedes; where
it ends does not depend on what its escapes mean.  A character literal holds
one unit, which is any one character, a quotation mark included, or an escape.
White space other than the plain space is dropped between units, so that a
string may be broken over several lines.

Units spell bytes, and the text of a literal is what all its bytes together
decode to.

* `closing` finds the end of a string, and `unescape` gives the bytes of its
  content.
* `readString_cuts` and `readCharacter_cuts` say that nothing is lost.
-/
import ScriptSyntax.Lexical.Escape
import ScriptSyntax.Lexical.Lexeme

namespace ScriptSyntax

namespace TextLiteral

/-- The white space that literals drop. -/
def isDropped (c : Char) : Bool :=
  c == '\t' || c == '\n' || c == '\x0b' || c == '\x0c' || c == '\r'

/-- The text that bytes stand for. -/
def textOf (bytes : List UInt8) : List Char :=
  Utf8.decodeLossy bytes

/-! ### Strings -/

/-- The content of a string whose opening mark has been read, and the text
after its closing mark. -/
def closing : List Char → Option (List Char × List Char)
  | [] => none
  | c :: cs =>
    if c = '"' then some ([], cs)
    else if c = '\\' then
      match cs with
      | [] => none
      | d :: ds => (closing ds).map fun r => (c :: d :: r.1, r.2)
    else (closing cs).map fun r => (c :: r.1, r.2)

/-- The bytes of the content of a string. -/
def unescape : List Char → List UInt8
  | [] => []
  | c :: cs =>
    if c = '\\' then (Escape.read cs).bytes ++ unescape (Escape.read cs).rest
    else if isDropped c then unescape cs
    else Utf8.encodeChar c ++ unescape cs
  termination_by s => s.length
  decreasing_by
    all_goals have := Escape.length_rest_read_le cs
    all_goals simp only [List.length_cons]
    all_goals omega

/-- Reads a string literal whose opening mark has been read.  One that is not
closed takes the whole text. -/
def readString (s : List Char) : Reading :=
  match closing s with
  | some (content, rest) =>
    ⟨.whole .string (textOf (unescape content)) ('"' :: content ++ ['"']), rest⟩
  | none => ⟨.bad .unterminatedString ('"' :: s), []⟩

theorem append_of_closing {s content rest : List Char} (h : closing s = some (content, rest)) :
    content ++ '"' :: rest = s := by
  fun_induction closing s generalizing content rest with
  | case1 => simp at h
  | case2 cs => simp_all
  | case3 => simp at h
  | case4 d ds _ ih =>
    obtain ⟨r, hr, he⟩ := Option.map_eq_some_iff.1 h
    simp only [Prod.mk.injEq] at he
    obtain ⟨rfl, rfl⟩ := he
    simp [ih hr]
  | case5 c cs _ _ ih =>
    obtain ⟨r, hr, he⟩ := Option.map_eq_some_iff.1 h
    simp only [Prod.mk.injEq] at he
    obtain ⟨rfl, rfl⟩ := he
    simp [ih hr]

theorem readString_cuts (s : List Char) : (readString s).Cuts ('"' :: s) := by
  unfold readString Reading.Cuts
  split
  · next h => simp [append_of_closing h]
  · simp

/-! ### Characters -/

/-- The text up to and with the next quotation mark, and the text after it. -/
def throughQuote : List Char → List Char × List Char
  | [] => ([], [])
  | c :: cs =>
    if c = '\'' then ([c], cs) else (c :: (throughQuote cs).1, (throughQuote cs).2)

theorem throughQuote_cuts (s : List Char) : (throughQuote s).1 ++ (throughQuote s).2 = s := by
  fun_induction throughQuote s <;> simp_all

/-- A character literal that is not closed.  It takes the text through the
next quotation mark. -/
def unclosed (taken s : List Char) : Reading :=
  ⟨.bad .unterminatedCharacter (taken ++ (throughQuote s).1), (throughQuote s).2⟩

/-- The end of a character literal, of which `taken` has been read. -/
def close (bytes : List UInt8) (taken s : List Char) : Reading :=
  let gap := s.takeWhile isDropped
  match s.dropWhile isDropped with
  | '\'' :: rest => ⟨.whole .char (textOf bytes) (taken ++ gap ++ ['\'']), rest⟩
  | other => unclosed (taken ++ gap) other

/-- Reads a character literal whose opening mark has been read.  A backslash
stands for one byte only, so that the literal cannot be closed after a
backslash and a character of several bytes. -/
def readCharacter (s : List Char) : Reading :=
  let taken := '\'' :: s.takeWhile isDropped
  match s.dropWhile isDropped with
  | [] => unclosed taken []
  | c :: cs =>
    if c = '\\' then
      if cs.head?.all (·.toNat < 0x80) then
        let e := Escape.read cs
        close e.bytes (taken ++ c :: e.taken) e.rest
      else unclosed taken (c :: cs)
    else close (Utf8.encodeChar c) (taken ++ [c]) cs

theorem unclosed_cuts (taken s : List Char) : (unclosed taken s).Cuts (taken ++ s) := by
  simp [unclosed, Reading.Cuts, throughQuote_cuts]

theorem close_cuts (bytes : List UInt8) (taken s : List Char) :
    (close bytes taken s).Cuts (taken ++ s) := by
  have h := List.takeWhile_append_dropWhile (p := isDropped) (l := s)
  unfold close
  dsimp only
  split
  · next rest hr => simp [Reading.Cuts, ← hr, h]
  · have := unclosed_cuts (taken ++ s.takeWhile isDropped) (s.dropWhile isDropped)
    rwa [List.append_assoc, h] at this

theorem readCharacter_cuts (s : List Char) : (readCharacter s).Cuts ('\'' :: s) := by
  have h := List.takeWhile_append_dropWhile (p := isDropped) (l := s)
  have hs : '\'' :: s = ('\'' :: s.takeWhile isDropped) ++ s.dropWhile isDropped := by
    rw [List.cons_append, h]
  rw [hs]
  unfold readCharacter
  dsimp only
  split
  · next hr => rw [hr]; exact unclosed_cuts _ _
  · next c cs hr =>
    rw [hr]
    split
    · split
      · have := close_cuts (Escape.read cs).bytes
          ('\'' :: s.takeWhile isDropped ++ c :: (Escape.read cs).taken) (Escape.read cs).rest
        rwa [List.append_assoc, show c :: (Escape.read cs).taken ++ (Escape.read cs).rest
          = c :: cs from congrArg (c :: ·) (Escape.read_cuts cs)] at this
      · exact unclosed_cuts _ _
    · have := close_cuts (Utf8.encodeChar c) ('\'' :: s.takeWhile isDropped ++ [c]) cs
      rwa [List.append_assoc, List.singleton_append] at this

theorem source_readString_ne_nil (s : List Char) : (readString s).lexeme.source ≠ [] := by
  unfold readString
  split <;> simp

theorem source_unclosed (taken s : List Char) :
    (unclosed taken s).lexeme.source = taken ++ (throughQuote s).1 := rfl

theorem source_close_ne_nil (bytes : List UInt8) {taken : List Char} (h : taken ≠ [])
    (s : List Char) : (close bytes taken s).lexeme.source ≠ [] := by
  unfold close
  dsimp only
  split <;> simp [source_unclosed, h]

theorem source_readCharacter_ne_nil (s : List Char) :
    (readCharacter s).lexeme.source ≠ [] := by
  unfold readCharacter
  dsimp only
  split
  · simp [source_unclosed]
  · split
    · split
      · exact source_close_ne_nil _ (by simp) _
      · simp [source_unclosed]
    · exact source_close_ne_nil _ (by simp) _

end TextLiteral

end ScriptSyntax
