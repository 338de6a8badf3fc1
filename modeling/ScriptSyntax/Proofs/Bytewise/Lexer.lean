/-
Reading tokens byte by byte.

A lexer can work on the bytes of a text and know nothing of its characters.  It looks at the
next byte, and at one or two behind it, and goes on by one byte at a time.  Where it has to name
a character it decodes as many bytes as the first of them announces.

* `ByteCursor.next` reads a token, and `ByteCursor.readWord`, `ByteCursor.readNumber` and so on
  are what it does at the first byte of each sort of token;
* `ByteCursor.slice` are the bytes of the character under the cursor, and
  `ByteCursor.character?` is this character, if they are one;
* `ByteCursor.calls` asks for some tokens, one after the other.

Design notes: bytes are compared as characters with the same numbers.  Nothing here keeps the
cursor between two characters: in the middle of one it reads on from there, and a slice that
cannot be decoded is reported as another character, which is U+FFFD in the lexer proper.  Which
one it is has been left open, so that one can say when it matters.
-/
import ScriptSyntax.Lexical.Lexer
import ScriptSyntax.Proofs.Text.ByteCursor

namespace ScriptSyntax

/-- The character whose number is a byte. -/
def Utf8.charOf (b : UInt8) : Char :=
  Char.ofNat b.toNat

namespace ByteCursor

open Utf8

/-! ### Looking ahead and going on -/

/-- The bytes ahead, as characters. -/
def ahead (x : ByteCursor) : List Char :=
  x.unread.map charOf

/-- The next byte, as a character. -/
def peek (x : ByteCursor) : Option Char :=
  x.ahead.head?

/-- The byte at some distance, as a character. -/
def peekAt (x : ByteCursor) (distance : Nat) : Option Char :=
  x.ahead[distance]?

theorem unread_advance (x : ByteCursor) : x.advance.unread = x.unread.tail := by
  unfold advance
  split
  · next h => rw [h, List.tail_nil]
  · next b bs h =>
    rw [h, List.tail_cons]
    repeat' split
    all_goals rfl

theorem length_unread_advance_le (x : ByteCursor) : x.advance.unread.length ≤ x.unread.length := by
  rw [unread_advance, List.length_tail]
  exact Nat.sub_le _ 1

theorem length_unread_advance_lt {x : ByteCursor} {c : Char} (h : x.peek = some c) :
    x.advance.unread.length < x.unread.length := by
  have hne : x.unread ≠ [] := by
    intro hnil
    rw [peek, ahead, hnil] at h
    exact nomatch h
  rw [unread_advance, List.length_tail]
  exact Nat.sub_lt (List.length_pos_iff.2 hne) Nat.one_pos

theorem length_unread_advanceBy_le (n : Nat) (x : ByteCursor) :
    (x.advanceBy n).unread.length ≤ x.unread.length := by
  induction n generalizing x with
  | zero => exact Nat.le_refl _
  | succ n ih => exact Nat.le_trans (ih x.advance) (length_unread_advance_le x)

/-- Goes on for as long as bytes are of some sort. -/
def skipWhile (p : Char → Bool) (x : ByteCursor) : ByteCursor :=
  x.advanceBy (x.ahead.takeWhile p).length

/-- An error at some place. -/
def bad (e : LexicalError) (p : Span) : Token :=
  ⟨.bad, e.message, p⟩

/-! ### Comments -/

/-- Goes past the end of a block comment, and says whether there was a line break on the way. -/
def passBlock (crossed : Bool) (x : ByteCursor) : Bool × ByteCursor :=
  match _h : x.peek with
  | none => (crossed, x)
  | some c =>
    if c = '*' ∧ x.peekAt 1 = some '/' then (crossed, x.advance.advance)
    else passBlock (crossed || c == '\n') x.advance
  termination_by x.unread.length
  decreasing_by exact length_unread_advance_lt _h

/-- Goes past the next byte of one sort. -/
def passThrough (stop : Char) (x : ByteCursor) : ByteCursor :=
  match _h : x.peek with
  | none => x
  | some c => if c = stop then x.advance else passThrough stop x.advance
  termination_by x.unread.length
  decreasing_by exact length_unread_advance_lt _h

/-- Goes past a comment, and says whether it counts as a line break. -/
def passComment (x : ByteCursor) : Bool × ByteCursor :=
  let y := x.advance
  if y.peek = some '*' then passBlock false y.advance else (true, passThrough '\n' y)

theorem length_unread_passBlock_le (crossed : Bool) (x : ByteCursor) :
    (x.passBlock crossed).2.unread.length ≤ x.unread.length := by
  fun_induction passBlock crossed x with
  | case1 => exact Nat.le_refl _
  | case2 => exact length_unread_advanceBy_le 2 _
  | case3 _ _ _ _ _ ih => exact Nat.le_trans ih (length_unread_advance_le _)

theorem length_unread_passThrough_le (stop : Char) (x : ByteCursor) :
    (x.passThrough stop).unread.length ≤ x.unread.length := by
  fun_induction passThrough stop x with
  | case1 => exact Nat.le_refl _
  | case2 => exact length_unread_advance_le _
  | case3 _ _ _ _ ih => exact Nat.le_trans ih (length_unread_advance_le _)

theorem length_unread_passComment_lt {x : ByteCursor} {c : Char} (h : x.peek = some c) :
    x.passComment.2.unread.length < x.unread.length := by
  refine Nat.lt_of_le_of_lt ?_ (length_unread_advance_lt h)
  unfold passComment
  dsimp only
  split
  · exact Nat.le_trans (length_unread_passBlock_le _ _) (length_unread_advance_le _)
  · exact length_unread_passThrough_le _ _

/-! ### Words -/

/-- Reads a word. -/
def readWord (x : ByteCursor) : Token × ByteCursor :=
  let word := decodeLossy (x.unread.takeWhile (Scan.isWordChar <| charOf ·))
  (⟨Scan.wordKind word, String.ofList word, x.position⟩, x.skipWhile Scan.isWordChar)

/-! ### Numerals -/

/-- What is known of a numeral in the middle of it. -/
inductive NumberMode where
  | whole (base : Numeral.Base)
  | fraction | longInteger | longDecimal
  deriving DecidableEq, Repr

namespace NumberMode

/-- Whether a point or an exponent may follow. -/
def allowsFraction : NumberMode → Bool
  | whole .decimal | fraction => true
  | _ => false

/-- The kind of a numeral that ends in a mode. -/
def kind : NumberMode → TokenKind
  | whole base => base.kind
  | fraction => .decimal
  | longInteger => .longInteger
  | longDecimal => .longDecimal

end NumberMode

/-- A numeral in the middle of it: its mode, whether it has a point and an exponent, and its
text. -/
structure NumberState where
  mode : NumberMode
  point : Bool
  exponent : Bool
  text : List Char
  deriving DecidableEq, Repr

/-- Goes past digits, underscores, points and exponents. -/
def passParts (x : ByteCursor) : ByteCursor :=
  match _h : x.peek with
  | none => x
  | some c =>
    if c.isDigit ∨ c = '_' ∨ c = '.' then passParts x.advance
    else if c = 'e' ∨ c = 'E' then
      if x.advance.peek.any Numeral.isSign then passParts x.advance.advance
      else passParts x.advance
    else x
  termination_by x.unread.length
  decreasing_by
    · exact length_unread_advance_lt _h
    · exact Nat.lt_of_le_of_lt (length_unread_advance_le _) (length_unread_advance_lt _h)
    · exact length_unread_advance_lt _h

/-- Goes past a suffix. -/
def passSuffix (x : ByteCursor) : ByteCursor :=
  if (x.peek.bind Numeral.Suffix.ofLetter?).isSome then x.advance else x

/-- Goes past what is left of a malformed numeral, and reports it at `p`. -/
def malformed (e : LexicalError) (p : Span) (x : ByteCursor) : Token × ByteCursor :=
  (bad e p, x.passParts.passSuffix)

/-- Reads digits, underscores, points and exponents of a numeral that begins at `p`, up to the
first fault. -/
def readParts (p : Span) (n : NumberState) (x : ByteCursor) :
    Except (Token × ByteCursor) (NumberState × ByteCursor) :=
  match _h : x.peek with
  | none => .ok (n, x)
  | some c =>
    if c.isDigit then readParts p { n with text := n.text ++ [c] } x.advance
    else if c = '_' then readParts p n x.advance
    else if c = '.' then
      if n.mode.allowsFraction = false then .error (x.malformed .radixFraction p)
      else if n.point then .error (x.malformed .repeatedPoint x.position)
      else
        readParts p { n with mode := .fraction, point := true, text := n.text ++ ['.'] } x.advance
    else if c = 'e' ∨ c = 'E' then
      if n.mode.allowsFraction = false then .error (x.malformed .radixExponent p)
      else if n.exponent then .error (x.malformed .repeatedExponent x.position)
      else match x.advance.peek.filter Numeral.isSign with
        | none => .error (x.advance.malformed .exponentMissingSign p)
        | some s =>
          readParts p { n with mode := .fraction, exponent := true, text := n.text ++ ['e', s] }
            x.advance.advance
    else .ok (n, x)
  termination_by x.unread.length
  decreasing_by
    · exact length_unread_advance_lt _h
    · exact length_unread_advance_lt _h
    · exact length_unread_advance_lt _h
    · exact Nat.lt_of_le_of_lt (length_unread_advance_le _) (length_unread_advance_lt _h)

/-- The token of a numeral, or of what its end lacks. -/
def numberToken (p : Span) (n : NumberState) : Token :=
  match Numeral.missing? n.text with
  | none => ⟨n.mode.kind, String.ofList n.text, p⟩
  | some e => bad e p

/-- Reads the end of a numeral that begins at `p`. -/
def finishNumber (p : Span) (n : NumberState) (x : ByteCursor) : Token × ByteCursor :=
  match x.peek.bind Numeral.Suffix.ofLetter? with
  | none => (numberToken p n, x)
  | some .long =>
    if n.mode = .fraction then (bad .longFraction p, x.advance)
    else (numberToken p { n with mode := .longInteger }, x.advance)
  | some .double => (numberToken p { n with mode := .longDecimal }, x.advance)

/-- Reads the base mark of a numeral, or else its first digit. -/
def readOpening (x : ByteCursor) : NumberState × ByteCursor :=
  let digit := x.peek.getD '0'
  match if digit = '0' then x.advance.peek.bind Numeral.Base.ofLetter? else none with
  | some base => (⟨.whole base, false, false, []⟩, x.advance.advance)
  | none => (⟨.whole .decimal, false, false, [digit]⟩, x.advance)

/-- Reads a numeral. -/
def readNumber (x : ByteCursor) : Token × ByteCursor :=
  match readParts x.position x.readOpening.1 x.readOpening.2 with
  | .error r => r
  | .ok (n, y) => finishNumber x.position n y

/-! ### Escapes -/

/-- Cuts digits into groups. -/
def groups (size : Nat) (ds : List Char) : List (List Char) :=
  if ds = [] ∨ size = 0 then [] else ds.take size :: groups size (ds.drop size)
  termination_by ds.length
  decreasing_by
    next h =>
      rw [not_or, ← List.length_eq_zero_iff] at h
      rw [List.length_drop]
      exact Nat.sub_lt (Nat.pos_of_ne_zero h.1) (Nat.pos_of_ne_zero h.2)

/-- Zeros in front of some digits, up to a whole number of groups. -/
def padding (size : Nat) (ds : List Char) : List Char :=
  List.replicate ((size - ds.length % size) % size) '0'

/-- The low byte of the value of a group. -/
def lowByte (r : Radix) (group : List Char) : UInt8 :=
  .ofNat (group.foldl (fun v d => v * r.base + Radix.value d) 0)

/-- Reads the digits behind the letter of an escape, and puts the bytes that they spell behind
others.  Without digits the letter stands for itself. -/
def readDigits (r : Radix) (letter : UInt8) (out : List UInt8) (x : ByteCursor) :
    List UInt8 × ByteCursor :=
  let ds := r.digits x.ahead
  if ds = [] then (out ++ [letter], x)
  else (out ++ (groups r.group (padding r.group ds ++ ds)).map (lowByte r), x.advanceBy ds.length)

/-- Reads an escape, and puts the bytes that it stands for behind others. -/
def readEscape (out : List UInt8) (x : ByteCursor) : List UInt8 × ByteCursor :=
  let y := x.advance
  match y.unread with
  | [] => (out, y)
  | b :: _ =>
    match Escape.control? (charOf b), Radix.ofLetter? (charOf b) with
    | some v, _ => (out ++ [v], y.advance)
    | none, some r => readDigits r b out y.advance
    | none, none => (out ++ [b], y.advance)

/-! ### Strings and characters -/

/-- Goes past white space that literals drop. -/
def skipDropped (x : ByteCursor) : ByteCursor :=
  x.skipWhile TextLiteral.isDropped

theorem length_unread_readEscape_le (out : List UInt8) (x : ByteCursor) :
    (x.readEscape out).2.unread.length ≤ x.advance.unread.length := by
  unfold readEscape
  dsimp only
  split
  · exact Nat.le_refl _
  · split
    · exact length_unread_advance_le _
    · unfold readDigits
      dsimp only
      split
      · exact length_unread_advance_le _
      · exact Nat.le_trans (length_unread_advanceBy_le _ _) (length_unread_advance_le _)
    · exact length_unread_advance_le _

/-- Reads the rest of a string that begins at `p` and whose bytes so far are `out`. -/
def readStringRest (p : Span) (out : List UInt8) (x : ByteCursor) : Token × ByteCursor :=
  match _h : x.unread with
  | [] => (bad .unterminatedString p, x)
  | b :: _ =>
    if charOf b = '"' then (⟨.string, String.ofList (decodeLossy out), p⟩, x.advance)
    else if charOf b = '\\' then
      readStringRest p (x.readEscape out).1 (x.readEscape out).2.skipDropped
    else readStringRest p (out ++ [b]) x.advance.skipDropped
  termination_by x.unread.length
  decreasing_by
    all_goals
      have hpeek : x.peek = some (charOf b) := by rw [peek, ahead, _h]; rfl
      have hlt := length_unread_advance_lt hpeek
    · exact Nat.lt_of_le_of_lt (Nat.le_trans (length_unread_advanceBy_le _ _)
        (length_unread_readEscape_le out x)) hlt
    · exact Nat.lt_of_le_of_lt (length_unread_advanceBy_le _ _) hlt

/-- Reads a string. -/
def readString (x : ByteCursor) : Token × ByteCursor :=
  readStringRest x.position [] x.advance.skipDropped

/-- Reads one unit of a character literal: an escape, or the bytes of one character. -/
def readUnit (x : ByteCursor) : List UInt8 × ByteCursor :=
  match x.unread with
  | [] => ([], x)
  | b :: _ =>
    if charOf b = '\\' then x.readEscape []
    else (x.unread.take (width b), x.advanceBy (width b))

/-- Reads the end of a character literal that begins at `p` and whose unit has been read. -/
def closeCharacter (p : Span) (unit : List UInt8 × ByteCursor) : Token × ByteCursor :=
  let y := unit.2.skipDropped
  if y.peek = some '\'' then (⟨.char, String.ofList (decodeLossy unit.1), p⟩, y.advance)
  else (bad .unterminatedCharacter p, y.passThrough '\'')

/-- Reads a character literal. -/
def readCharacter (x : ByteCursor) : Token × ByteCursor :=
  closeCharacter x.position x.advance.skipDropped.readUnit

/-! ### Marks -/

/-- Reads a token of some kind that has some bytes. -/
def take (kind : TokenKind) (size : Nat) (x : ByteCursor) : Token × ByteCursor :=
  (⟨kind, kind.spelling, x.position⟩, x.advanceBy size)

/-- Reads a mark of one byte, or of two if the second is one of those given. -/
def readOperator (single : TokenKind) (pairs : List (Char × TokenKind)) (x : ByteCursor) :
    Token × ByteCursor :=
  match pairs.find? fun e => x.peekAt 1 = some e.1 with
  | some e => x.take e.2 2
  | none => x.take single 1

/-- Reads a comparison or a shift, of which `c` is the first byte. -/
def readShift (c : Char) (single singleAssign shift shiftAssign : TokenKind) (x : ByteCursor) :
    Token × ByteCursor :=
  if x.peekAt 1 = some c then
    if x.peekAt 2 = some '=' then x.take shiftAssign 3 else x.take shift 2
  else if x.peekAt 1 = some '=' then x.take singleAssign 2
  else x.take single 1

/-- The bytes of the character under the cursor, as many as its first byte announces. -/
def slice (x : ByteCursor) : List UInt8 :=
  x.unread.take (widthAt x.unread)

/-- The character under the cursor, if its bytes are one. -/
def character? (x : ByteCursor) : Option Char :=
  (decode? x.slice).bind List.head?

/-- Reports the character under the cursor, or another one in place of bytes that are none. -/
def readUnexpected (fallback : Char) (x : ByteCursor) : Token × ByteCursor :=
  (bad (.unexpectedCharacter (x.character?.getD fallback)) x.position,
    x.advanceBy (widthAt x.unread))

/-- Reads a mark of which `c` is the first byte, or reports what is none. -/
def readMark (fallback c : Char) (x : ByteCursor) : Token × ByteCursor :=
  match c with
  | '(' => x.take .leftParen 1
  | ')' => x.take .rightParen 1
  | '\x7b' => x.take .leftBrace 1
  | '\x7d' => x.take .rightBrace 1
  | '[' => x.take .leftBracket 1
  | ']' => x.take .rightBracket 1
  | ';' => x.take .semicolon 1
  | ',' => x.take .comma 1
  | ':' => x.take .colon 1
  | '.' => x.take .dot 1
  | '?' => x.take .question 1
  | '$' => x.take .dollar 1
  | '@' => x.take .atSign 1
  | '#' => x.take .hash 1
  | '~' => x.take .tilde 1
  | '/' => x.readOperator .slash [('=', .slashAssign)]
  | '+' => x.readOperator .plus [('+', .increment), ('=', .plusAssign)]
  | '-' => x.readOperator .minus [('-', .decrement), ('=', .minusAssign)]
  | '*' => x.readOperator .star [('=', .starAssign)]
  | '%' => x.readOperator .percent [('=', .percentAssign)]
  | '=' => x.readOperator .assign [('=', .equal)]
  | '^' => x.readOperator .caret [('=', .caretAssign)]
  | '&' => x.readOperator .amp [('&', .ampAmp), ('=', .ampAssign)]
  | '|' => x.readOperator .pipe [('|', .pipePipe), ('=', .pipeAssign)]
  | '!' =>
    if x.peekAt 1 = some 'i' ∧ x.peekAt 2 = some 'n' then x.take .notIn 3
    else x.readOperator .bang [('=', .notEqual)]
  | '<' => x.readShift '<' .less .lessEqual .shiftLeft .shiftLeftAssign
  | '>' => x.readShift '>' .greater .greaterEqual .shiftRight .shiftRightAssign
  | _ => x.readUnexpected fallback

/-! ### Tokens -/

/-- Reads a token that begins with the byte `c` and not with a comment. -/
def readAt (fallback c : Char) (x : ByteCursor) : Token × ByteCursor :=
  if c = '\n' then (⟨.newLine, TokenKind.newLine.spelling, x.position⟩, x.advance)
  else if Scan.isWordStart c then x.readWord
  else if c.isDigit then x.readNumber
  else if c = '"' then x.readString
  else if c = '\'' then x.readCharacter
  else x.readMark fallback c

/-- Reads the next token.  The lexer proper has U+FFFD for bytes that are no character. -/
def next (fallback : Char) (x : ByteCursor) : Token × ByteCursor :=
  let y := x.skipWhile Gap.isBlank
  match _h : y.peek with
  | none => (.endAt y.position, y)
  | some c =>
    if c = '/' ∧ (y.peekAt 1 = some '/' ∨ y.peekAt 1 = some '*') then
      if y.passComment.1 then
        (⟨.newLine, TokenKind.newLine.spelling, y.passComment.2.position⟩, y.passComment.2)
      else next fallback y.passComment.2
    else y.readAt fallback c
  termination_by x.unread.length
  decreasing_by
    exact Nat.lt_of_lt_of_le (length_unread_passComment_lt _h) (length_unread_advanceBy_le _ _)

/-- Asks for some tokens, one after the other. -/
def calls (fallback : Char) : Nat → ByteCursor → List Token × ByteCursor
  | 0, x => ([], x)
  | k + 1, x =>
    ((x.next fallback).1 :: (calls fallback k (x.next fallback).2).1,
      (calls fallback k (x.next fallback).2).2)

end ByteCursor

end ScriptSyntax
