/-
Numerals.

A numeral is read in two steps.  First its extent is fixed, good or bad: an
optional base mark (`0o`, `0x`, `0b`), the longest run of digits, underscores,
points and exponents, and at most one suffix (`L` or `D`).  Then the parts are
checked from left to right, and the first fault decides how the numeral is
reported.

* `Part` is one part of the run, and `parts` is the longest run of parts.
* `Written` is a numeral as it is written; `Written.ofText` is the first step.
* `Written.value` is the second step: the kind of the numeral and its text, in
  which base mark, suffix and underscores are gone and exponents have a small
  `e`.
* `Written.ofText_cuts` says that the first step loses nothing.

Only the digits 0 to 9 are digits of a numeral, whatever its base.  Of the
text of a good numeral only the end is checked: it ends in a digit.
-/
import ScriptSyntax.Lexical.Lexeme

namespace ScriptSyntax

namespace Numeral

/-- The base in which a numeral says that it is written. -/
inductive Base where
  | decimal | octal | hexadecimal | binary
  deriving DecidableEq, Repr

namespace Base

/-- The base that a letter after the digit 0 marks. -/
def ofLetter? : Char → Option Base
  | 'o' => some octal
  | 'x' => some hexadecimal
  | 'b' => some binary
  | _ => none

/-- The kind of a numeral without fraction and suffix. -/
def kind : Base → TokenKind
  | decimal => .integer
  | octal => .octal
  | hexadecimal => .hexadecimal
  | binary => .binary

end Base

/-- A suffix that asks for a larger type. -/
inductive Suffix where
  | long | double
  deriving DecidableEq, Repr

namespace Suffix

/-- The suffix that a letter stands for. -/
def ofLetter? : Char → Option Suffix
  | 'L' => some long
  | 'D' => some double
  | _ => none

/-- The letter of a suffix. -/
def letter : Suffix → Char
  | long => 'L'
  | double => 'D'

theorem letter_of_ofLetter? {c : Char} {x : Suffix} (h : ofLetter? c = some x) :
    x.letter = c := by
  unfold ofLetter? at h
  split at h <;> simp_all [letter] <;> subst h <;> rfl

end Suffix

/-! ### Parts -/

/-- One part of the run between the base mark and the suffix. -/
inductive Part where
  | digit (c : Char)
  | underscore
  | point
  /-- The letter of an exponent, and its sign if there is one. -/
  | exponent (letter : Char) (sign : Option Char)
  deriving DecidableEq, Repr

/-- The characters of a part. -/
def Part.source : Part → List Char
  | digit c => [c]
  | underscore => ['_']
  | point => ['.']
  | exponent e sign => e :: sign.toList

/-- Whether a character is the sign of an exponent. -/
def isSign (c : Char) : Bool :=
  c == '+' || c == '-'

/-- The longest run of parts at the front of a text, and the text after it. -/
def parts : List Char → List Part × List Char
  | [] => ([], [])
  | c :: cs =>
    if c.isDigit then
      (.digit c :: (parts cs).1, (parts cs).2)
    else if c = '_' then
      (.underscore :: (parts cs).1, (parts cs).2)
    else if c = '.' then
      (.point :: (parts cs).1, (parts cs).2)
    else if c = 'e' ∨ c = 'E' then
      match cs with
      | [] => ([.exponent c none], [])
      | d :: ds =>
        if isSign d then
          (.exponent c (some d) :: (parts ds).1, (parts ds).2)
        else
          (.exponent c none :: (parts (d :: ds)).1, (parts (d :: ds)).2)
    else
      ([], c :: cs)

theorem parts_cuts (s : List Char) :
    (parts s).1.flatMap Part.source ++ (parts s).2 = s := by
  fun_induction parts s <;> simp_all [Part.source]

/-! ### Extent -/

/-- A numeral as it is written. -/
structure Written where
  base : Base
  /-- The characters that mark the base. -/
  mark : List Char
  parts : List Part
  suffix : Option Suffix
  deriving DecidableEq, Repr

/-- The characters of a numeral. -/
def Written.source (w : Written) : List Char :=
  w.mark ++ w.parts.flatMap Part.source ++ (w.suffix.map Suffix.letter).toList

/-- The suffix at the front of a text, if there is one, and the text after it. -/
def suffix : List Char → Option Suffix × List Char
  | [] => (none, [])
  | c :: cs =>
    match Suffix.ofLetter? c with
    | some x => (some x, cs)
    | none => (none, c :: cs)

/-- The base mark at the front of a text, if there is one, and the text after
it. -/
def baseMark : List Char → Base × List Char × List Char
  | '0' :: c :: cs =>
    match Base.ofLetter? c with
    | some b => (b, ['0', c], cs)
    | none => (.decimal, [], '0' :: c :: cs)
  | s => (.decimal, [], s)

/-- The numeral at the front of a text, and the text after it. -/
def Written.ofText (s : List Char) : Written × List Char :=
  let m := baseMark s
  let p := Numeral.parts m.2.2
  let x := Numeral.suffix p.2
  (⟨m.1, m.2.1, p.1, x.1⟩, x.2)

theorem suffix_cuts (s : List Char) :
    ((suffix s).1.map Suffix.letter).toList ++ (suffix s).2 = s := by
  unfold suffix
  split
  · rfl
  · split
    · next h => simp [Suffix.letter_of_ofLetter? h]
    · rfl

theorem baseMark_cuts (s : List Char) : (baseMark s).2.1 ++ (baseMark s).2.2 = s := by
  unfold baseMark
  split
  · split <;> rfl
  · rfl

theorem Written.ofText_cuts (s : List Char) :
    (Written.ofText s).1.source ++ (Written.ofText s).2 = s := by
  have hm := baseMark_cuts s
  have hp := parts_cuts (baseMark s).2.2
  have hx := suffix_cuts (Numeral.parts (baseMark s).2.2).2
  simp only [Written.ofText, Written.source, List.append_assoc]
  rw [hx, hp, hm]

/-! ### Faults and values -/

/-- A fault in a numeral, and the number of characters of the numeral before
the place where it is reported. -/
structure Fault where
  error : LexicalError
  ahead : Nat
  deriving DecidableEq, Repr

/-- The text that some parts spell, and whether a point or an exponent is
among the parts of the numeral.  `point` and `exponent` say whether one has
been met, and `ahead` counts the characters before the parts.  A repeated
point or exponent is reported where it stands, all else at the numeral. -/
def spell (base : Base) (point exponent : Bool) (ahead : Nat) :
    List Part → Except Fault (List Char × Bool)
  | [] => .ok ([], point || exponent)
  | .digit c :: ps =>
    (spell base point exponent (ahead + 1) ps).map fun r => (c :: r.1, r.2)
  | .underscore :: ps => spell base point exponent (ahead + 1) ps
  | .point :: ps =>
    if base ≠ .decimal then .error ⟨.radixFraction, 0⟩
    else if point then .error ⟨.repeatedPoint, ahead⟩
    else (spell base true exponent (ahead + 1) ps).map fun r => ('.' :: r.1, r.2)
  | .exponent _ sign :: ps =>
    if base ≠ .decimal then .error ⟨.radixExponent, 0⟩
    else if exponent then .error ⟨.repeatedExponent, ahead⟩
    else match sign with
      | none => .error ⟨.exponentMissingSign, 0⟩
      | some s => (spell base point true (ahead + 2) ps).map fun r => ('e' :: s :: r.1, r.2)

/-- The kind of a numeral that has no fault. -/
def Written.kind (w : Written) (fraction : Bool) : TokenKind :=
  match w.suffix with
  | some .long => .longInteger
  | some .double => .longDecimal
  | none => if fraction then .decimal else w.base.kind

/-- What the end of a text lacks, if anything. -/
def missing? (text : List Char) : Option LexicalError :=
  match text.getLast? with
  | none => some .radixMissingDigits
  | some c =>
    if isSign c then some .exponentMissingDigits
    else if c = '.' then some .fractionMissingDigits
    else none

/-- The kind and the text of a numeral, or its first fault. -/
def Written.value (w : Written) : Except Fault (TokenKind × List Char) := do
  let (text, fraction) ← spell w.base false false 0 w.parts
  if w.suffix = some .long ∧ fraction then
    .error ⟨.longFraction, 0⟩
  else
    match missing? text with
    | some e => .error ⟨e, 0⟩
    | none => .ok (w.kind fraction, text)

/-- The lexeme of a numeral. -/
def Written.lexeme (w : Written) : Lexeme :=
  match w.value with
  | .ok (kind, text) => .whole kind text w.source
  | .error f => ⟨.bad, f.error.message, w.source.take f.ahead, w.source.drop f.ahead⟩

@[simp] theorem Written.source_lexeme (w : Written) : w.lexeme.source = w.source := by
  unfold Written.lexeme
  split
  · rfl
  · simp [Lexeme.source]

/-- Reads the numeral at the front of a text. -/
def read (s : List Char) : Reading :=
  ⟨(Written.ofText s).1.lexeme, (Written.ofText s).2⟩

theorem read_cuts (s : List Char) : (read s).Cuts s := by
  simp [Reading.Cuts, read, Written.ofText_cuts]

theorem parts_digit {c : Char} (h : c.isDigit = true) (cs : List Char) :
    parts (c :: cs) = (.digit c :: (parts cs).1, (parts cs).2) := by
  rw [parts.eq_def]
  simp [h]

/-- A numeral that begins with a digit takes something. -/
theorem source_read_ne_nil {c : Char} (h : c.isDigit = true) (cs : List Char) :
    (read (c :: cs)).lexeme.source ≠ [] := by
  have hp : ∀ ds, (parts (c :: ds)).1.flatMap Part.source ≠ [] := fun ds => by
    simp [parts_digit h, Part.source]
  simp only [read, Written.source_lexeme, Written.ofText, Written.source]
  unfold baseMark
  split
  · next d ds hd =>
    obtain ⟨rfl, rfl⟩ := List.cons.inj hd
    split
    · simp
    · simp only [List.nil_append]
      exact fun hn => hp _ (List.append_eq_nil_iff.1 hn).1
  · simp only [List.nil_append]
    exact fun hn => hp _ (List.append_eq_nil_iff.1 hn).1

end Numeral

end ScriptSyntax
