/-
UTF-8: characters as bytes, and bytes as characters.

Decoding never fails as a whole.  It cuts the bytes into well-formed
characters and ill-formed stretches, where a stretch is as long as it can be
while still being the beginning of some character (a *maximal subpart*), and a
byte that begins no character is a stretch of its own.  `decode` gives `none`
for each stretch; from it come

* `decodeLossy`, which writes U+FFFD for each stretch, and
* `decode?`, which accepts only bytes that have no such stretch.

The decoder is a machine that reads one byte at a time: it is either between
characters or in the middle of one, and then it knows the value read so far,
the number of bytes still owed and the range in which the next byte must lie.
-/

namespace ScriptSyntax

namespace Utf8

/-- The bytes of a character. -/
def encodeChar (c : Char) : List UInt8 :=
  let v := c.toNat
  if v < 0x80 then
    [.ofNat v]
  else if v < 0x800 then
    [.ofNat (0xC0 + v / 0x40), .ofNat (0x80 + v % 0x40)]
  else if v < 0x10000 then
    [.ofNat (0xE0 + v / 0x1000), .ofNat (0x80 + v / 0x40 % 0x40), .ofNat (0x80 + v % 0x40)]
  else
    [.ofNat (0xF0 + v / 0x40000), .ofNat (0x80 + v / 0x1000 % 0x40),
     .ofNat (0x80 + v / 0x40 % 0x40), .ofNat (0x80 + v % 0x40)]

/-- The bytes of a text. -/
def encode (cs : List Char) : List UInt8 :=
  cs.flatMap encodeChar

/-- A character of several bytes of which some have been read: the value so
far, the bytes still owed after the next one, and the range of the next one. -/
structure Opened where
  value : Nat
  owed : Nat
  low : Nat
  high : Nat
  deriving DecidableEq, Repr

/-- What a byte is when it stands between characters: a character, the
beginning of one, or neither. -/
inductive Lead where
  | whole (c : Char)
  | opens (p : Opened)
  | stray
  deriving DecidableEq, Repr

/-- The part that a byte plays at the beginning of a character.  The ranges
leave out overlong forms, surrogates and values past the last character. -/
def lead (b : Nat) : Lead :=
  if b < 0x80 then .whole (Char.ofNat b)
  else if b < 0xC2 then .stray
  else if b < 0xE0 then .opens ⟨b - 0xC0, 0, 0x80, 0xBF⟩
  else if b = 0xE0 then .opens ⟨0, 1, 0xA0, 0xBF⟩
  else if b = 0xED then .opens ⟨0xD, 1, 0x80, 0x9F⟩
  else if b < 0xF0 then .opens ⟨b - 0xE0, 1, 0x80, 0xBF⟩
  else if b = 0xF0 then .opens ⟨0, 2, 0x90, 0xBF⟩
  else if b < 0xF4 then .opens ⟨b - 0xF0, 2, 0x80, 0xBF⟩
  else if b = 0xF4 then .opens ⟨4, 2, 0x80, 0x8F⟩
  else .stray

/-- One byte between characters: what it completes, and what it begins. -/
def beginning (b : Nat) : List (Option Char) × Option Opened :=
  match lead b with
  | .whole c => ([some c], none)
  | .opens p => ([], some p)
  | .stray => ([none], none)

/-- One byte: what it completes, and what is open after it.  A byte that
cannot go on with the open character ends it as ill-formed and is then read
between characters. -/
def step (opened : Option Opened) (b : Nat) : List (Option Char) × Option Opened :=
  match opened with
  | none => beginning b
  | some p =>
    if p.low ≤ b ∧ b ≤ p.high then
      let value := p.value * 0x40 + (b - 0x80)
      match p.owed with
      | 0 => ([some (Char.ofNat value)], none)
      | owed + 1 => ([], some ⟨value, owed, 0x80, 0xBF⟩)
    else
      (none :: (beginning b).1, (beginning b).2)

/-- Decoding from the middle of a text. -/
def decodeFrom (opened : Option Opened) : List UInt8 → List (Option Char)
  | [] => if opened.isSome then [none] else []
  | b :: bs => (step opened b.toNat).1 ++ decodeFrom (step opened b.toNat).2 bs

/-- The characters of a sequence of bytes, with `none` for each ill-formed
stretch. -/
def decode (bs : List UInt8) : List (Option Char) :=
  decodeFrom none bs

/-- The character that stands for an ill-formed stretch. -/
def replacement : Char := '\ufffd'

/-- Decoding that writes the replacement character for what is ill-formed. -/
def decodeLossy (bs : List UInt8) : List Char :=
  (decode bs).map (·.getD replacement)

/-- Decoding of well-formed bytes only. -/
def decode? (bs : List UInt8) : Option (List Char) :=
  (decode bs).mapM id

end Utf8

end ScriptSyntax
