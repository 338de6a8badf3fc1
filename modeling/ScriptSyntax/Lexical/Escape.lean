/-
Escapes in text literals.

After a backslash stands a letter for a control character, a letter that
announces digits, or any other character, which then stands for itself.
Digits spell bytes: in base 16 two digits a byte, in base 8 four, in base 2
eight.  Groups are counted from the right, so that the first group may be
short, and of the value of a group only the low byte is kept.

* `Radix` says how digits spell bytes, and `Radix.bytes` are the bytes.
* `Escape.read` reads what follows a backslash.
* `Escape.read_cuts` says that nothing is lost.
-/
import ScriptSyntax.Text.Utf8

namespace ScriptSyntax

/-! ### Digits and bytes -/

/-- How digits spell bytes: the base, the number of digits of one byte, and
the greatest number of digits that are read, given the first of them. -/
structure Radix where
  base : Nat
  group : Nat
  limit : Nat → Nat

namespace Radix

/-- Two hexadecimal digits a byte, up to four bytes. -/
def hexadecimal : Radix := ⟨16, 2, fun _ => 8⟩

/-- Four octal digits a byte, up to 32 bits: eleven digits if the first has at
most two bits, and ten otherwise. -/
def octal : Radix := ⟨8, 4, fun first => if first > 3 then 10 else 11⟩

/-- Eight binary digits a byte, up to four bytes. -/
def binary : Radix := ⟨2, 8, fun _ => 32⟩

/-- The radix that a letter announces. -/
def ofLetter? : Char → Option Radix
  | 'u' | 'x' => some hexadecimal
  | 'o' => some octal
  | 'B' => some binary
  | _ => none

/-- The value of a character as a digit of some base. -/
def value (c : Char) : Nat :=
  if c.isDigit then c.toNat - '0'.toNat
  else if 'a' ≤ c ∧ c ≤ 'z' then c.toNat - 'a'.toNat + 10
  else if 'A' ≤ c ∧ c ≤ 'Z' then c.toNat - 'A'.toNat + 10
  else 36

/-- Whether a character is a digit in a radix. -/
def isDigit (r : Radix) (c : Char) : Bool :=
  value c < r.base

/-- The digits at the front of a text, as many as are read. -/
def digits (r : Radix) (s : List Char) : List Char :=
  match s with
  | [] => []
  | c :: _ => (s.take (r.limit (value c))).takeWhile r.isDigit

/-- The bytes that digits spell.  A byte ends where the number of digits after
it is a multiple of the group; `high` is the value of the digits already read
of the byte. -/
def bytesFrom (r : Radix) (high : Nat) : List Nat → List UInt8
  | [] => []
  | d :: ds =>
    let v := high * r.base + d
    if ds.length % r.group = 0 then .ofNat v :: bytesFrom r 0 ds else bytesFrom r v ds

/-- The bytes that digits spell. -/
def bytes (r : Radix) (ds : List Nat) : List UInt8 :=
  bytesFrom r 0 ds

/-- The digits are a front of the text. -/
theorem digits_append_drop (r : Radix) (s : List Char) :
    r.digits s ++ s.drop (r.digits s).length = s := by
  refine List.prefix_iff_eq_append.1 ?_
  unfold digits
  split
  · exact List.nil_prefix
  · exact (List.takeWhile_prefix _).trans (List.take_prefix _ _)

end Radix

/-! ### Reading an escape -/

namespace Escape

/-- What follows a backslash: the bytes it stands for, the characters it
covers, and the text after it. -/
structure Piece where
  bytes : List UInt8
  taken : List Char
  rest : List Char
  deriving DecidableEq, Repr

/-- The control character that a letter stands for. -/
def control? : Char → Option UInt8
  | '0' => some 0x00
  | 'a' => some 0x07
  | 'b' => some 0x08
  | 't' => some 0x09
  | 'n' => some 0x0A
  | 'v' => some 0x0B
  | 'f' => some 0x0C
  | 'r' => some 0x0D
  | _ => none

/-- Reads what follows a backslash.  A letter that announces digits and has
none stands for itself. -/
def read : List Char → Piece
  | [] => ⟨[], [], []⟩
  | c :: cs =>
    match control? c with
    | some b => ⟨[b], [c], cs⟩
    | none =>
      match Radix.ofLetter? c with
      | none => ⟨Utf8.encodeChar c, [c], cs⟩
      | some r =>
        let ds := r.digits cs
        if ds = [] then ⟨Utf8.encodeChar c, [c], cs⟩
        else ⟨r.bytes (ds.map Radix.value), c :: ds, cs.drop ds.length⟩

theorem read_cuts (s : List Char) : (read s).taken ++ (read s).rest = s := by
  unfold read
  split
  · rfl
  · split
    · rfl
    · split
      · rfl
      · next r _ =>
        dsimp only
        split
        · rfl
        · simp [Radix.digits_append_drop]

theorem length_rest_read_le (s : List Char) : (read s).rest.length ≤ s.length := by
  have h := congrArg List.length (read_cuts s)
  simp only [List.length_append] at h
  omega

end Escape

end ScriptSyntax
