/-
A cursor that goes through the bytes of a text and counts its characters.

A text can be gone through byte by byte: the first byte of a character says how
many bytes there are of it, and the column goes up when the last of them has
been passed.  In the middle of a character the position is still that of the
character.

* `ByteCursor.advance` goes over one byte;
* `ByteCursor.before p cs` is a cursor at `p` that stands between two
  characters, in front of the characters `cs`;
* `ByteCursor.advanceBy_encode` — over the bytes of whole characters the cursor
  comes to stand between two characters again, at the position to which these
  characters lead.

Design notes: the cursor is defined on all bytes, whatever characters they are
or are not of.  Only the bytes of a text are known to owe nothing at the end of
a character.
-/
import ScriptSyntax.Span
import ScriptSyntax.Text.Utf8

namespace ScriptSyntax

namespace Utf8

/-- The number of bytes of the character that begins with a byte. -/
def width (b : UInt8) : Nat :=
  if b.toNat < 0x80 then 1
  else if b.toNat / 0x20 = 0x6 then 2
  else if b.toNat / 0x10 = 0xE then 3
  else if b.toNat / 0x8 = 0x1E then 4
  else 1

theorem toNat_ofNat {n : Nat} (h : n < 0x100) : (UInt8.ofNat n).toNat = n :=
  UInt8.toNat_ofNat_of_lt' h

theorem ofNat_ne_newLine {n : Nat} (h : n < 0x100) (hn : n ≠ 0x0A) : UInt8.ofNat n ≠ 0x0A := by
  intro heq
  refine hn ?_
  rw [← toNat_ofNat h, heq]
  rfl

theorem encodeChar_newLine : encodeChar '\n' = [0x0A] := by
  decide

theorem toNat_lt (c : Char) : c.toNat < 0x110000 := by
  rcases c.valid with h | ⟨-, h⟩
  · exact Nat.lt_trans h (by decide)
  · exact h

/-- The first byte of a character tells how many bytes it has, and no byte of
another character is that of a line break. -/
theorem encodeChar_eq_cons (c : Char) :
    ∃ b bs, encodeChar c = b :: bs ∧ width b = bs.length + 1 ∧
      (c ≠ '\n' → ∀ x ∈ b :: bs, x ≠ 0x0A) := by
  have hc := toNat_lt c
  rw [encodeChar]
  by_cases h₁ : c.toNat < 0x80
  · rw [if_pos h₁]
    refine ⟨_, _, rfl, ?_, fun hne => List.forall_mem_singleton.2 ?_⟩
    · rw [width, toNat_ofNat (by omega), if_pos h₁]
      rfl
    · exact ofNat_ne_newLine (by omega) fun h => hne (Char.toNat_inj.1 h)
  rw [if_neg h₁]
  by_cases h₂ : c.toNat < 0x800
  · rw [if_pos h₂]
    refine ⟨_, _, rfl, ?_, fun _ => ?_⟩
    · rw [width, toNat_ofNat (by omega), if_neg (by omega), if_pos (by omega)]
      rfl
    · simp only [List.forall_mem_cons]
      exact ⟨ofNat_ne_newLine (by omega) (by omega), ofNat_ne_newLine (by omega) (by omega), nofun⟩
  rw [if_neg h₂]
  by_cases h₃ : c.toNat < 0x10000
  · rw [if_pos h₃]
    refine ⟨_, _, rfl, ?_, fun _ => ?_⟩
    · rw [width, toNat_ofNat (by omega), if_neg (by omega), if_neg (by omega), if_pos (by omega)]
      rfl
    · simp only [List.forall_mem_cons]
      exact ⟨ofNat_ne_newLine (by omega) (by omega), ofNat_ne_newLine (by omega) (by omega),
        ofNat_ne_newLine (by omega) (by omega), nofun⟩
  · rw [if_neg h₃]
    refine ⟨_, _, rfl, ?_, fun _ => ?_⟩
    · rw [width, toNat_ofNat (by omega), if_neg (by omega), if_neg (by omega), if_neg (by omega),
        if_pos (by omega)]
      rfl
    · simp only [List.forall_mem_cons]
      exact ⟨ofNat_ne_newLine (by omega) (by omega), ofNat_ne_newLine (by omega) (by omega),
        ofNat_ne_newLine (by omega) (by omega), ofNat_ne_newLine (by omega) (by omega), nofun⟩

/-- The width of the character at the front of some bytes, and one at their
end. -/
def widthAt : List UInt8 → Nat
  | [] => 1
  | b :: _ => width b

end Utf8

/-- A place between two bytes of a text. -/
structure ByteCursor where
  unread : List UInt8
  /-- The position of the character that the next byte belongs to. -/
  position : Span
  /-- The bytes of that character that are still to come. -/
  pending : Nat
  deriving DecidableEq, Repr

namespace ByteCursor

open Utf8

/-- Goes over one byte. -/
def advance (x : ByteCursor) : ByteCursor :=
  match x.unread with
  | [] => x
  | b :: bs =>
    if b = 0x0A then ⟨bs, ⟨x.position.line + 1, 1⟩, widthAt bs⟩
    else if x.pending - 1 = 0 then ⟨bs, ⟨x.position.line, x.position.column + 1⟩, widthAt bs⟩
    else ⟨bs, x.position, x.pending - 1⟩

/-- Goes over some bytes. -/
def advanceBy : Nat → ByteCursor → ByteCursor
  | 0, x => x
  | n + 1, x => advanceBy n x.advance

theorem advanceBy_add (m n : Nat) (x : ByteCursor) :
    x.advanceBy (m + n) = (x.advanceBy m).advanceBy n := by
  induction m generalizing x with
  | zero => rw [Nat.zero_add, advanceBy]
  | succ m ih => rw [Nat.succ_add, advanceBy, advanceBy, ih]

/-- The cursor at `p` that stands in front of whole characters. -/
def before (p : Span) (cs : List Char) : ByteCursor :=
  ⟨encode cs, p, widthAt (encode cs)⟩

/-- Over the last bytes of a character, which are no line break, the cursor
comes to the next column. -/
theorem advanceBy_pending {bs rest : List UInt8} {p : Span} (hne : bs ≠ [])
    (hbytes : ∀ x ∈ bs, x ≠ 0x0A) :
    advanceBy bs.length ⟨bs ++ rest, p, bs.length⟩ =
      ⟨rest, ⟨p.line, p.column + 1⟩, widthAt rest⟩ := by
  induction bs with
  | nil => exact absurd rfl hne
  | cons b bs ih =>
    obtain ⟨hb, hbs⟩ := List.forall_mem_cons.1 hbytes
    rw [List.length_cons, advanceBy, List.cons_append, advance]
    simp only [if_neg hb, Nat.add_sub_cancel]
    -- Only the last byte counts a column; before it the bytes to come get fewer.
    by_cases hlast : bs = []
    · subst hlast
      rfl
    · rw [if_neg (fun h => hlast (List.eq_nil_of_length_eq_zero h))]
      exact ih hlast hbs

/-- Over the bytes of a character. -/
theorem advanceBy_encodeChar (p : Span) (c : Char) (cs : List Char) :
    (before p (c :: cs)).advanceBy (encodeChar c).length = before (p.step c) cs := by
  by_cases hc : c = '\n'
  · subst hc
    rw [encodeChar_newLine]
    rfl
  · obtain ⟨b, bs, hbytes, hwidth, hne⟩ := encodeChar_eq_cons c
    have hencode : encode (c :: cs) = (b :: bs) ++ encode cs := by
      rw [← hbytes]
      rfl
    rw [before, hencode, hbytes, Span.step, if_neg hc]
    -- The first byte has said how many bytes are pending: all of them.
    show advanceBy _ ⟨_, _, width b⟩ = _
    rw [hwidth]
    exact advanceBy_pending (List.cons_ne_nil b bs) (hne hc)

/-- **A cursor over bytes counts characters.**  Over the bytes of some
characters it goes to the position to which these lead, and stands between two
characters there. -/
theorem advanceBy_encode (p : Span) (cs ds : List Char) :
    (before p (cs ++ ds)).advanceBy (encode cs).length = before (p.after cs) ds := by
  induction cs generalizing p with
  | nil => rfl
  | cons c cs ih =>
    have hlength : (encode (c :: cs)).length = (encodeChar c).length + (encode cs).length :=
      List.length_append
    rw [hlength, advanceBy_add, List.cons_append, advanceBy_encodeChar, ih, Span.after_cons]

end ByteCursor

end ScriptSyntax
