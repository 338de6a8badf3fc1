/-
Bytes and characters under a cursor.

A cursor that stands between two characters sees the next character if this is a single byte, and
otherwise a byte that no single character is.  A test that holds of single bytes only therefore
gives the same answer for bytes and for characters.

* `ByteCursor.advance_narrow` — over a single byte the cursor goes on by one character;
* `ByteCursor.eq_of_wide` — what only goes on at the bytes of a character of several bytes goes
  on by the whole character;
* `ByteCursor.peek_eq_some_iff` and `ByteCursor.skipWhile_before` — what a cursor sees, and how
  far it goes.

Design notes: the positions in the middle of a character are not described.  A function is
followed from byte to byte there, and only where it comes to stand in the end matters.
-/
import ScriptSyntax.Proofs.Bytewise.Lexer
import ScriptSyntax.Proofs.Text.Decoding

namespace ScriptSyntax

namespace Utf8

variable {b : UInt8} {c d : Char} {s : List Char}

theorem toNat_charOf (b : UInt8) : (charOf b).toNat = b.toNat :=
  toNat_ofNat_of_isValidChar (.inl (Nat.lt_trans b.toNat_lt (by decide)))

theorem charOf_wide (hb : 0x80 ≤ b.toNat) : ¬ (charOf b).toNat < 0x80 := by
  rw [toNat_charOf]
  exact Nat.not_lt.2 hb

theorem ne_of_wide (hc : ¬ c.toNat < 0x80) (hd : d.toNat < 0x80) : c ≠ d := by
  rintro rfl
  exact hc hd

theorem charOf_ne (hb : 0x80 ≤ b.toNat) (hc : c.toNat < 0x80) : charOf b ≠ c :=
  ne_of_wide (charOf_wide hb) hc

/-- What stands for something only if it is a single byte. -/
theorem eq_none_of_wide {α : Type} {f : Char → Option α} (hf : ∀ {c a}, f c = some a →
    c.toNat < 0x80) (hc : ¬ c.toNat < 0x80) : f c = none :=
  Option.eq_none_iff_forall_ne_some.2 fun _ h => hc (hf h)

theorem charOf_ofNat_toNat (h : c.toNat < 0x80) : charOf (.ofNat c.toNat) = c := by
  rw [charOf, toNat_ofNat (Nat.lt_trans h (by decide)), Char.ofNat_toNat]

theorem encodeChar_narrow (h : c.toNat < 0x80) : encodeChar c = [.ofNat c.toNat] := by
  rw [encodeChar]
  exact if_pos h

theorem encodeChar_wide (h : ¬ c.toNat < 0x80) : ∃ b b' bs, encodeChar c = b :: b' :: bs := by
  rw [encodeChar, if_neg h]
  split_ifs <;> exact ⟨_, _, _, rfl⟩

/-- No byte of a character of several bytes is a character. -/
theorem le_of_mem_encodeChar (h : ¬ c.toNat < 0x80) : ∀ b ∈ encodeChar c, 0x80 ≤ b.toNat := by
  have hc := toNat_lt c
  have hbyte : ∀ {n : Nat}, 0x80 ≤ n → n < 0x100 → 0x80 ≤ (UInt8.ofNat n).toNat := by
    intro n hle hlt
    rwa [toNat_ofNat hlt]
  rw [encodeChar, if_neg h]
  split_ifs with h₂ h₃
  all_goals
    simp only [List.forall_mem_cons]
    refine ⟨hbyte (by omega) (by omega), hbyte (by omega) (by omega), ?_⟩
  · exact List.forall_mem_nil _
  · exact ⟨hbyte (by omega) (by omega), List.forall_mem_nil _⟩
  · exact ⟨hbyte (by omega) (by omega), hbyte (by omega) (by omega), List.forall_mem_nil _⟩

theorem encode_cons (c : Char) (s : List Char) : encode (c :: s) = encodeChar c ++ encode s :=
  List.flatMap_cons

theorem encode_append (s t : List Char) : encode (s ++ t) = encode s ++ encode t :=
  List.flatMap_append

theorem encode_narrow (h : ∀ c ∈ s, c.toNat < 0x80) : (encode s).length = s.length := by
  induction s with
  | nil => rfl
  | cons c s ih =>
    obtain ⟨hc, hs⟩ := List.forall_mem_cons.1 h
    rw [encode_cons, encodeChar_narrow hc, List.singleton_append, List.length_cons, ih hs,
      List.length_cons]

end Utf8

/-- A test of characters that only single bytes pass. -/
def Narrow (q : Char → Bool) : Prop :=
  ∀ c, q c → c.toNat < 0x80

/-- No byte of a character of several bytes passes. -/
theorem Narrow.not_charOf {q : Char → Bool} (hq : Narrow q) {b : UInt8} (hb : 0x80 ≤ b.toNat) :
    ¬ q (Utf8.charOf b) := fun h => Utf8.charOf_wide hb (hq _ h)

theorem narrow_isDigit : Narrow Char.isDigit := by
  intro c hc
  simp only [Char.isDigit, Bool.and_eq_true, decide_eq_true_eq, UInt32.le_iff_toNat_le] at hc
  exact Nat.lt_of_le_of_lt hc.2 (by decide)

namespace ByteCursor

open Utf8

variable {x : ByteCursor} {b : UInt8} {bs : List UInt8} {p : Span} {c d : Char} {cs s : List Char}
  {q : Char → Bool}

/-! ### At a byte -/

theorem ahead_of_unread (h : x.unread = b :: bs) : x.ahead = charOf b :: bs.map charOf := by
  rw [ahead, h, List.map_cons]

theorem peek_of_unread (h : x.unread = b :: bs) : x.peek = some (charOf b) := by
  rw [peek, ahead_of_unread h, List.head?_cons]

theorem unread_before (p : Span) (s : List Char) : (before p s).unread = encode s := rfl

theorem position_before (p : Span) (s : List Char) : (before p s).position = p := rfl

/-! ### In front of a single byte -/

theorem ahead_narrow (hc : c.toNat < 0x80) (p p' : Span) (s : List Char) :
    (before p (c :: s)).ahead = c :: (before p' s).ahead := by
  rw [ahead, unread_before, encode_cons, encodeChar_narrow hc, List.singleton_append, List.map_cons,
    charOf_ofNat_toNat hc]
  rfl

theorem peek_narrow (hc : c.toNat < 0x80) (p : Span) (s : List Char) :
    (before p (c :: s)).peek = some c := by
  rw [peek, ahead_narrow hc p p, List.head?_cons]

theorem exists_unread_narrow (hc : c.toNat < 0x80) (p : Span) (s : List Char) :
    ∃ b bs, (before p (c :: s)).unread = b :: bs ∧ charOf b = c ∧ encodeChar c = [b] := by
  refine ⟨.ofNat c.toNat, encode s, ?_, charOf_ofNat_toNat hc, encodeChar_narrow hc⟩
  rw [unread_before, encode_cons, encodeChar_narrow hc, List.singleton_append]

theorem advance_narrow (hc : c.toNat < 0x80) (p : Span) (s : List Char) :
    (before p (c :: s)).advance = before (p.step c) s := by
  have hadvance := advanceBy_encodeChar p c s
  rwa [encodeChar_narrow hc] at hadvance

/-- Over characters that are single bytes. -/
theorem advanceBy_narrow (hcs : ∀ c ∈ cs, c.toNat < 0x80) (p : Span) (s : List Char) :
    (before p (cs ++ s)).advanceBy cs.length = before (p.after cs) s := by
  rw [← advanceBy_encode p cs s, encode_narrow hcs]

/-! ### In front of several bytes -/

/-- The first two bytes of a character of several bytes. -/
theorem exists_unread_wide (hc : ¬ c.toNat < 0x80) (p : Span) (s : List Char) :
    ∃ b b' bs, (before p (c :: s)).unread = b :: b' :: bs ∧ 0x80 ≤ b.toNat ∧ 0x80 ≤ b'.toNat := by
  obtain ⟨b, b', bs, hbytes⟩ := encodeChar_wide hc
  have hall := le_of_mem_encodeChar hc
  rw [hbytes, List.forall_mem_cons, List.forall_mem_cons] at hall
  refine ⟨b, b', bs ++ encode s, ?_, hall.1, hall.2.1⟩
  rw [unread_before, encode_cons, hbytes, List.cons_append, List.cons_append]

theorem exists_peek_wide (hc : ¬ c.toNat < 0x80) (p : Span) (s : List Char) :
    ∃ d, (before p (c :: s)).peek = some d ∧ 0x80 ≤ d.toNat := by
  obtain ⟨b, _, _, hunread, hb, -⟩ := exists_unread_wide hc p s
  refine ⟨_, peek_of_unread hunread, ?_⟩
  rwa [toNat_charOf]

/-- Bytes that are no characters are put behind `out`, one by one. -/
theorem eq_advanceBy {α : Type} {f : List UInt8 → ByteCursor → α}
    (hf : ∀ out x b bs, x.unread = b :: bs → 0x80 ≤ b.toNat → f out x = f (out ++ [b]) x.advance)
    (hbs : ∀ b ∈ bs, 0x80 ≤ b.toNat) {rest : List UInt8} (hx : x.unread = bs ++ rest)
    (out : List UInt8) : f out x = f (out ++ bs) (x.advanceBy bs.length) := by
  induction bs generalizing x out with
  | nil => rw [List.append_nil, List.length_nil, advanceBy]
  | cons b bs ih =>
    obtain ⟨hb, hbs⟩ := List.forall_mem_cons.1 hbs
    have hrest : x.advance.unread = bs ++ rest := by
      rw [unread_advance, hx, List.cons_append, List.tail_cons]
    rw [hf out x b _ hx hb, ih hbs hrest, List.append_assoc, List.singleton_append,
      List.length_cons, advanceBy]

/-- What goes on at each byte that is no character goes on by a character of several bytes. -/
theorem eq_of_wide {α : Type} {f : List UInt8 → ByteCursor → α}
    (hf : ∀ out x b bs, x.unread = b :: bs → 0x80 ≤ b.toNat → f out x = f (out ++ [b]) x.advance)
    (hc : ¬ c.toNat < 0x80) (p : Span) (s : List Char) (out : List UInt8) :
    f out (before p (c :: s)) = f (out ++ encodeChar c) (before (p.step c) s) := by
  rw [eq_advanceBy hf (le_of_mem_encodeChar hc) (encode_cons c s), advanceBy_encodeChar]

/-- The same without what is put behind. -/
theorem eq_of_wide' {α : Type} {f : ByteCursor → α}
    (hf : ∀ x b bs, x.unread = b :: bs → 0x80 ≤ b.toNat → f x = f x.advance)
    (hc : ¬ c.toNat < 0x80) (p : Span) (s : List Char) :
    f (before p (c :: s)) = f (before (p.step c) s) :=
  eq_of_wide (f := fun _ x => f x) (fun _ => hf) hc p s []

/-! ### Tests -/

theorem peek_eq_some_iff (hd : d.toNat < 0x80) : (before p s).peek = some d ↔ s.head? = some d := by
  cases s with
  | nil => exact Iff.rfl
  | cons c s =>
    rw [List.head?_cons]
    by_cases hc : c.toNat < 0x80
    · rw [peek_narrow hc]
    · -- Neither is the byte.
      obtain ⟨e, hpeek, he⟩ := exists_peek_wide hc p s
      rw [hpeek]
      refine iff_of_false ?_ ?_
      · rintro ⟨⟩
        exact absurd hd (Nat.not_lt.2 he)
      · rintro ⟨⟩
        exact hc hd

/-- A test of single bytes gives the same answer for the next byte and the next character. -/
theorem filter_peek (hq : Narrow q) (p : Span) (s : List Char) :
    (before p s).peek.filter q = s.head?.filter q := by
  refine Option.ext fun d => ?_
  rw [Option.filter_eq_some_iff, Option.filter_eq_some_iff]
  refine and_congr_left fun hd => peek_eq_some_iff (hq d hd)

theorem peekAt_one (hc : c.toNat < 0x80) (p : Span) (s : List Char) :
    (before p (c :: s)).peekAt 1 = (before (p.step c) s).peek := by
  rw [peekAt, ahead_narrow hc p (p.step c), peek, List.head?_eq_getElem?]
  rfl

theorem peekAt_two (hc : c.toNat < 0x80) (hd : d.toNat < 0x80) (p : Span) (s : List Char) :
    (before p (c :: d :: s)).peekAt 2 = (before ((p.step c).step d) s).peek := by
  rw [peekAt, ahead_narrow hc p (p.step c), ahead_narrow hd _ ((p.step c).step d), peek,
    List.head?_eq_getElem?]
  rfl

/-- How far bytes are of some sort that only single bytes are of. -/
theorem takeWhile_ahead (hq : Narrow q) (p : Span) (s : List Char) :
    (before p s).ahead.takeWhile q = s.takeWhile q := by
  induction s generalizing p with
  | nil => rfl
  | cons c s ih =>
    by_cases hc : c.toNat < 0x80
    · rw [ahead_narrow hc p p, List.takeWhile_cons, List.takeWhile_cons, ih]
    · obtain ⟨b, _, _, hunread, hb, -⟩ := exists_unread_wide hc p s
      rw [ahead_of_unread hunread, List.takeWhile_cons_of_neg (hq.not_charOf hb),
        List.takeWhile_cons_of_neg fun h => hc (hq c h)]

theorem skipWhile_before (hq : Narrow q) (p : Span) (s : List Char) :
    (before p s).skipWhile q = before (p.after (s.takeWhile q)) (s.dropWhile q) := by
  have hnarrow : ∀ c ∈ s.takeWhile q, c.toNat < 0x80 := fun c hc =>
    hq c (List.all_eq_true.1 List.all_takeWhile c hc)
  have hadvance := advanceBy_narrow hnarrow p (s.dropWhile q)
  rwa [List.takeWhile_append_dropWhile, ← takeWhile_ahead hq p s, ← skipWhile,
    takeWhile_ahead hq p s] at hadvance

end ByteCursor

end ScriptSyntax
