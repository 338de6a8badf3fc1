/-
The texts of literals.

What a numeral carries as its text is made of digits, but for the points and
exponents of fractions:

* `Literal.Legible` says of a literal that its text is of the sort that belongs to
  it;
* `Numeral.spell_ok` — the text that parts spell, and when it is one of a fraction;
* `legible_of_mem_tokenize` — the literals that the tokens of a text carry are
  legible.

Design notes: nothing more is true of these texts.  A text of a longer decimal need
not be a fraction, and one with a base mark has any digits.
-/
import ScriptSyntax.Proofs.Lexical.Numerals
import ScriptSyntax.Proofs.Lexical.Run
import ScriptSyntax.Tree.Basic

namespace ScriptSyntax

/-! ### Texts of numerals -/

namespace Numeral

/-- Whether a character can stand in the text of a numeral. -/
def isTextChar (c : Char) : Bool :=
  c.isDigit || c == '.' || c == 'e' || isSign c

/-- The characters of a part are of its sort. -/
def Part.Fits : Part → Prop
  | digit c => c.isDigit
  | exponent _ (some sign) => isSign sign
  | _ => True

theorem fits_of_mem_parts {s : List Char} : ∀ p ∈ (parts s).1, p.Fits := by
  fun_induction parts s <;> simp_all [Part.Fits]

theorem exists_of_map_eq_ok {ε α β : Type} {x : Except ε α} {f : α → β} {b : β}
    (h : x.map f = .ok b) : ∃ a, x = .ok a ∧ f a = b := by
  rcases x with e | a
  · exact nomatch h
  · exact ⟨a, rfl, Except.ok.inj h⟩

/-- The text that parts spell, and when a point or an exponent is among them. -/
theorem spell_ok {base : Base} {point exponent fraction : Bool} {ahead : Nat} {ps : List Part}
    {text : List Char} (hps : ∀ p ∈ ps, p.Fits)
    (h : spell base point exponent ahead ps = .ok (text, fraction)) :
    text.all isTextChar ∧ fraction = (point || exponent || !text.all Char.isDigit) := by
  fun_induction spell base point exponent ahead ps generalizing text fraction with
  | case1 =>
    obtain ⟨rfl, rfl⟩ := Prod.mk.inj (Except.ok.inj h)
    simp
  | case2 _ _ _ c ps ih =>
    -- A digit goes on with a text, and makes no fraction of it.
    obtain ⟨hc, hps⟩ := List.forall_mem_cons.1 hps
    have hdigit : c.isDigit := hc
    obtain ⟨⟨rest, f⟩, hspell, hr⟩ := exists_of_map_eq_ok h
    obtain ⟨rfl, rfl⟩ := Prod.mk.inj hr
    obtain ⟨hrest, hfraction⟩ := ih hps hspell
    simp [isTextChar, hdigit, hrest, hfraction]
  | case3 _ _ _ ps ih => exact ih (List.forall_mem_cons.1 hps).2 h
  | case4 | case5 | case7 | case8 | case9 => exact nomatch h
  | case6 _ _ _ ps _ _ ih =>
    obtain ⟨⟨rest, f⟩, hspell, hr⟩ := exists_of_map_eq_ok h
    obtain ⟨rfl, rfl⟩ := Prod.mk.inj hr
    obtain ⟨hrest, hfraction⟩ := ih (List.forall_mem_cons.1 hps).2 hspell
    simp [isTextChar, hrest, hfraction]
  | case10 _ _ _ ps _ _ _ sign ih =>
    obtain ⟨hsign, hps⟩ := List.forall_mem_cons.1 hps
    have hsign : isSign sign := hsign
    obtain ⟨⟨rest, f⟩, hspell, hr⟩ := exists_of_map_eq_ok h
    obtain ⟨rfl, rfl⟩ := Prod.mk.inj hr
    obtain ⟨hrest, hfraction⟩ := ih hps hspell
    simp [isTextChar, hsign, hrest, hfraction]

end Numeral

/-! ### Literals -/

/-- The text of a literal is of the sort that belongs to it. -/
def Literal.Legible : Literal → Prop
  | integer text | longInteger text | hexadecimal text | octal text | binary text =>
    text.toList ≠ [] ∧ text.toList.all Char.isDigit
  | longDecimal text => text.toList ≠ [] ∧ text.toList.all Numeral.isTextChar
  | decimal text => text.toList.all Numeral.isTextChar ∧ text.toList.all Char.isDigit = false
  | char _ | string _ | boolean _ | null => True

/-- The literal that a token carries is legible, if it carries one. -/
def Token.Legible (t : Token) : Prop :=
  ∀ v, Literal.ofToken? t = some v → v.Legible

/-- Of a token that is no numeral nothing is asked. -/
theorem Token.legible_of_notMem {t : Token} (h : t.kind ∉ TokenKind.numerals) : t.Legible := by
  obtain ⟨kind, text, p⟩ := t
  intro v hv
  cases kind with
  | integer | longInteger | decimal | longDecimal | hexadecimal | octal | binary =>
    exact absurd h (by simp [TokenKind.numerals])
  | char | string | boolean | null =>
    obtain rfl := Option.some.inj hv
    trivial
  | _ => exact nomatch hv

namespace Numeral

/-- A numeral without a fault carries a legible literal. -/
theorem legible_of_value {w : Written} {k : TokenKind} {text : List Char} {p : Span}
    (hparts : ∀ q ∈ w.parts, q.Fits) (h : w.value = .ok (k, text)) :
    (⟨k, String.ofList text, p⟩ : Token).Legible := by
  obtain ⟨fraction, hspell, hlong, hmissing, rfl⟩ := value_eq_ok_iff.1 h
  obtain ⟨hchars, hfraction⟩ := spell_ok hparts hspell
  rw [Bool.or_self, Bool.false_or] at hfraction
  have hne : text ≠ [] := by
    rintro rfl
    exact nomatch hmissing
  have hwhole : fraction = false → text.all Char.isDigit := by
    rintro rfl
    simpa using hfraction
  intro v hv
  unfold Written.kind at hv
  split at hv
  · next hsuffix =>
    obtain rfl := Option.some.inj hv
    have hno : fraction = false := Bool.eq_false_iff.2 fun hf => hlong ⟨hsuffix, hf⟩
    rw [Literal.Legible, String.toList_ofList]
    exact ⟨hne, hwhole hno⟩
  · obtain rfl := Option.some.inj hv
    rw [Literal.Legible, String.toList_ofList]
    exact ⟨hne, hchars⟩
  · cases fraction with
    | true =>
      obtain rfl := Option.some.inj hv
      rw [Literal.Legible, String.toList_ofList]
      exact ⟨hchars, by simpa using hfraction⟩
    | false =>
      have hdigits := hwhole rfl
      cases hbase : w.base with
      | _ =>
        rw [hbase] at hv
        obtain rfl := Option.some.inj hv
        rw [Literal.Legible, String.toList_ofList]
        exact ⟨hne, hdigits⟩

theorem legible_read (s : List Char) (p : Span) :
    (⟨(read s).lexeme.kind, (read s).lexeme.text, p⟩ : Token).Legible := by
  show (Token.mk (Written.lexeme _).kind (Written.lexeme _).text p).Legible
  unfold Written.lexeme
  split
  · next k text h => exact legible_of_value fits_of_mem_parts h
  · exact Token.legible_of_notMem (by decide : TokenKind.bad ∉ _)

end Numeral

/-- The next token of a lexer carries a legible literal, if it carries one. -/
theorem Lexer.legible_next (l : Lexer) : l.next.1.Legible := by
  show ((Scan.next l.unread).lexeme.tokenAt l.position).Legible
  unfold Scan.next
  split
  · exact Token.legible_of_notMem (by decide : TokenKind.endOfInput ∉ _)
  · next gap c cs _ =>
    rcases Scan.readAt_cases c cs with h | ⟨-, h⟩
    · exact Token.legible_of_notMem h.2
    · rw [h]
      exact Numeral.legible_read (c :: cs) _

/-- The literals that the tokens of a text carry are legible. -/
theorem legible_of_mem_tokenize {text : String} : ∀ t ∈ tokenize text, t.Legible := by
  intro t ht
  obtain ⟨l, rfl⟩ := Lexer.exists_next_of_mem_drain ht
  exact l.legible_next

end ScriptSyntax
