/-
Numerals in dumps, read again.

In a dump a numeral stands with the mark of its base or with its suffix, and otherwise as its
text.  That is a numeral of scripts again, whatever the text came from.

* `Numeral.next_composed` — a text of digits and groups is read as it is, with a suffix or not;
* `Numeral.next_dump` — so are the texts of all kinds, as dumps write them;
* `tokenize_dump_numeral` — the dump of a numeral has one token, with the same literal.

Design notes: which texts come up is known (`TokenKind.isText_iff`), and so it does not matter
here how a numeral was written.  A base that a suffix has replaced is lost before the dump.
-/
import ScriptSyntax.Proofs.Lexical.NumeralTexts
import ScriptSyntax.Proofs.Lexical.TextUnits
import ScriptSyntax.Tree.Dump

namespace ScriptSyntax

namespace Numeral

variable {x : List Char} {k : TokenKind}

/-- A text of digits and groups is read as it is, with the suffix of a larger type or
without. -/
theorem next_composed (h : Composed x) (wide : Bool) :
    Scan.next (x ++ ((Plain.fractionSuffix wide).map Suffix.letter).toList) =
      ⟨.whole (if wide then .longDecimal else if x.all Char.isDigit then .integer else .decimal) x
        (x ++ ((Plain.fractionSuffix wide).map Suffix.letter).toList), []⟩ := by
  obtain ⟨ds, gs, hgs, hlast, rfl⟩ := h
  have hcut := ofText_composed ds hgs wide
  have hvalue := value_written hgs hlast wide
  rw [hcut] at hvalue
  rw [← List.append_nil (_ ++ Option.toList _)] at hcut
  have hread := read_append_of_value hcut hvalue
  rw [List.append_nil, ← all_isDigit_composed ds gs] at hread
  -- The first of the digits says that a numeral comes.
  obtain ⟨c, cs, hds, hc⟩ := ds.exists_eq_cons
  rw [← hread, hds]
  exact Scan.next_of_isDigit hc _

/-- A literal that is dumped as a plain numeral is read as this numeral. -/
theorem next_dump_of_plain (n : Plain) {v : Literal} (hv : v.dump = n.written) :
    Scan.next v.dump = ⟨.whole n.kind n.text v.dump, []⟩ := by
  have hread := (Spelled.numeral n).next_written (.inl rfl)
  rw [List.append_nil] at hread
  rw [hv]
  exact hread

/-- The texts of numerals are those of literals, and the dumps of these are read with the same
kinds and texts. -/
theorem next_dump (h : k.Admits x) (p : Span) :
    ∃ v, Literal.ofToken? ⟨k, String.ofList x, p⟩ = some v ∧
      Scan.next v.dump = ⟨.whole k x v.dump, []⟩ := by
  have hx : (String.ofList x).toList = x := String.toList_ofList
  cases k with
  | integer =>
    let ds : Digits := ⟨x, h.1, List.all_eq_true.1 h.2⟩
    exact ⟨.integer (.ofList x), rfl, next_dump_of_plain (.whole .decimal ds) hx⟩
  | octal =>
    let ds : Digits := ⟨x, h.1, List.all_eq_true.1 h.2⟩
    exact ⟨.octal (.ofList x), rfl,
      next_dump_of_plain (.whole .octal ds) (congrArg ('0' :: 'o' :: ·) hx)⟩
  | hexadecimal =>
    let ds : Digits := ⟨x, h.1, List.all_eq_true.1 h.2⟩
    exact ⟨.hexadecimal (.ofList x), rfl,
      next_dump_of_plain (.whole .hexadecimal ds) (congrArg ('0' :: 'x' :: ·) hx)⟩
  | binary =>
    let ds : Digits := ⟨x, h.1, List.all_eq_true.1 h.2⟩
    exact ⟨.binary (.ofList x), rfl,
      next_dump_of_plain (.whole .binary ds) (congrArg ('0' :: 'b' :: ·) hx)⟩
  | longInteger =>
    let ds : Digits := ⟨x, h.1, List.all_eq_true.1 h.2⟩
    exact ⟨.longInteger (.ofList x), rfl,
      next_dump_of_plain (.large ds .long) (congrArg (· ++ ['L']) hx)⟩
  | decimal =>
    have hnone : ((Plain.fractionSuffix false).map Suffix.letter).toList = [] := rfl
    have hread := next_composed h.1 false
    rw [h.2, hnone, List.append_nil] at hread
    refine ⟨.decimal (.ofList x), rfl, ?_⟩
    rw [Literal.dump, hx]
    exact hread
  | longDecimal =>
    refine ⟨.longDecimal (.ofList x), rfl, ?_⟩
    rw [Literal.dump, hx]
    exact next_composed h true
  | _ => exact h.elim

end Numeral

theorem Tree.toList_dump_literal (p : Span) (v : Literal) :
    (Tree.literal p v).dump.toList = v.dump := by
  rw [dump, String.toList_ofList, write, List.append_nil]

/-- **Numerals in dumps are numerals of scripts.**  The dump of a numeral that a script holds is
read as one token with the kind and the text that the numeral had, at the first place, and then
comes the end.  So it carries the same literal again. -/
theorem tokenize_dump_numeral {text : String} {t : Token} (ht : t ∈ tokenize text)
    (hk : t.kind ∈ TokenKind.numerals) :
    ∃ v, Literal.ofToken? t = some v ∧ ∀ p : Span,
      tokenize (Tree.literal p v).dump =
          [⟨t.kind, t.text, ⟨1, 1⟩⟩, .endAt (.counted (Tree.literal p v).dump.toList)] ∧
        (tokenize (Tree.literal p v).dump).filterMap Literal.ofToken? = [v] := by
  have hadmits : t.kind.Admits t.text.toList :=
    (TokenKind.isText_iff hk).1 ⟨text, t, ht, rfl, rfl⟩
  have hend : t.kind ≠ .endOfInput := by
    intro hend
    rw [hend] at hk
    exact absurd hk (by decide)
  obtain ⟨v, hv, hnext⟩ := Numeral.next_dump hadmits t.span
  rw [String.ofList_toList] at hv
  refine ⟨v, hv, fun p => ?_⟩
  have hread : tokenize (Tree.literal p v).dump =
      [⟨t.kind, t.text, ⟨1, 1⟩⟩, .endAt (.counted (Tree.literal p v).dump.toList)] := by
    have htokens := tokenize_of_next hnext hend
    rwa [← Tree.toList_dump_literal p v, String.ofList_toList, Lexeme.tokenAt, Lexeme.whole,
      String.ofList_toList] at htokens
  -- A literal does not depend on where its token stands, and the end carries none.
  have hsame : Literal.ofToken? ⟨t.kind, t.text, ⟨1, 1⟩⟩ = some v := hv
  refine ⟨hread, ?_⟩
  rw [hread, List.filterMap_cons_some hsame]
  rfl

/-- `0x1_0D` is the long decimal `10`, which is dumped as `10D`, and `1_0E+.5` is dumped as
`10e+.5`. -/
theorem tokenize_dump_numeral_cleaned :
    (⟨.longDecimal, "10", ⟨1, 1⟩⟩ ∈ tokenize "0x1_0D" ∧
        tokenize "10D" = [⟨.longDecimal, "10", ⟨1, 1⟩⟩, .endAt ⟨1, 4⟩]) ∧
      ⟨.decimal, "10e+.5", ⟨1, 3⟩⟩ ∈ tokenize "- 1_0E+.5" ∧
        tokenize "10e+.5" = [⟨.decimal, "10e+.5", ⟨1, 1⟩⟩, .endAt ⟨1, 7⟩] := by
  have hmarked : ⟨.longDecimal, "10", ⟨1, 1⟩⟩ ∈ tokenize "0x1_0D" := by decide +kernel
  have hbehind : ⟨.decimal, "10e+.5", ⟨1, 3⟩⟩ ∈ tokenize "- 1_0E+.5" := by decide +kernel
  refine ⟨⟨hmarked, ?_⟩, hbehind, ?_⟩
  · obtain ⟨v, hv, hdump⟩ := tokenize_dump_numeral hmarked (by decide)
    obtain rfl := Option.some.inj hv
    exact (hdump .start).1
  · obtain ⟨v, hv, hdump⟩ := tokenize_dump_numeral hbehind (by decide)
    obtain rfl := Option.some.inj hv
    exact (hdump .start).1

end ScriptSyntax
