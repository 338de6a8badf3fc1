/-
Units of text literals.

A unit is a character that stands for itself, or a backslash with what belongs to it: one more
character, or a letter and the digits that it announces.  Strings are made of units, and a
character literal holds one.

* `TextLiteral.Spells u bytes` — the characters `u` are a unit, and they stand for `bytes`;
* `TextLiteral.Inside` says of characters that no string ends among them, and
  `TextLiteral.tokenize_string` which token they are the content of;
* `TextLiteral.Spells.unescape_append` and `TextLiteral.Spells.readCharacter_append` — a unit
  is read in strings, and in character literals;
* `TextLiteral.tokenize_unit` — both give it the same text, unless it is a backslash in front of
  a character of several bytes, which no character literal can hold.

Design notes: digits are read as far as they go, so a unit has to be followed by something that
is no digit in any base (`Radix.Stops`).  Quotation marks and backslashes are none.
-/
import ScriptSyntax.Proofs.Lexical.StringExtents

namespace ScriptSyntax

/-- A text that is one lexeme has one token, and the end. -/
theorem tokenize_of_next {s : List Char} {x : Lexeme} (h : Scan.next s = ⟨x, []⟩)
    (hkind : x.kind ≠ .endOfInput) :
    tokenize (String.ofList s) = [x.tokenAt .start, .endAt (.counted s)] := by
  have hcuts : (Scan.next s).lexeme.source ++ (Scan.next s).rest = s := Scan.next_cuts s
  rw [h, List.append_nil] at hcuts
  have hend : tokenize (String.ofList []) = [.endAt (.counted [])] := by decide +kernel
  have hplace : (Token.endAt (.counted [])).shift (Span.counted s) = .endAt (.counted s) :=
    congrArg Token.endAt (Span.shift_counted _ [])
  rw [tokenize_eq_cons h hkind, hend, hcuts, Span.after_start, List.map_singleton, hplace]

/-! ### Runs of digits -/

namespace Radix

variable {r : Radix} {c : Char} {ds t s : List Char}

/-- Digits, and not more of them than are read together. -/
structure IsRun (r : Radix) (ds : List Char) : Prop where
  isDigit : ∀ d ∈ ds, r.isDigit d
  length_le : ∀ d ∈ ds.head?, ds.length ≤ r.limit (value d)

/-- No digit comes first, not even one in base 16. -/
def Stops (t : List Char) : Prop :=
  t.head?.all (!hexadecimal.isDigit ·)

instance (t : List Char) : Decidable (Stops t) :=
  inferInstanceAs (Decidable (_ = true))

theorem base_le_of_ofLetter? (h : ofLetter? c = some r) : r.base ≤ 16 := by
  unfold ofLetter? at h
  split at h
  · obtain rfl := Option.some.inj h; decide
  · obtain rfl := Option.some.inj h; decide
  · obtain rfl := Option.some.inj h; decide
  · obtain rfl := Option.some.inj h; decide
  · exact nomatch h

/-- What is no digit in base 16 is a digit in none of the bases that letters announce. -/
theorem Stops.all (ht : Stops t) (hr : ofLetter? c = some r) : t.head?.all (!r.isDigit ·) := by
  rw [Stops, Option.all_eq_true] at ht
  rw [Option.all_eq_true]
  intro d hd
  have hhexadecimal : hexadecimal.isDigit d = false := by
    rw [← Bool.not_eq_true']
    exact ht d hd
  rw [Bool.not_eq_true']
  refine decide_eq_false fun hlt => ?_
  exact of_decide_eq_false hhexadecimal (hlt.trans_le (base_le_of_ofLetter? hr))

theorem takeWhile_take_eq_nil {p : Char → Bool} (ht : t.head?.all (!p ·)) (n : Nat) :
    (t.take n).takeWhile p = [] := by
  cases t with
  | nil => rw [List.take_nil, List.takeWhile_nil]
  | cons d t =>
    have hd : p d = false := by simpa using ht
    cases n with
    | zero => rfl
    | succ n => rw [List.take_succ_cons, List.takeWhile_cons_of_neg (by rw [hd]; decide)]

theorem isRun_nil : r.IsRun [] :=
  ⟨nofun, nofun⟩

/-- A run is read as far as it goes. -/
theorem digits_run (hrun : r.IsRun ds) (ht : t.head?.all (!r.isDigit ·)) :
    r.digits (ds ++ t) = ds := by
  cases ds with
  | nil =>
    cases t with
    | nil => rfl
    | cons d t =>
      rw [List.nil_append, digits_eq (c := d) rfl]
      exact takeWhile_take_eq_nil ht _
  | cons d ds =>
    have hlength := hrun.length_le d rfl
    rw [digits_eq (c := d) rfl, List.take_append, List.take_of_length_le hlength,
      List.takeWhile_append_of_pos hrun.isDigit, takeWhile_take_eq_nil ht, List.append_nil]

/-- What is read is a run. -/
theorem isRun_digits (r : Radix) (s : List Char) : r.IsRun (r.digits s) := by
  cases s with
  | nil => exact isRun_nil
  | cons c cs =>
    have hdigits := digits_eq (s := c :: cs) rfl r
    constructor
    · rw [hdigits]
      exact List.all_eq_true.1 List.all_takeWhile
    · -- The first digit is the first character, and so it has set the limit.
      intro d hd
      have hfirst : d = c := by
        have hcut := r.digits_append_drop (c :: cs)
        cases hds : r.digits (c :: cs) with
        | nil =>
          rw [hds] at hd
          exact nomatch hd
        | cons e es =>
          rw [hds] at hcut hd
          obtain ⟨rfl, -⟩ := List.cons.inj hcut
          exact (Option.some.inj hd).symm
      rw [hfirst, hdigits]
      exact (List.takeWhile_prefix _).length_le.trans (List.length_take_le _ _)

end Radix

/-! ### Escapes -/

namespace Escape

variable {c : Char} {r : Radix} {ds t : List Char}

/-- The bytes of a backslash with one character behind it. -/
def single (c : Char) : List UInt8 :=
  match control? c with
  | some b => [b]
  | none => Utf8.encodeChar c

theorem single_of_control?_eq_none (h : control? c = none) : single c = Utf8.encodeChar c := by
  rw [single, h]

theorem control?_of_ofLetter? (h : Radix.ofLetter? c = some r) : control? c = none := by
  unfold Radix.ofLetter? at h
  split at h
  · rfl
  · rfl
  · rfl
  · rfl
  · exact nomatch h

theorem read_single (h : ∀ r, Radix.ofLetter? c = some r → r.digits t = []) :
    read (c :: t) = ⟨single c, [c], t⟩ := by
  rw [single]
  cases hc : control? c with
  | some b => exact read_of_control? hc t
  | none =>
    cases hr : Radix.ofLetter? c with
    | none => exact read_other hc hr t
    | some r => rw [read_of_ofLetter? hc hr, if_pos (h r hr)]

theorem read_run (hr : Radix.ofLetter? c = some r) (hne : ds ≠ []) (hrun : r.IsRun ds)
    (ht : Radix.Stops t) :
    read (c :: (ds ++ t)) = ⟨r.bytes (ds.map Radix.value), c :: ds, t⟩ := by
  rw [read_of_ofLetter? (control?_of_ofLetter? hr) hr, Radix.digits_run hrun (ht.all hr),
    if_neg hne, List.drop_left]

/-- Letters that announce digits are single bytes. -/
theorem toNat_lt_of_ofLetter? (h : Radix.ofLetter? c = some r) : c.toNat < 0x80 := by
  unfold Radix.ofLetter? at h
  split at h
  · decide
  · decide
  · decide
  · decide
  · exact nomatch h

end Escape

namespace TextLiteral

/-! ### Units -/

/-- A unit of a text literal, and the bytes that it stands for. -/
inductive Spells : List Char → List UInt8 → Prop where
  /-- Any other character than a backslash and the white space that is dropped stands for
  itself. -/
  | plain {c : Char} (hescape : c ≠ '\\') (hdropped : isDropped c = false) :
      Spells [c] (Utf8.encodeChar c)
  | escape (c : Char) : Spells ['\\', c] (Escape.single c)
  /-- A letter and the digits that it announces, at least one. -/
  | run {c : Char} {r : Radix} {ds : List Char} (hr : Radix.ofLetter? c = some r)
      (hne : ds ≠ []) (hrun : r.IsRun ds) : Spells ('\\' :: c :: ds) (r.bytes (ds.map Radix.value))

/-- A backslash in front of a character of several bytes. -/
def IsWideEscape (u : List Char) : Prop :=
  ∃ c, u = ['\\', c] ∧ ¬ c.toNat < 0x80

variable {u v t : List Char} {bytes : List UInt8}

/-- A unit is a character, or what an escape takes wherever no digit follows. -/
theorem Spells.plain_or_escape (hu : Spells u bytes) :
    (∃ c, u = [c] ∧ bytes = Utf8.encodeChar c ∧ c ≠ '\\' ∧ isDropped c = false) ∨
      ∃ c ds, u = '\\' :: c :: ds ∧ (¬ IsWideEscape u → c.toNat < 0x80) ∧
        ∀ t, Radix.Stops t → Escape.read (c :: (ds ++ t)) = ⟨bytes, c :: ds, t⟩ := by
  cases hu with
  | plain hescape hdropped => exact .inl ⟨_, rfl, rfl, hescape, hdropped⟩
  | escape c =>
    refine .inr ⟨c, [], rfl, fun hwide => not_not.1 fun hc => hwide ⟨c, rfl, hc⟩, fun t ht => ?_⟩
    exact Escape.read_single fun r hr => Radix.digits_run Radix.isRun_nil (ht.all hr)
  | run hr hne hrun =>
    exact .inr ⟨_, _, rfl, fun _ => Escape.toNat_lt_of_ofLetter? hr, fun t ht =>
      Escape.read_run hr hne hrun ht⟩

/-- A unit is read alike in front of all that is no digit. -/
theorem Spells.unescape_append (hu : Spells u bytes) (ht : Radix.Stops t) :
    unescape (u ++ t) = bytes ++ unescape t := by
  rcases hu.plain_or_escape with ⟨c, rfl, rfl, hescape, hdropped⟩ | ⟨c, ds, rfl, -, hread⟩
  · rw [List.singleton_append, unescape, if_neg hescape, if_neg (by rw [hdropped]; decide)]
  · rw [List.cons_append, List.cons_append, unescape, if_pos rfl, hread t ht]

theorem Spells.unescape_eq (hu : Spells u bytes) : unescape u = bytes := by
  have happend := hu.unescape_append (t := []) rfl
  rwa [unescape, List.append_nil, List.append_nil] at happend

/-! ### The content of strings -/

/-- Characters among which no string ends. -/
def Inside (u : List Char) : Prop :=
  ∀ s, closing (u ++ s) = (closing s).map fun r => (u ++ r.1, r.2)

namespace Inside

theorem nil : Inside [] := by
  intro s
  show closing s = (closing s).map id
  rw [Option.map_id]
  rfl

theorem append (hu : Inside u) (hv : Inside v) : Inside (u ++ v) := by
  intro s
  rw [List.append_assoc, hu, hv, Option.map_map]
  simp only [Function.comp_def, List.append_assoc]

theorem of_together (hu : Together u) : Inside u :=
  hu.closing_append

theorem flatMap {α : Type} {f : α → List Char} {xs : List α} (h : ∀ x ∈ xs, Inside (f x)) :
    Inside (xs.flatMap f) := by
  induction xs with
  | nil => exact nil
  | cons x xs ih =>
    obtain ⟨hx, hxs⟩ := List.forall_mem_cons.1 h
    exact hx.append (ih hxs)

theorem of_isDigit {r : Radix} {c : Char} (hr : Radix.ofLetter? c = some r)
    (h : ∀ d ∈ u, r.isDigit d) : Inside u := by
  -- Neither mark has a value as a digit.
  have hdigit : ∀ {d m : Char}, r.isDigit d → ¬ Radix.value m < 16 → d ≠ m := by
    rintro d _ hd hm rfl
    exact hm ((of_decide_eq_true hd).trans_le (Radix.base_le_of_ofLetter? hr))
  have hplain : ∀ d ∈ u, Inside [d] := fun d hd =>
    of_together (.plain (hdigit (h d hd) (by decide)) (hdigit (h d hd) (by decide)))
  have hu := flatMap hplain
  rwa [List.flatMap_singleton'] at hu

/-- The next quotation mark ends the string. -/
theorem closing_quote (hu : Inside u) (t : List Char) :
    closing (u ++ '"' :: t) = some (u, t) := by
  rw [hu, TextLiteral.closing_quote, Option.map_some, List.append_nil]

end Inside

theorem Spells.inside (hu : Spells u bytes) (hquote : u ≠ ['"']) : Inside u := by
  cases hu with
  | @plain c hescape _ =>
    exact .of_together (.plain (fun h => hquote (congrArg (fun d => [d]) h)) hescape)
  | escape c => exact .of_together (.escape c)
  | @run c _ ds hr _ hrun =>
    exact (Inside.of_together (.escape c)).append (.of_isDigit hr hrun.isDigit)

/-- A text between two marks. -/
def marked (mark : Char) (u : List Char) : List Char :=
  mark :: (u ++ [mark])

/-- Characters between quotation marks are a string if none ends among them. -/
theorem tokenize_string (hu : Inside u) :
    tokenize (String.ofList (marked '"' u)) =
      [⟨.string, String.ofList (textOf (unescape u)), .start⟩,
        .endAt (.counted (marked '"' u))] := by
  have hnext : Scan.next (marked '"' u) =
      ⟨.whole .string (textOf (unescape u)) ('"' :: u ++ ['"']), []⟩ := by
    rw [marked, Scan.next_quote, readString, hu.closing_quote]
  exact tokenize_of_next hnext (by decide : TokenKind.string ≠ .endOfInput)

/-! ### Character literals -/

theorem close_apostrophe (bytes : List UInt8) (taken t : List Char) :
    close bytes taken ('\'' :: t) = ⟨.whole .char (textOf bytes) (taken ++ ['\'']), t⟩ := by
  have hclose := close_of_quote (s := '\'' :: t) rfl bytes taken
  rwa [show ('\'' :: t).takeWhile isDropped = [] from rfl, List.append_nil] at hclose

theorem Spells.readCharacter_append (hu : Spells u bytes) (hwide : ¬ IsWideEscape u)
    (t : List Char) :
    readCharacter (u ++ '\'' :: t) =
      ⟨.whole .char (textOf bytes) ('\'' :: u ++ ['\'']), t⟩ := by
  have hgap : ∀ x ∈ ([] : List Char), isDropped x := nofun
  have hstops : Radix.Stops ('\'' :: t) := rfl
  rcases hu.plain_or_escape with ⟨c, rfl, rfl, hescape, hdropped⟩ | ⟨c, ds, rfl, hnarrow, hread⟩
  · have hplain := @readCharacter_plain [] ('\'' :: t) c hgap hdropped hescape
    rwa [close_apostrophe] at hplain
  · have hbyte : (c :: (ds ++ '\'' :: t)).head?.all (·.toNat < 0x80) :=
      decide_eq_true (hnarrow hwide)
    have hescape := @readCharacter_escape [] (c :: (ds ++ '\'' :: t)) hgap
    rwa [if_pos hbyte, hread _ hstops, close_apostrophe] at hescape

/-- Behind a backslash only one byte is taken, and then the mark is missing. -/
theorem readCharacter_wideEscape {c : Char} (hc : ¬ c.toNat < 0x80) (t : List Char) :
    readCharacter ('\\' :: c :: '\'' :: t) =
      ⟨.bad .unterminatedCharacter ['\'', '\\', c, '\''], t⟩ := by
  have hmark : '\'' ∉ ['\\', c] := by
    have hne : '\'' ≠ c := by
      rintro rfl
      exact hc (by decide)
    simp [hne]
  have hread := @readCharacter_escape [] (c :: '\'' :: t) nofun
  rw [if_neg (by simpa using hc)] at hread
  exact hread.trans (unclosed_append hmark _ _)

end TextLiteral

open TextLiteral

/-- In front of an apostrophe a character literal is read. -/
theorem Scan.next_apostrophe (s : List Char) : next ('\'' :: s) = readCharacter s := by
  have hcomment : comment? ('\'' :: s) = none := rfl
  rw [next_eq_reader rfl (by decide) hcomment]
  rfl

namespace TextLiteral

variable {u : List Char} {bytes : List UInt8}

theorem tokenize_character (hu : Spells u bytes) (hwide : ¬ IsWideEscape u) :
    tokenize (String.ofList (marked '\'' u)) =
      [⟨.char, String.ofList (textOf bytes), .start⟩, .endAt (.counted (marked '\'' u))] := by
  have hnext : Scan.next (marked '\'' u) =
      ⟨.whole .char (textOf bytes) ('\'' :: u ++ ['\'']), []⟩ := by
    rw [marked, Scan.next_apostrophe, hu.readCharacter_append hwide]
  exact tokenize_of_next hnext (by decide : TokenKind.char ≠ .endOfInput)

theorem tokenize_wideEscape (hwide : IsWideEscape u) :
    tokenize (String.ofList (marked '\'' u)) =
      [⟨.bad, "Unterminated character", .start⟩, .endAt (.counted (marked '\'' u))] := by
  obtain ⟨c, rfl, hc⟩ := hwide
  have hnext : Scan.next (marked '\'' ['\\', c]) =
      ⟨.bad .unterminatedCharacter ['\'', '\\', c, '\''], []⟩ :=
    (Scan.next_apostrophe _).trans (readCharacter_wideEscape hc [])
  exact tokenize_of_next hnext (by decide : TokenKind.bad ≠ .endOfInput)

theorem textOf_encodeChar (c : Char) : textOf (Utf8.encodeChar c) = [c] := by
  have hencode := textOf_encode [c]
  rwa [Utf8.encode, List.flatMap_singleton] at hencode

/-- **Strings and character literals read a unit alike**, but for one sort of units: a backslash
in front of a character of several bytes stands for this character in a string, and makes a
character literal an error.  Any other character behind a backslash that stands for no control
character stands for itself in both. -/
theorem tokenize_unit (hu : Spells u bytes) (hquote : u ≠ ['"']) :
    tokenize (String.ofList (marked '"' u)) =
        [⟨.string, String.ofList (textOf bytes), .start⟩, .endAt (.counted (marked '"' u))] ∧
      (¬ IsWideEscape u → tokenize (String.ofList (marked '\'' u)) =
        [⟨.char, String.ofList (textOf bytes), .start⟩, .endAt (.counted (marked '\'' u))]) ∧
      (IsWideEscape u → tokenize (String.ofList (marked '\'' u)) =
        [⟨.bad, "Unterminated character", .start⟩, .endAt (.counted (marked '\'' u))]) ∧
      ∀ c, u = ['\\', c] → Escape.control? c = none → textOf bytes = [c] := by
  refine ⟨?_, tokenize_character hu, tokenize_wideEscape, ?_⟩
  · have hstring := tokenize_string (hu.inside hquote)
    rwa [hu.unescape_eq] at hstring
  · rintro c rfl hcontrol
    cases hu with
    | escape => rw [Escape.single_of_control?_eq_none hcontrol, textOf_encodeChar]
    | run _ hne => exact absurd rfl hne

/-- `\xc3a9` is the character é in both, and `\é` only in a string. -/
theorem tokenize_unit_accented :
    (Spells ['\\', 'x', 'c', '3', 'a', '9'] [0xC3, 0xA9] ∧
        tokenize "\"\\xc3a9\"" = [⟨.string, "é", ⟨1, 1⟩⟩, .endAt ⟨1, 9⟩] ∧
        tokenize "'\\xc3a9'" = [⟨.char, "é", ⟨1, 1⟩⟩, .endAt ⟨1, 9⟩]) ∧
      Spells ['\\', 'é'] [0xC3, 0xA9] ∧
        tokenize "\"\\é\"" = [⟨.string, "é", ⟨1, 1⟩⟩, .endAt ⟨1, 5⟩] ∧
        tokenize "'\\é'" = [⟨.bad, "Unterminated character", ⟨1, 1⟩⟩, .endAt ⟨1, 5⟩] := by
  have hdigits : Spells ['\\', 'x', 'c', '3', 'a', '9'] [0xC3, 0xA9] :=
    .run (r := .hexadecimal) rfl nofun
      ⟨List.all_eq_true.1 rfl, fun _ _ => show 4 ≤ 8 by decide⟩
  have haccent : Spells ['\\', 'é'] [0xC3, 0xA9] := .escape 'é'
  have htext : String.ofList (textOf [0xC3, 0xA9]) = "é" := by decide +kernel
  have hnarrow : ¬ IsWideEscape ['\\', 'x', 'c', '3', 'a', '9'] := nofun
  have hwide : IsWideEscape ['\\', 'é'] := ⟨'é', rfl, by decide⟩
  obtain ⟨hstring, hcharacter, -, -⟩ := tokenize_unit hdigits (by decide)
  obtain ⟨hstring', -, hbad, -⟩ := tokenize_unit haccent (by decide)
  rw [htext] at hstring hcharacter hstring'
  exact ⟨⟨hdigits, hstring, hcharacter hnarrow⟩, haccent, hstring', hbad hwide⟩

/-- **Not every unit is read alike.**  In a string `\é` is one character, and `'\é'` is an
error. -/
theorem not_forall_read_alike :
    ¬ ∀ (u : List Char) (bytes : List UInt8) (text : String) (p : Span),
      Spells u bytes → u ≠ ['"'] → u ≠ ['\''] →
      tokenize (String.ofList (marked '"' u)) = [⟨.string, text, .start⟩, .endAt p] →
      tokenize (String.ofList (marked '\'' u)) = [⟨.char, text, .start⟩, .endAt p] := by
  intro h
  have hstring : tokenize (String.ofList (marked '"' ['\\', 'é'])) =
      [⟨.string, "é", .start⟩, .endAt ⟨1, 5⟩] := by
    decide +kernel
  have hcharacter := h _ _ _ _ (.escape 'é') (by decide) (by decide) hstring
  rw [tokenize_wideEscape ⟨'é', rfl, by decide⟩] at hcharacter
  cases hcharacter

end TextLiteral

end ScriptSyntax
