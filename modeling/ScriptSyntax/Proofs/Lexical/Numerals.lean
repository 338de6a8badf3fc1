/-
Plain numerals.

A numeral is plain if it is written with digits only, but for a base mark or a
point between digits and for a suffix.  It is read back with the text that one
expects:

* `Numeral.Digits` are digits, at least one;
* `Numeral.Plain` is a plain numeral, and `Numeral.Plain.written` its characters;
* `Numeral.Plain.ofText_written` and `Numeral.Plain.value_numeral` — it is read as
  a whole, and its text is what is left without base mark and suffix.
-/
import ScriptSyntax.Proofs.Lexical.Boundary

namespace ScriptSyntax

namespace Numeral

/-! ### Digits -/

/-- Some digits, at least one. -/
structure Digits where
  chars : List Char
  ne_nil : chars ≠ []
  isDigit : ∀ c ∈ chars, c.isDigit

theorem Digits.exists_eq_cons (ds : Digits) : ∃ c cs, ds.chars = c :: cs ∧ c.isDigit := by
  rcases hds : ds.chars with _ | ⟨c, cs⟩
  · exact absurd hds ds.ne_nil
  · exact ⟨c, cs, rfl, ds.isDigit c (by rw [hds]; exact List.mem_cons_self)⟩

/-- A digit is none of the characters that are no digits. -/
theorem ne_of_isDigit {c d : Char} (hc : c.isDigit) (hd : d.isDigit = false) : c ≠ d := by
  rintro rfl
  rw [hc] at hd
  exact Bool.noConfusion hd

theorem isSign_of_isDigit {c : Char} (h : c.isDigit) : isSign c = false := by
  simp [isSign, ne_of_isDigit h (d := '+') rfl, ne_of_isDigit h (d := '-') rfl]

theorem ofLetter?_of_isDigit {c : Char} (h : c.isDigit) : Base.ofLetter? c = none := by
  unfold Base.ofLetter?
  split
  · exact absurd h (by decide)
  · exact absurd h (by decide)
  · exact absurd h (by decide)
  · rfl

theorem Base.eq_of_ofLetter? {c : Char} {b : Base} (h : Base.ofLetter? c = some b) :
    c = 'o' ∨ c = 'x' ∨ c = 'b' := by
  unfold Base.ofLetter? at h
  split at h
  · exact .inl rfl
  · exact .inr (.inl rfl)
  · exact .inr (.inr rfl)
  · cases h

/-- The digits at the front of a text are parts of their own. -/
theorem parts_digits {ds : List Char} (h : ∀ c ∈ ds, c.isDigit) (s : List Char) :
    parts (ds ++ s) = (ds.map .digit ++ (parts s).1, (parts s).2) := by
  induction ds with
  | nil => rfl
  | cons d ds ih =>
    obtain ⟨hd, hds⟩ := List.forall_mem_cons.1 h
    rw [List.cons_append, parts_digit hd, ih hds]
    rfl

theorem parts_point (s : List Char) : parts ('.' :: s) = (.point :: (parts s).1, (parts s).2) := by
  rw [parts.eq_def]
  rfl

/-- Digits go on with the text that is spelled. -/
theorem spell_digits (base : Base) (point exponent : Bool) (ahead : Nat) (ds : List Char)
    (ps : List Part) :
    spell base point exponent ahead (ds.map .digit ++ ps) =
      (spell base point exponent (ahead + ds.length) ps).map fun r => (ds ++ r.1, r.2) := by
  induction ds generalizing ahead with
  | nil =>
    show spell base point exponent ahead ps = (spell base point exponent ahead ps).map id
    cases spell base point exponent ahead ps <;> rfl
  | cons d ds ih =>
    rw [List.map_cons, List.cons_append, spell, ih, List.length_cons, Nat.add_assoc,
      Nat.add_comm 1]
    cases spell base point exponent (ahead + (ds.length + 1)) ps <;> rfl

/-- A text that ends in digits lacks nothing. -/
theorem missing?_append_digits (front : List Char) (ds : Digits) :
    missing? (front ++ ds.chars) = none := by
  obtain ⟨c, hc⟩ : ∃ c, ds.chars.getLast? = some c := by
    cases h : ds.chars.getLast? with
    | none => exact absurd (List.getLast?_eq_none_iff.1 h) ds.ne_nil
    | some c => exact ⟨c, rfl⟩
  have hdigit : c.isDigit := ds.isDigit c (List.mem_of_getLast? hc)
  rw [missing?, List.getLast?_append, hc]
  show (if isSign c then _ else if c = '.' then _ else none) = none
  rw [if_neg (by rw [isSign_of_isDigit hdigit]; decide), if_neg (ne_of_isDigit hdigit rfl)]

/-- When a numeral has no fault: its parts spell a text that lacks nothing, and it
is no long integer with a fraction. -/
theorem value_eq_ok_iff {w : Written} {k : TokenKind} {text : List Char} :
    w.value = .ok (k, text) ↔
      ∃ fraction, spell w.base false false 0 w.parts = .ok (text, fraction) ∧
        ¬ (w.suffix = some .long ∧ fraction) ∧ missing? text = none ∧ k = w.kind fraction := by
  unfold Written.value
  rcases spell w.base false false 0 w.parts with f | ⟨spelled, fraction⟩
  · exact ⟨nofun, nofun⟩
  · show (if _ then _ else _) = _ ↔ _
    simp only [Except.ok.injEq, Prod.mk.injEq]
    split
    · next hlong =>
      constructor
      · exact nofun
      · rintro ⟨_, ⟨-, rfl⟩, hnot, -⟩
        exact absurd hlong hnot
    · next hlong =>
      split
      · next e he =>
        constructor
        · exact nofun
        · rintro ⟨_, ⟨rfl, -⟩, -, hnone, -⟩
          rw [he] at hnone
          exact nomatch hnone
      · next hnone =>
        simp only [Except.ok.injEq, Prod.mk.injEq]
        constructor
        · rintro ⟨hkind, htext⟩
          exact ⟨fraction, ⟨htext, rfl⟩, hlong, htext ▸ hnone, hkind.symm⟩
        · rintro ⟨_, ⟨htext, rfl⟩, -, -, hkind⟩
          exact ⟨hkind.symm, htext⟩

/-- A numeral that is cut off and has no fault is read with its value. -/
theorem read_append_of_value {a s : List Char} {w : Written} {k : TokenKind} {text : List Char}
    (hcut : Written.ofText (a ++ s) = (w, s)) (hvalue : w.value = .ok (k, text)) :
    read (a ++ s) = ⟨.whole k text a, s⟩ := by
  have hsource := Written.ofText_cuts (a ++ s)
  rw [hcut] at hsource
  have hwritten : w.source = a := List.append_cancel_right hsource
  rw [read, hcut, Written.lexeme, hvalue, hwritten]

/-! ### Plain numerals -/

/-- A numeral without underscores and exponents. -/
inductive Plain where
  /-- A whole number, in some base. -/
  | whole (base : Base) (ds : Digits)
  /-- A whole number for which a larger type is asked. -/
  | large (ds : Digits) (suffix : Suffix)
  /-- A fraction, for which a larger type may be asked. -/
  | fraction (ds fs : Digits) (wide : Bool)

namespace Base

/-- The characters that mark a base. -/
def mark : Base → List Char
  | decimal => []
  | octal => ['0', 'o']
  | hexadecimal => ['0', 'x']
  | binary => ['0', 'b']

end Base

namespace Plain

/-- The suffix of a fraction. -/
def fractionSuffix (wide : Bool) : Option Suffix :=
  if wide then some .double else none

/-- The numeral as it is written. -/
def numeral : Plain → Written
  | whole base ds => ⟨base, base.mark, ds.chars.map .digit, none⟩
  | large ds suffix => ⟨.decimal, [], ds.chars.map .digit, some suffix⟩
  | fraction ds fs wide =>
    ⟨.decimal, [], ds.chars.map .digit ++ .point :: fs.chars.map .digit, fractionSuffix wide⟩

/-- The characters of a numeral. -/
def written : Plain → List Char
  | whole base ds => base.mark ++ ds.chars
  | large ds suffix => ds.chars ++ [suffix.letter]
  | fraction ds fs wide =>
    ds.chars ++ '.' :: fs.chars ++ ((fractionSuffix wide).map Suffix.letter).toList

/-- The characters of a numeral without base mark and suffix. -/
def text : Plain → List Char
  | whole _ ds | large ds _ => ds.chars
  | fraction ds fs _ => ds.chars ++ '.' :: fs.chars

/-- The kind of a numeral. -/
def kind : Plain → TokenKind
  | whole base _ => base.kind
  | large _ .long => .longInteger
  | large _ .double => .longDecimal
  | fraction _ _ wide => if wide then .longDecimal else .decimal

/-- A suffix, or nothing, ends the parts. -/
theorem parts_suffix (x : Option Suffix) :
    parts (x.map Suffix.letter).toList = ([], (x.map Suffix.letter).toList) := by
  cases x with
  | none => rfl
  | some x => cases x <;> exact parts_of_not_isPartStart (by decide) []

theorem suffix_letter (x : Option Suffix) :
    Numeral.suffix (x.map Suffix.letter).toList = (x, []) := by
  cases x with
  | none => rfl
  | some x => cases x <;> rfl

/-- What follows the first digit of a numeral in base ten marks no base. -/
theorem baseMark_digits (ds : Digits) {s : List Char}
    (hs : s.head?.all (Base.ofLetter? · = none)) :
    baseMark (ds.chars ++ s) = (.decimal, [], ds.chars ++ s) := by
  rcases baseMark_eq (ds.chars ++ s) with h | ⟨b, c, cs, hb, h⟩
  · exact h
  · exfalso
    rcases hds : ds.chars with _ | ⟨d, _ | ⟨e, es⟩⟩
    · exact ds.ne_nil hds
    · rw [hds] at h
      obtain ⟨-, rfl⟩ := List.cons.inj h
      have hnone : Base.ofLetter? c = none := by simpa using hs
      rw [hnone] at hb
      exact nomatch hb
    · rw [hds] at h
      obtain ⟨-, h⟩ := List.cons.inj h
      obtain ⟨rfl, -⟩ := List.cons.inj h
      have hdigit := ds.isDigit e (by rw [hds]; simp)
      rw [ofLetter?_of_isDigit hdigit] at hb
      exact nomatch hb

/-- A plain numeral is read as a whole. -/
theorem ofText_written (n : Plain) : Written.ofText n.written = (n.numeral, []) := by
  cases n with
  | whole base ds =>
    have hparts : parts ds.chars = (ds.chars.map .digit, []) := by
      have := parts_digits ds.isDigit []
      rwa [List.append_nil, parts, List.append_nil] at this
    have hmark : baseMark (base.mark ++ ds.chars) = (base, base.mark, ds.chars) := by
      cases base with
      | decimal =>
        have := baseMark_digits ds (s := []) rfl
        rwa [List.append_nil] at this
      | _ => rfl
    exact ofText_eq hmark hparts rfl
  | large ds x =>
    have hmark := baseMark_digits ds (s := [x.letter]) (by cases x <;> decide)
    have hparts := parts_digits ds.isDigit [x.letter]
    rw [show [x.letter] = ((some x).map Suffix.letter).toList from rfl, parts_suffix,
      List.append_nil] at hparts
    exact ofText_eq hmark hparts (suffix_letter (some x))
  | fraction ds fs wide =>
    have hmark := baseMark_digits ds
      (s := '.' :: (fs.chars ++ ((fractionSuffix wide).map Suffix.letter).toList)) rfl
    have hparts := parts_digits ds.isDigit
      ('.' :: (fs.chars ++ ((fractionSuffix wide).map Suffix.letter).toList))
    rw [parts_point, parts_digits fs.isDigit, parts_suffix, List.append_nil] at hparts
    rw [written, List.append_assoc, List.cons_append]
    exact ofText_eq hmark hparts (suffix_letter _)

theorem spell_plainDigits (base : Base) (ds : Digits) :
    spell base false false 0 (ds.chars.map .digit) = .ok (ds.chars, false) := by
  have h := spell_digits base false false 0 ds.chars []
  rw [List.append_nil] at h
  rw [h]
  show Except.ok (ds.chars ++ [], false) = _
  rw [List.append_nil]

theorem spell_plainFraction (ds fs : Digits) :
    spell .decimal false false 0 (ds.chars.map .digit ++ .point :: fs.chars.map .digit) =
      .ok (ds.chars ++ '.' :: fs.chars, true) := by
  have h := spell_digits .decimal true false (0 + ds.chars.length + 1) fs.chars []
  rw [List.append_nil] at h
  rw [spell_digits, spell, if_neg (by decide), if_neg (by decide), h]
  show Except.ok (ds.chars ++ '.' :: (fs.chars ++ []), true) = _
  rw [List.append_nil]

/-- The text of a plain numeral is what is left without base mark and suffix. -/
theorem value_numeral (n : Plain) : n.numeral.value = .ok (n.kind, n.text) := by
  cases n with
  | whole base ds =>
    exact value_eq_ok_iff.2
      ⟨false, spell_plainDigits base ds, nofun, missing?_append_digits [] ds, rfl⟩
  | large ds x =>
    refine value_eq_ok_iff.2
      ⟨false, spell_plainDigits .decimal ds, nofun, missing?_append_digits [] ds, ?_⟩
    cases x <;> rfl
  | fraction ds fs wide =>
    have hmissing := missing?_append_digits (ds.chars ++ ['.']) fs
    rw [List.append_assoc, List.singleton_append] at hmissing
    refine value_eq_ok_iff.2 ⟨true, spell_plainFraction ds fs, ?_, hmissing, ?_⟩
    · cases wide <;> exact nofun
    · cases wide <;> rfl

end Plain

end Numeral

end ScriptSyntax
