/-
How far numerals go.

A numeral is cut off the front of a text before it is known to be good, and one that has a fault
is cut off alike.  It goes as far as a regular expression can match:

* `Numeral.extents` are the texts that the expression matches, and `LongestPrefix` says which of
  them is meant;
* `Numeral.longestPrefix_source` — a numeral is cut off as the longest of them;
* `Lexer.next_extent` — the lexer goes on right behind it, and has given a numeral or the error
  of one.

Design notes: parts are taken greedily, and for an arbitrary expression the longest match need
not be found so.  Here no piece begins with a sign or with the letter of a suffix.  Whoever
leaves a sign to what follows its exponent has to stop in front of it, and whoever takes a suffix
has to take all pieces before it.
-/
import Mathlib.Computability.Language
import ScriptSyntax.Proofs.Lexical.NumeralTexts

namespace ScriptSyntax

open scoped Computability

/-- `x` is the longest prefix of `s` in a language. -/
structure LongestPrefix (l : Language Char) (s x : List Char) : Prop where
  isPrefix : x <+: s
  mem : x ∈ l
  longest : ∀ y, y <+: s → y ∈ l → y.length ≤ x.length

namespace Numeral

/-! ### The expression -/

/-- A digit. -/
def digit : Language Char :=
  {x | ∃ c : Char, c.isDigit ∧ x = [c]}

/-- A digit, or the digit 0 with the letter of a base. -/
def openings : Language Char :=
  digit + {['0', 'o'], ['0', 'x'], ['0', 'b']}

/-- A digit, an underscore, a point, or an exponent with or without a sign. -/
def pieces : Language Char :=
  digit + {['_'], ['.']} + {['e'], ['E']} * {[], ['+'], ['-']}

/-- A suffix, or nothing. -/
def endings : Language Char :=
  {[], ['L'], ['D']}

/-- The texts that can be cut off as numerals. -/
def extents : Language Char :=
  openings * pieces∗ * endings

variable {c : Char} {s m e : List Char} {ms : List (List Char)}

theorem mem_openings_iff : m ∈ openings ↔
    (∃ c : Char, c.isDigit ∧ m = [c]) ∨ ∃ c b, Base.ofLetter? c = some b ∧ m = ['0', c] := by
  constructor
  · rintro (h | rfl | rfl | rfl)
    · exact .inl h
    · exact .inr ⟨'o', _, rfl, rfl⟩
    · exact .inr ⟨'x', _, rfl, rfl⟩
    · exact .inr ⟨'b', _, rfl, rfl⟩
  · rintro (h | ⟨c, b, hb, rfl⟩)
    · exact .inl h
    · rcases Base.eq_of_ofLetter? hb with rfl | rfl | rfl
      · exact .inr (.inl rfl)
      · exact .inr (.inr (.inl rfl))
      · exact .inr (.inr (.inr rfl))

theorem mem_pieces_iff : m ∈ pieces ↔
    (∃ c : Char, (c.isDigit ∨ c = '_' ∨ c = '.') ∧ m = [c]) ∨
      ∃ (c : Char) (sign : Option Char), (c = 'e' ∨ c = 'E') ∧ (∀ d ∈ sign, isSign d) ∧
        m = c :: sign.toList := by
  constructor
  · rintro ((⟨c, hc, rfl⟩ | rfl | rfl) | ⟨x, hx, y, hy, rfl⟩)
    · exact .inl ⟨c, .inl hc, rfl⟩
    · exact .inl ⟨'_', .inr (.inl rfl), rfl⟩
    · exact .inl ⟨'.', .inr (.inr rfl), rfl⟩
    · obtain ⟨c, hc, rfl⟩ : ∃ c, (c = 'e' ∨ c = 'E') ∧ x = [c] := by
        rcases hx with rfl | rfl
        · exact ⟨'e', .inl rfl, rfl⟩
        · exact ⟨'E', .inr rfl, rfl⟩
      rcases hy with rfl | rfl | rfl
      · exact .inr ⟨c, none, hc, nofun, rfl⟩
      · exact .inr ⟨c, some '+', hc, by simp [isSign], rfl⟩
      · exact .inr ⟨c, some '-', hc, by simp [isSign], rfl⟩
  · rintro (⟨c, hc | rfl | rfl, rfl⟩ | ⟨c, sign, hc, hsign, rfl⟩)
    · exact .inl (.inl ⟨c, hc, rfl⟩)
    · exact .inl (.inr (.inl rfl))
    · exact .inl (.inr (.inr rfl))
    · have hletter : [c] ∈ ({['e'], ['E']} : Language Char) := by
        rcases hc with rfl | rfl
        · exact .inl rfl
        · exact .inr rfl
      refine .inr (Language.append_mem_mul hletter (b := sign.toList) ?_)
      cases sign with
      | none => exact .inl rfl
      | some d =>
        have hd : isSign d := hsign d rfl
        rw [isSign, Bool.or_eq_true, beq_iff_eq, beq_iff_eq] at hd
        rcases hd with rfl | rfl
        · exact .inr (.inl rfl)
        · exact .inr (.inr rfl)

theorem mem_endings_iff : e ∈ endings ↔ ∃ x : Option Suffix, e = (x.map Suffix.letter).toList := by
  constructor
  · rintro (rfl | rfl | rfl)
    · exact ⟨none, rfl⟩
    · exact ⟨some .long, rfl⟩
    · exact ⟨some .double, rfl⟩
  · rintro ⟨_ | _ | _, rfl⟩
    · exact .inl rfl
    · exact .inr (.inl rfl)
    · exact .inr (.inr rfl)

/-! ### What is cut off matches -/

theorem source_mem_pieces : ∀ p ∈ (parts s).1, p.source ∈ pieces := by
  have hnone : ∀ x ∈ (none : Option Char), isSign x := fun x h => absurd h (Option.not_mem_none x)
  fun_induction parts s with
  | case1 | case8 => exact List.forall_mem_nil _
  | case2 c cs hc ih =>
    exact List.forall_mem_cons.2 ⟨mem_pieces_iff.2 (.inl ⟨c, .inl hc, rfl⟩), ih⟩
  | case3 cs _ ih =>
    exact List.forall_mem_cons.2 ⟨mem_pieces_iff.2 (.inl ⟨'_', .inr (.inl rfl), rfl⟩), ih⟩
  | case4 cs _ _ ih =>
    exact List.forall_mem_cons.2 ⟨mem_pieces_iff.2 (.inl ⟨'.', .inr (.inr rfl), rfl⟩), ih⟩
  | case5 c _ _ _ hc =>
    exact List.forall_mem_singleton.2 (mem_pieces_iff.2 (.inr ⟨c, none, hc, hnone, rfl⟩))
  | case6 c _ _ _ hc d ds hd ih =>
    have hsign : ∀ x ∈ some d, isSign x := by
      rintro _ ⟨⟩
      exact hd
    exact List.forall_mem_cons.2 ⟨mem_pieces_iff.2 (.inr ⟨c, some d, hc, hsign, rfl⟩), ih⟩
  | case7 c _ _ _ hc d ds _ ih =>
    exact List.forall_mem_cons.2 ⟨mem_pieces_iff.2 (.inr ⟨c, none, hc, hnone, rfl⟩), ih⟩

theorem flatMap_source_mem : (parts s).1.flatMap Part.source ∈ pieces∗ := by
  refine Language.mem_kstar.2 ⟨(parts s).1.map Part.source, List.flatMap_def, fun y hy => ?_⟩
  obtain ⟨p, hp, rfl⟩ := List.mem_map.1 hy
  exact source_mem_pieces p hp

/-- The numeral in front of a text that begins with a digit matches the expression. -/
theorem source_mem_extents (hc : c.isDigit) (cs : List Char) :
    (Written.ofText (c :: cs)).1.source ∈ extents := by
  have hending : ∀ x : Option Suffix, (x.map Suffix.letter).toList ∈ endings := fun x =>
    mem_endings_iff.2 ⟨x, rfl⟩
  rcases baseMark_eq (c :: cs) with hmark | ⟨b, d, ds, hb, hs⟩
  · -- The first digit is the first part.
    rw [Written.source, Written.ofText, hmark]
    simp only [List.nil_append, parts_digit hc]
    rw [List.flatMap_cons]
    exact Language.append_mem_mul (Language.append_mem_mul
      (mem_openings_iff.2 (.inl ⟨c, hc, rfl⟩)) flatMap_source_mem) (hending _)
  · rw [hs, Written.source, Written.ofText, baseMark_of_ofLetter? hb]
    exact Language.append_mem_mul (Language.append_mem_mul
      (mem_openings_iff.2 (.inr ⟨d, b, hb, rfl⟩)) flatMap_source_mem) (hending _)

/-! ### Nothing longer matches -/

theorem isPartStart_of_flatten (hms : ∀ m ∈ ms, m ∈ pieces) {ds : List Char}
    (h : ms.flatten = c :: ds) : isPartStart c := by
  rcases ms with _ | ⟨m, ms⟩
  · exact nomatch h
  · rw [List.flatten_cons] at h
    rcases mem_pieces_iff.1 (hms m List.mem_cons_self) with
      ⟨d, hd, rfl⟩ | ⟨d, sign, hd, -, rfl⟩
    · obtain ⟨rfl, -⟩ := List.cons.inj h
      rcases hd with hd | rfl | rfl
      · simp [isPartStart, hd]
      · rfl
      · rfl
    · obtain ⟨rfl, -⟩ := List.cons.inj h
      rcases hd with rfl | rfl <;> rfl

theorem isSign_of_isPartStart (h : isPartStart c) : isSign c = false := by
  simp only [isPartStart, Bool.or_eq_true, beq_iff_eq] at h
  rcases h with (((h | rfl) | rfl) | rfl) | rfl
  · exact isSign_of_isDigit h
  all_goals rfl

theorem parts_single (hc : c.isDigit ∨ c = '_' ∨ c = '.') (s : List Char) :
    ∃ p : Part, p.source = [c] ∧ parts (c :: s) = (p :: (parts s).1, (parts s).2) := by
  rcases hc with hc | rfl | rfl
  · exact ⟨.digit c, rfl, parts_digit hc s⟩
  · exact ⟨.underscore, rfl, by rw [parts.eq_def]; rfl⟩
  · exact ⟨.point, rfl, parts_point s⟩

/-- Pieces in front of a text are taken, and what follows the last one may go on with it. -/
theorem flatten_isPrefix (hms : ∀ m ∈ ms, m ∈ pieces) (t : List Char) :
    ms.flatten <+: (parts (ms.flatten ++ t)).1.flatMap Part.source := by
  induction ms with
  | nil => exact List.nil_prefix
  | cons m ms ih =>
    obtain ⟨hm, hrest⟩ := List.forall_mem_cons.1 hms
    rw [List.flatten_cons, List.append_assoc]
    rcases mem_pieces_iff.1 hm with ⟨c, hc, rfl⟩ | ⟨c, sign, hc, hsign, rfl⟩
    · obtain ⟨p, hsource, hparts⟩ := parts_single hc (ms.flatten ++ t)
      rw [List.singleton_append, List.singleton_append, hparts, List.flatMap_cons, hsource]
      exact (List.prefix_append_right_inj [c]).2 (ih hrest)
    · cases sign with
      | some d =>
        show c :: d :: ms.flatten <+: (parts (c :: d :: (ms.flatten ++ t))).1.flatMap _
        rw [parts_exponent hc (hsign d rfl)]
        exact (List.prefix_append_right_inj [c, d]).2 (ih hrest)
      | none =>
        show c :: ms.flatten <+: (parts (c :: (ms.flatten ++ t))).1.flatMap _
        by_cases hnext : ∀ d ds, ms.flatten ++ t = d :: ds → isSign d = false
        · rw [parts_exponent_unsigned hc hnext]
          exact (List.prefix_append_right_inj [c]).2 (ih hrest)
        · -- The sign that goes on with the exponent begins no piece, so no piece follows.
          push Not at hnext
          obtain ⟨d, ds, hd, hsign⟩ := hnext
          have hlast : ms.flatten = [] := by
            cases hflatten : ms.flatten with
            | nil => rfl
            | cons x xs =>
              rw [hflatten] at hd
              obtain ⟨rfl, -⟩ := List.cons.inj hd
              exact absurd (isSign_of_isPartStart (isPartStart_of_flatten hrest hflatten)) hsign
          rw [hd, hlast, parts_exponent hc (Bool.eq_true_of_not_eq_false hsign)]
          exact List.prefix_append [c] _

/-- No piece has the letter of a suffix. -/
theorem letter_notMem_source (x : Suffix) : x.letter ∉ (parts s).1.flatMap Part.source := by
  intro h
  obtain ⟨p, hp, hx⟩ := List.mem_flatMap.1 h
  have hdigit : x.letter.isDigit = false := by cases x <;> rfl
  rcases mem_pieces_iff.1 (source_mem_pieces p hp) with
    ⟨c, hc, hsource⟩ | ⟨c, sign, hc, hsign, hsource⟩
  · rw [hsource, List.mem_singleton] at hx
    rcases hc with hc | rfl | rfl
    · exact ne_of_isDigit hc hdigit hx.symm
    · cases x <;> exact absurd hx (by decide)
    · cases x <;> exact absurd hx (by decide)
  · rw [hsource, List.mem_cons, Option.mem_toList] at hx
    rcases hx with hx | hx
    · rcases hc with rfl | rfl <;> cases x <;> exact absurd hx (by decide)
    · have hsign := hsign _ hx
      cases x <;> exact absurd hsign (by decide)

/-- Pieces and a suffix in front of a text are no longer than what is taken of it. -/
theorem length_le_of_pieces (hms : ∀ m ∈ ms, m ∈ pieces) (he : e ∈ endings) (t : List Char) :
    (ms.flatten ++ e).length ≤ ((parts (ms.flatten ++ (e ++ t))).1.flatMap Part.source ++
      ((suffix (parts (ms.flatten ++ (e ++ t))).2).1.map Suffix.letter).toList).length := by
  have hprefix := flatten_isPrefix hms (e ++ t)
  have hcuts := parts_cuts (ms.flatten ++ (e ++ t))
  rw [List.length_append, List.length_append]
  obtain ⟨x, rfl⟩ := mem_endings_iff.1 he
  cases x with
  | none => exact Nat.add_le_add hprefix.length_le (Nat.zero_le _)
  | some x =>
    -- What is taken ends in front of the letter, for it does not have it.
    obtain ⟨more, hmore⟩ := hprefix
    have hletter : x.letter ∉ more := by
      have hnot := letter_notMem_source (s := ms.flatten ++ ([x.letter] ++ t)) x
      intro h
      refine hnot ?_
      show x.letter ∈ (parts _).1.flatMap _
      rw [show [x.letter] = ((some x).map Suffix.letter).toList from rfl, ← hmore]
      exact List.mem_append_right _ h
    rw [← hmore, List.append_assoc] at hcuts
    have hrest := List.append_cancel_left hcuts
    cases more with
    | cons d ds =>
      obtain ⟨rfl, -⟩ := List.cons.inj hrest
      exact absurd List.mem_cons_self hletter
    | nil =>
      have hsuffix : suffix (x.letter :: t) = (some x, t) := by cases x <;> rfl
      rw [List.nil_append] at hrest
      rw [← hmore, List.append_nil, hrest]
      show _ ≤ _ + (((suffix (x.letter :: t)).1.map Suffix.letter).toList).length
      rw [hsuffix]

/-- In front of a character that goes on with no numeral there are no pieces. -/
theorem pieces_eq_nil (hms : ∀ m ∈ ms, m ∈ pieces) (he : e ∈ endings)
    (hstart : isPartStart c = false) (hletter : Suffix.ofLetter? c = none) {t ds : List Char}
    (h : ms.flatten ++ (e ++ t) = c :: ds) : ms.flatten ++ e = [] := by
  cases hflatten : ms.flatten with
  | cons d xs =>
    rw [hflatten] at h
    obtain ⟨rfl, -⟩ := List.cons.inj h
    exact absurd (isPartStart_of_flatten hms hflatten) (by rw [hstart]; decide)
  | nil =>
    rw [hflatten] at h
    obtain ⟨x, rfl⟩ := mem_endings_iff.1 he
    cases x with
    | none => rfl
    | some x =>
      obtain ⟨rfl, -⟩ := List.cons.inj h
      cases x <;> exact nomatch hletter

/-- **Numerals are cut off as the longest match.** -/
theorem longestPrefix_source (hc : c.isDigit) (cs : List Char) :
    LongestPrefix extents (c :: cs) (Written.ofText (c :: cs)).1.source := by
  refine ⟨⟨_, Written.ofText_cuts _⟩, source_mem_extents hc cs, ?_⟩
  rintro y ⟨t, hy⟩ hmem
  obtain ⟨z, hz, e, he, rfl⟩ := Language.mem_mul.1 hmem
  obtain ⟨o, ho, m, hm, rfl⟩ := Language.mem_mul.1 hz
  obtain ⟨ms, rfl, hms⟩ := Language.mem_kstar.1 hm
  rw [List.append_assoc, List.append_assoc] at hy
  rw [List.append_assoc]
  rcases mem_openings_iff.1 ho with ⟨d, hd, rfl⟩ | ⟨d, b, hb, rfl⟩
  · rcases baseMark_eq (c :: cs) with hmark | ⟨b, d', ds, hb, hs⟩
    · -- The digit is a piece as well.
      have hpieces : ∀ m ∈ [d] :: ms, m ∈ pieces :=
        List.forall_mem_cons.2 ⟨mem_pieces_iff.2 (.inl ⟨d, .inl hd, rfl⟩), hms⟩
      have hle := length_le_of_pieces hpieces he t
      rw [List.flatten_cons, List.append_assoc, List.append_assoc, hy] at hle
      rw [Written.source, Written.ofText, hmark]
      exact hle
    · -- The letter of a base goes on with no digit.
      have hletter : isPartStart d' = false ∧ Suffix.ofLetter? d' = none := by
        rcases Base.eq_of_ofLetter? hb with rfl | rfl | rfl <;> exact ⟨rfl, rfl⟩
      obtain ⟨-, hrest⟩ := List.cons.inj (hy.trans hs)
      rw [pieces_eq_nil hms he hletter.1 hletter.2 hrest, hs, Written.source, Written.ofText,
        baseMark_of_ofLetter? hb]
      simp
  · have hmark : baseMark (c :: cs) = (b, ['0', d], ms.flatten ++ (e ++ t)) := by
      rw [← hy]
      exact baseMark_of_ofLetter? hb _
    have hle := length_le_of_pieces hms he t
    rw [Written.source, Written.ofText, hmark, List.append_assoc, List.length_append]
    refine (Nat.add_le_add_left hle _).trans_eq ?_
    rw [← List.length_append]

end Numeral

/-! ### What is reported -/

/-- The errors of numerals. -/
def LexicalError.ofNumeral : LexicalError → Bool
  | unexpectedCharacter _ | unterminatedString | unterminatedCharacter => false
  | _ => true

/-- A numeral, or the error of one. -/
def Token.OfNumeral (t : Token) : Prop :=
  t.kind ∈ TokenKind.numerals ∨
    t.kind = .bad ∧ ∃ e : LexicalError, e.ofNumeral ∧ t.text = e.message

namespace Numeral

theorem error_of_map_eq_error {ε α β : Type} {x : Except ε α} {f : α → β} {e : ε}
    (h : x.map f = .error e) : x = .error e := by
  cases x with
  | error d =>
    obtain rfl := Except.error.inj h
    rfl
  | ok a => exact nomatch h

theorem ofNumeral_of_spell {base : Base} {point exponent : Bool} {ahead : Nat} {ps : List Part}
    {f : Fault} (h : spell base point exponent ahead ps = .error f) : f.error.ofNumeral := by
  fun_induction spell base point exponent ahead ps with
  | case1 => cases h
  | case2 _ _ _ _ _ ih | case6 _ _ _ _ _ _ ih | case10 _ _ _ _ _ _ _ _ ih =>
    exact ih (error_of_map_eq_error h)
  | case3 _ _ _ _ ih => exact ih h
  | case4 | case5 | case7 | case8 | case9 =>
    obtain rfl := Except.error.inj h
    rfl

theorem ofNumeral_of_missing? {text : List Char} {e : LexicalError} (h : missing? text = some e) :
    e.ofNumeral := by
  unfold missing? at h
  split at h
  · obtain rfl := Option.some.inj h
    rfl
  · split_ifs at h
    all_goals
      obtain rfl := Option.some.inj h
      rfl

theorem ofNumeral_of_value {w : Written} {f : Fault} (h : w.value = .error f) :
    f.error.ofNumeral := by
  unfold Written.value at h
  cases hspell : spell w.base false false 0 w.parts with
  | error e =>
    rw [hspell] at h
    obtain rfl := Except.error.inj h
    exact ofNumeral_of_spell hspell
  | ok r =>
    rw [hspell] at h
    dsimp only [bind, Except.bind] at h
    split at h
    · obtain rfl := Except.error.inj h
      rfl
    · split at h
      · next e hmissing =>
        obtain rfl := Except.error.inj h
        exact ofNumeral_of_missing? hmissing
      · exact nomatch h

theorem ofNumeral_tokenAt (w : Written) (p : Span) : (w.lexeme.tokenAt p).OfNumeral := by
  unfold Written.lexeme
  split
  · next k text hvalue =>
    obtain ⟨fraction, rfl⟩ := kind_of_value hvalue
    exact .inl (kind_mem_numerals w fraction)
  · next f hvalue => exact .inr ⟨rfl, f.error, ofNumeral_of_value hvalue, rfl⟩

end Numeral

/-- **The extent of numerals.**  Where the next token begins with a digit, the lexer takes the
longest prefix that has the form of a numeral, and goes on right behind it.  The token is a
numeral or the error of one. -/
theorem Lexer.next_extent {g : List Char} (hg : Gap.Filler g) {c : Char} (hc : c.isDigit)
    (cs : List Char) (p : Span) :
    ∃ x rest, LongestPrefix Numeral.extents (c :: cs) x ∧ x ++ rest = c :: cs ∧
      (⟨p, g ++ c :: cs⟩ : Lexer).next.2 = ⟨p.after (g ++ x), rest⟩ ∧
      (⟨p, g ++ c :: cs⟩ : Lexer).next.1.OfNumeral := by
  refine ⟨_, _, Numeral.longestPrefix_source hc cs, Numeral.Written.ofText_cuts _, ?_⟩
  rw [next_passable hg.passable, next, Scan.next_of_isDigit hc, Span.after_append]
  constructor
  · rw [skip, Numeral.read, Numeral.Written.source_lexeme]
  · exact Numeral.ofNumeral_tokenAt _ _

/-- `0x1e+.5D` goes as far as its suffix, although an exponent is an error in base 16. -/
theorem Lexer.next_extent_malformed :
    Gap.Filler [' '] ∧ '0'.isDigit ∧
      LongestPrefix Numeral.extents "0x1e+.5D;".toList "0x1e+.5D".toList ∧
      (⟨.start, " 0x1e+.5D;".toList⟩ : Lexer).next.2 = ⟨⟨1, 10⟩, [';']⟩ := by
  have hfiller : Gap.Filler [' '] := .blank rfl .nil
  have hdigit : '0'.isDigit := rfl
  obtain ⟨x, rest, hx, hcut, hnext, -⟩ := next_extent hfiller hdigit "x1e+.5D;".toList .start
  have hrest : (⟨.start, " 0x1e+.5D;".toList⟩ : Lexer).next.2 = ⟨⟨1, 10⟩, [';']⟩ := by
    decide +kernel
  obtain rfl : rest = [';'] := congrArg Lexer.unread (hnext.symm.trans hrest)
  obtain rfl : x = "0x1e+.5D".toList := List.append_cancel_right hcut
  exact ⟨hfiller, hdigit, hx, hrest⟩

end ScriptSyntax
