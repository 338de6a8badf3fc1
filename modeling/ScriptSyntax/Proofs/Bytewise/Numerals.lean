/-
Numerals byte by byte.

A numeral can be read in one pass, with a mode that changes on the way and an early end at the
first fault.  It is the same numeral that is read in two steps, first the extent and then the
value.

* `ByteCursor.Reads p r` — a token and a cursor are what a reading of characters gives at `p`;
* `ByteCursor.readParts_before` — the parts are taken, and the state of the pass is the value that
  has been spelled so far, or the first fault has been reported;
* `ByteCursor.reads_readNumber` — the pass reads the numeral.

Design notes: in the middle of a pass the mode is the base until there is a point or an exponent.
The characters read so far and those to come make up the numeral, so the place of a fault can be
counted from the beginning at any time.
-/
import ScriptSyntax.Proofs.Bytewise.Cursor
import ScriptSyntax.Proofs.Lexical.Numerals
import ScriptSyntax.Proofs.Lexical.Order

namespace ScriptSyntax

namespace ByteCursor

open Utf8 Numeral

/-- A token and a cursor are what a reading gives at `p`: the token of its lexeme, and a cursor in
front of its rest. -/
def Reads (p : Span) (r : Reading) (result : Token × ByteCursor) : Prop :=
  result = (r.lexeme.tokenAt p, before (p.after r.lexeme.source) r.rest)

variable {x : ByteCursor} {p : Span} {c : Char} {cs s front text : List Char} {base : Base}
  {n : NumberState}

/-! ### Tests -/

theorem narrow_isSign : Narrow isSign := by
  intro c hc
  rw [isSign, Bool.or_eq_true, beq_iff_eq, beq_iff_eq] at hc
  rcases hc with rfl | rfl <;> decide

/-- What single bytes stand for is told by the next byte as by the next character. -/
theorem bind_peek {α : Type} {f : Char → Option α} (hf : ∀ {c a}, f c = some a → c.toNat < 0x80)
    (p : Span) (s : List Char) : (before p s).peek.bind f = s.head?.bind f := by
  refine Option.ext fun a => ?_
  rw [Option.bind_eq_some_iff, Option.bind_eq_some_iff]
  exact exists_congr fun c => and_congr_left fun hc => peek_eq_some_iff (hf hc)

theorem base_narrow {b : Base} (h : Base.ofLetter? c = some b) : c.toNat < 0x80 := by
  rcases Base.eq_of_ofLetter? h with rfl | rfl | rfl <;> decide

theorem suffix_narrow {x : Suffix} (h : Suffix.ofLetter? c = some x) : c.toNat < 0x80 := by
  obtain rfl := Suffix.letter_of_ofLetter? h
  cases x <;> decide

theorem narrow_isPartStart : Narrow isPartStart := by
  intro c hc
  simp only [isPartStart, Bool.or_eq_true, beq_iff_eq] at hc
  rcases hc with (((hc | rfl) | rfl) | rfl) | rfl
  · exact narrow_isDigit c hc
  all_goals decide

/-- Where no part begins. -/
theorem filter_isPartStart (hdigit : ¬ c.isDigit) (hunderscore : c ≠ '_') (hpoint : c ≠ '.')
    (hexponent : ¬ (c = 'e' ∨ c = 'E')) (p : Span) (s : List Char) :
    (before p (c :: s)).peek.filter isPartStart = none := by
  rw [not_or] at hexponent
  rw [filter_peek narrow_isPartStart, List.head?_cons, Option.filter_some, if_neg]
  simp [isPartStart, hdigit, hunderscore, hpoint, hexponent]

theorem not_isPartStart (h : x.peek.filter isPartStart = none) (hpeek : x.peek = some c) :
    ¬ c.isDigit ∧ c ≠ '_' ∧ c ≠ '.' ∧ ¬ (c = 'e' ∨ c = 'E') := by
  rw [hpeek, Option.filter_eq_none_iff] at h
  have hc := h c rfl
  simp only [isPartStart, Bool.or_eq_true, beq_iff_eq, not_or] at hc
  obtain ⟨⟨⟨⟨hdigit, hunderscore⟩, hpoint⟩, he⟩, hE⟩ := hc
  exact ⟨hdigit, hunderscore, hpoint, not_or.2 ⟨he, hE⟩⟩

/-! ### What is left of a malformed numeral -/

theorem passParts_of_some (h : x.peek = some c) :
    x.passParts =
      if c.isDigit ∨ c = '_' ∨ c = '.' then passParts x.advance
      else if c = 'e' ∨ c = 'E' then
        if x.advance.peek.any isSign then passParts x.advance.advance else passParts x.advance
      else x := by
  rw [passParts]
  split
  · next hc => exact absurd (h.symm.trans hc) (Option.some_ne_none c)
  · next hc =>
    obtain rfl := Option.some.inj (h.symm.trans hc)
    rfl

theorem passParts_of_filter (h : x.peek.filter isPartStart = none) : x.passParts = x := by
  cases hpeek : x.peek with
  | none =>
    rw [passParts]
    split
    · rfl
    · next d hc => exact absurd (hc.symm.trans hpeek) (Option.some_ne_none d)
  | some c =>
    obtain ⟨hdigit, hunderscore, hpoint, hexponent⟩ := not_isPartStart h hpeek
    rw [passParts_of_some hpeek, if_neg (by simp [hdigit, hunderscore, hpoint]), if_neg hexponent]

/-- At a part of one character. -/
theorem passParts_cons (hc : c.isDigit ∨ c = '_' ∨ c = '.') (p : Span) (s : List Char) :
    (before p (c :: s)).passParts = (before (p.step c) s).passParts := by
  have hnarrow : c.toNat < 0x80 := by
    rcases hc with hc | rfl | rfl
    · exact narrow_isDigit c hc
    · decide
    · decide
  rw [passParts_of_some (peek_narrow hnarrow p s), if_pos hc, advance_narrow hnarrow]

/-- At the letter of an exponent. -/
theorem passParts_exponent (hc : c = 'e' ∨ c = 'E') (p : Span) (s : List Char) :
    (before p (c :: s)).passParts =
      if s.head?.any isSign then (before (p.step c) s).advance.passParts
      else (before (p.step c) s).passParts := by
  have hnarrow : c.toNat < 0x80 := by
    rcases hc with rfl | rfl <;> decide
  have hno : ¬ (c.isDigit ∨ c = '_' ∨ c = '.') := by
    rcases hc with rfl | rfl <;> decide
  have hsign : (before (p.step c) s).peek.any isSign = s.head?.any isSign := by
    rw [← Option.isSome_filter, filter_peek narrow_isSign, Option.isSome_filter]
  rw [passParts_of_some (peek_narrow hnarrow p s), if_neg hno, if_pos hc, advance_narrow hnarrow,
    hsign]

/-- The cursor goes past the longest run of parts. -/
theorem passParts_before (p : Span) (s : List Char) :
    (before p s).passParts =
      before (p.after ((parts s).1.flatMap Part.source)) (parts s).2 := by
  fun_induction parts s generalizing p with
  | case1 => exact passParts_of_filter rfl
  | case2 c cs hc ih => rw [passParts_cons (.inl hc), ih]; rfl
  | case3 cs _ ih => rw [passParts_cons (.inr (.inl rfl)), ih]; rfl
  | case4 cs _ _ ih => rw [passParts_cons (.inr (.inr rfl)), ih]; rfl
  | case5 c _ _ _ hc =>
    rw [passParts_exponent hc]
    exact passParts_of_filter rfl
  | case6 c _ _ _ hc d ds hd ih =>
    rw [passParts_exponent hc, List.head?_cons, Option.any_some, if_pos hd,
      advance_narrow (narrow_isSign d hd), ih]
    rfl
  | case7 c _ _ _ hc d ds hd ih =>
    rw [passParts_exponent hc, List.head?_cons, Option.any_some, if_neg hd, ih]
    rfl
  | case8 c cs hdigit hunderscore hpoint hexponent =>
    exact passParts_of_filter (filter_isPartStart hdigit hunderscore hpoint hexponent p cs)

/-! ### Parts -/

theorem readParts_of_some (h : x.peek = some c) (p : Span) (n : NumberState) :
    readParts p n x =
      if c.isDigit then readParts p { n with text := n.text ++ [c] } x.advance
      else if c = '_' then readParts p n x.advance
      else if c = '.' then
        if n.mode.allowsFraction = false then .error (x.malformed .radixFraction p)
        else if n.point then .error (x.malformed .repeatedPoint x.position)
        else
          readParts p { n with mode := .fraction, point := true, text := n.text ++ ['.'] } x.advance
      else if c = 'e' ∨ c = 'E' then
        if n.mode.allowsFraction = false then .error (x.malformed .radixExponent p)
        else if n.exponent then .error (x.malformed .repeatedExponent x.position)
        else match x.advance.peek.filter isSign with
          | none => .error (x.advance.malformed .exponentMissingSign p)
          | some s =>
            readParts p { n with mode := .fraction, exponent := true, text := n.text ++ ['e', s] }
              x.advance.advance
      else .ok (n, x) := by
  rw [readParts]
  split
  · next hc => exact absurd (h.symm.trans hc) (Option.some_ne_none c)
  · next hc =>
    obtain rfl := Option.some.inj (h.symm.trans hc)
    rfl

theorem readParts_of_filter (h : x.peek.filter isPartStart = none) (p : Span) (n : NumberState) :
    readParts p n x = .ok (n, x) := by
  cases hpeek : x.peek with
  | none =>
    rw [readParts]
    split
    · rfl
    · next d hc => exact absurd (hc.symm.trans hpeek) (Option.some_ne_none d)
  | some c =>
    obtain ⟨hdigit, hunderscore, hpoint, hexponent⟩ := not_isPartStart h hpeek
    rw [readParts_of_some hpeek, if_neg hdigit, if_neg hunderscore, if_neg hpoint, if_neg hexponent]

/-- The mode of a numeral of some base before and after a point or an exponent. -/
def modeOf (base : Base) (fraction : Bool) : NumberMode :=
  if fraction then .fraction else .whole base

/-- The state of a pass agrees with itself: only a decimal numeral has a point or an exponent, and
the mode says whether it has one. -/
structure Fits (base : Base) (n : NumberState) : Prop where
  mode : n.mode = modeOf base (n.point || n.exponent)
  decimal : (n.point || n.exponent) = true → base = .decimal

theorem fits_start (base : Base) (text : List Char) :
    Fits base ⟨.whole base, false, false, text⟩ :=
  ⟨rfl, fun hfraction => absurd hfraction Bool.false_ne_true⟩

theorem Fits.allowsFraction (h : Fits base n) :
    n.mode.allowsFraction = false ↔ base ≠ .decimal := by
  rw [h.mode, modeOf]
  split
  · next hfraction =>
    rw [h.decimal hfraction]
    decide
  · cases base <;> decide

/-- What a pass over the parts gives, if some text has been spelled before and `all` is the numeral
that begins at `p`: the value that the parts spell, in front of what follows them, or their first
fault. -/
def Outcome (p : Span) (all : List Char) (base : Base) (text : List Char) (y : ByteCursor)
    (result : Except (Token × ByteCursor) (NumberState × ByteCursor)) :
    Except Fault (List Char × Bool) → Prop
  | .ok (more, fraction) =>
    ∃ n, result = .ok (n, y) ∧ n.mode = modeOf base fraction ∧ n.text = text ++ more
  | .error f => result = .error (bad f.error (p.after (all.take f.ahead)), y.passSuffix)

/-- A part goes on with the text. -/
theorem Outcome.map {all : List Char} {y : ByteCursor}
    {result : Except (Token × ByteCursor) (NumberState × ByteCursor)}
    {e : Except Fault (List Char × Bool)} (text more : List Char)
    (h : Outcome p all base (text ++ more) y result e) :
    Outcome p all base text y result (e.map fun r => (more ++ r.1, r.2)) := by
  rcases e with f | ⟨rest, fraction⟩
  · exact h
  · obtain ⟨n, hn, hmode, htext⟩ := h
    exact ⟨n, hn, hmode, by rw [htext, List.append_assoc]⟩

/-- Of a malformed numeral the cursor goes past all parts, wherever it stands among them. -/
theorem outcome_malformed {all : List Char} {e : LexicalError} {k : Nat} {q : Span} {y : ByteCursor}
    (hq : q = p.after (all.take k)) (hy : x.passParts = y) :
    Outcome p all base text y (.error (x.malformed e q)) (.error ⟨e, k⟩) := by
  rw [Outcome, malformed, hq, hy]

theorem step_after (p : Span) (front : List Char) (c : Char) :
    (p.after front).step c = p.after (front ++ [c]) :=
  (Span.after_append p front [c]).symm

theorem isExponent_narrow (hc : c = 'e' ∨ c = 'E') : c.toNat < 0x80 := by
  rcases hc with rfl | rfl <;> decide

/-- At the letter of an exponent. -/
theorem readParts_exponent (hc : c = 'e' ∨ c = 'E') (p q : Span) (n : NumberState)
    (s : List Char) :
    readParts p n (before q (c :: s)) =
      if n.mode.allowsFraction = false then .error ((before q (c :: s)).malformed .radixExponent p)
      else if n.exponent then .error ((before q (c :: s)).malformed .repeatedExponent q)
      else match s.head?.filter isSign with
        | none => .error ((before (q.step c) s).malformed .exponentMissingSign p)
        | some d =>
          readParts p { n with mode := .fraction, exponent := true, text := n.text ++ ['e', d] }
            (before (q.step c) s).advance := by
  have hnarrow := isExponent_narrow hc
  rw [readParts_of_some (peek_narrow hnarrow q s), if_neg, if_neg, if_neg, if_pos hc,
    advance_narrow hnarrow, filter_peek narrow_isSign]
  · rfl
  all_goals rcases hc with rfl | rfl <;> decide

/-- An exponent that should not be there, or that has no sign, is a fault. -/
theorem outcome_exponent (h : Fits base n) {k : Nat} (hk : base = .decimal → k = front.length)
    (hc : c = 'e' ∨ c = 'E') (p : Span) (s : List Char) {sign : Option Char} {ps : List Part}
    (hfault : base = .decimal → n.exponent = false → sign = none ∧ s.head?.filter isSign = none) :
    Outcome p (front ++ c :: s) base n.text (before (p.after front) (c :: s)).passParts
      (readParts p n (before (p.after front) (c :: s)))
      (spell base n.point n.exponent k (.exponent c sign :: ps)) := by
  rw [readParts_exponent hc, spell.eq_def]
  dsimp only
  by_cases hbase : base = .decimal
  · rw [if_neg (fun hmode => h.allowsFraction.1 hmode hbase), if_neg (not_not_intro hbase)]
    cases hexponent : n.exponent with
    | true =>
      refine outcome_malformed ?_ rfl
      rw [hk hbase, List.take_left]
    | false =>
      obtain ⟨rfl, hsign⟩ := hfault hbase hexponent
      rw [hsign]
      refine outcome_malformed rfl ?_
      have hany : ¬ s.head?.any isSign := by
        rw [← Option.isSome_filter, hsign]
        decide
      rw [passParts_exponent hc, if_neg hany]
  · rw [if_pos (h.allowsFraction.2 hbase), if_pos hbase]
    exact outcome_malformed rfl rfl

/-- The place of a fault, one character on. -/
theorem place_append {k : Nat} (hk : base = .decimal → k = front.length) (c : Char)
    (hbase : base = .decimal) : k + 1 = (front ++ [c]).length := by
  rw [hk hbase, List.length_append]
  rfl

/-- From any place in a numeral, of which `front` has been read. -/
theorem readParts_before (front : List Char) (h : Fits base n) {k : Nat}
    (hk : base = .decimal → k = front.length) (p : Span) (s : List Char) :
    Outcome p (front ++ s) base n.text (before (p.after front) s).passParts
      (readParts p n (before (p.after front) s)) (spell base n.point n.exponent k (parts s).1) := by
  -- The induction follows the parts, and `front` grows by the characters of each.
  fun_induction parts s generalizing n front k with
  | case1 =>
    rw [readParts_of_filter rfl, passParts_of_filter rfl]
    exact ⟨n, rfl, h.mode, (List.append_nil _).symm⟩
  | case2 c cs hc ih =>
    have hnarrow := narrow_isDigit c hc
    have hrest := ih (n := { n with text := n.text ++ [c] }) (front ++ [c]) ⟨h.mode, h.decimal⟩
      (place_append hk c)
    rw [List.append_cons, readParts_of_some (peek_narrow hnarrow _ _), if_pos hc,
      advance_narrow hnarrow, passParts_cons (.inl hc), step_after, spell]
    exact hrest.map n.text [c]
  | case3 cs _ ih =>
    have hrest := ih (front ++ ['_']) h (place_append hk '_')
    rw [List.append_cons, readParts_of_some (peek_narrow (by decide) _ _), if_neg (by decide),
      if_pos rfl, advance_narrow (by decide), passParts_cons (.inr (.inl rfl)), step_after, spell]
    exact hrest
  | case4 cs _ _ ih =>
    rw [readParts_of_some (peek_narrow (by decide) _ _), if_neg (by decide), if_neg (by decide),
      if_pos rfl, spell]
    by_cases hbase : base = .decimal
    · rw [if_neg (fun hmode => h.allowsFraction.1 hmode hbase), if_neg (not_not_intro hbase)]
      cases hpoint : n.point with
      | true =>
        refine outcome_malformed ?_ rfl
        rw [hk hbase, List.take_left]
        rfl
      | false =>
        have hrest := ih
          (n := { n with mode := .fraction, point := true, text := n.text ++ ['.'] })
          (front ++ ['.']) ⟨rfl, fun _ => hbase⟩ (place_append hk '.')
        rw [List.append_cons, advance_narrow (by decide), passParts_cons (.inr (.inr rfl)),
          step_after]
        exact hrest.map n.text ['.']
    · rw [if_pos (h.allowsFraction.2 hbase), if_pos hbase]
      exact outcome_malformed rfl rfl
  | case5 c _ _ _ hc => exact outcome_exponent h hk hc p [] fun _ _ => ⟨rfl, rfl⟩
  | case6 c _ _ _ hc d ds hd ih =>
    -- With a sign the letter is a fault only in a radix numeral or behind another exponent.
    by_cases hfault : base = .decimal ∧ n.exponent = false
    · obtain ⟨hbase, hexponent⟩ := hfault
      have hrest := ih
        (n := { n with mode := .fraction, exponent := true, text := n.text ++ ['e', d] })
        (front ++ [c] ++ [d]) ⟨by rw [Bool.or_true]; rfl, fun _ => hbase⟩
        (place_append (place_append hk c) d)
      rw [readParts_exponent hc, if_neg (fun hmode => h.allowsFraction.1 hmode hbase), hexponent,
        if_neg (by decide), List.head?_cons, Option.filter_some, if_pos hd, passParts_exponent hc,
        List.head?_cons, Option.any_some, if_pos hd, advance_narrow (narrow_isSign d hd),
        List.append_cons, List.append_cons, step_after, step_after, spell.eq_def]
      dsimp only
      rw [if_neg (not_not_intro hbase), if_neg (by decide)]
      exact hrest.map n.text ['e', d]
    · refine outcome_exponent h hk hc p (d :: ds) fun hbase hexponent => ?_
      exact absurd ⟨hbase, hexponent⟩ hfault
  | case7 c _ _ _ hc d ds hd ih =>
    refine outcome_exponent h hk hc p (d :: ds) fun _ _ => ⟨rfl, ?_⟩
    rw [List.head?_cons, Option.filter_some, if_neg hd]
  | case8 c cs hdigit hunderscore hpoint hexponent =>
    have hstop := filter_isPartStart hdigit hunderscore hpoint hexponent (p.after front) cs
    rw [readParts_of_filter hstop, passParts_of_filter hstop]
    exact ⟨n, rfl, h.mode, (List.append_nil _).symm⟩

/-! ### The beginning and the end -/

theorem base_ne_decimal {b : Base} (h : Base.ofLetter? c = some b) : b ≠ .decimal := by
  rcases Base.eq_of_ofLetter? h with rfl | rfl | rfl
  all_goals
    obtain rfl := Option.some.inj h
    decide

/-- From the first digit on. -/
theorem readParts_readOpening (hc : c.isDigit) (p : Span) (s : List Char) :
    Outcome p (c :: s) (baseMark (c :: s)).1 []
      (before (p.after (baseMark (c :: s)).2.1) (baseMark (c :: s)).2.2).passParts
      (readParts p (before p (c :: s)).readOpening.1 (before p (c :: s)).readOpening.2)
      (spell (baseMark (c :: s)).1 false false 0 (parts (baseMark (c :: s)).2.2).1) := by
  have hnarrow := narrow_isDigit c hc
  rw [readOpening, peek_narrow hnarrow, Option.getD_some, advance_narrow hnarrow,
    bind_peek base_narrow]
  cases hmark : (if c = '0' then s.head?.bind Base.ofLetter? else none) with
  | some b =>
    obtain ⟨rfl, hb⟩ := (Option.ite_none_right_eq_some ..).1 hmark
    obtain ⟨d, hd, hletter⟩ := Option.bind_eq_some_iff.1 hb
    obtain ⟨s, rfl⟩ := List.head?_eq_some_iff.1 hd
    have hbase := base_ne_decimal hletter
    rw [baseMark_of_ofLetter? hletter, advance_narrow (base_narrow hletter)]
    exact readParts_before ['0', d] (fits_start b []) (k := 0) (fun h => absurd h hbase) p s
  | none =>
    have hnone : baseMark (c :: s) = (.decimal, [], c :: s) := by
      rcases baseMark_eq (c :: s) with h | ⟨b, d, ds, hletter, h⟩
      · exact h
      · obtain ⟨rfl, rfl⟩ := List.cons.inj h
        rw [if_pos rfl, List.head?_cons, Option.bind_some, hletter] at hmark
        exact absurd hmark (Option.some_ne_none b)
    rw [hnone, parts_digit hc, spell, Span.after_nil, passParts_cons (.inl hc)]
    have hparts := readParts_before [c] (fits_start .decimal [c]) (k := 1) (fun _ => rfl) p s
    exact hparts.map [] [c]

theorem suffix_eq (s : List Char) : (suffix s).1 = s.head?.bind Suffix.ofLetter? := by
  cases s with
  | nil => rfl
  | cons c s =>
    rw [suffix, List.head?_cons, Option.bind_some]
    cases Suffix.ofLetter? c <;> rfl

theorem bind_peek_suffix (p : Span) (s : List Char) :
    (before p s).peek.bind Suffix.ofLetter? = (suffix s).1 := by
  rw [bind_peek suffix_narrow, suffix_eq]

theorem passSuffix_before (p : Span) (s : List Char) :
    (before p s).passSuffix =
      before (p.after ((suffix s).1.map Suffix.letter).toList) (suffix s).2 := by
  have hcuts := suffix_cuts s
  rw [passSuffix, bind_peek_suffix]
  cases h : (suffix s).1 with
  | none =>
    rw [h] at hcuts
    rw [if_neg (by decide)]
    exact congrArg (before p) hcuts.symm
  | some x =>
    rw [h] at hcuts
    rw [if_pos Option.isSome_some]
    have hadvance := advance_narrow (c := x.letter) (by cases x <;> decide) p (suffix s).2
    rwa [show x.letter :: (suffix s).2 = s from hcuts] at hadvance

theorem value_of_spell {w : Written} {f : Fault}
    (h : spell w.base false false 0 w.parts = .error f) : w.value = .error f := by
  rw [Written.value, h]
  rfl

theorem tokenAt_of_value {w : Written} {k : TokenKind} (h : w.value = .ok (k, text)) (p : Span) :
    w.lexeme.tokenAt p = ⟨k, String.ofList text, p⟩ := by
  rw [Written.lexeme, h]
  rfl

theorem tokenAt_of_fault {w : Written} {f : Fault} (h : w.value = .error f) (p : Span) :
    w.lexeme.tokenAt p = bad f.error (p.after (w.source.take f.ahead)) := by
  rw [Written.lexeme, h]
  rfl

theorem numberToken_eq {w : Written} {fraction : Bool}
    (hspell : spell w.base false false 0 w.parts = .ok (n.text, fraction))
    (hlong : ¬ (w.suffix = some .long ∧ fraction)) (hkind : n.mode.kind = w.kind fraction)
    (p : Span) : numberToken p n = w.lexeme.tokenAt p := by
  rw [numberToken, hkind]
  cases hmissing : missing? n.text with
  | none =>
    exact (tokenAt_of_value (value_eq_ok_iff.2 ⟨fraction, hspell, hlong, hmissing, rfl⟩) p).symm
  | some e =>
    have hvalue : w.value = .error ⟨e, 0⟩ := by
      rw [Written.value, hspell]
      show (if _ then _ else _) = _
      rw [if_neg hlong, hmissing]
    exact (tokenAt_of_fault hvalue p).symm

/-- At the end of a numeral whose parts have no fault. -/
theorem finishNumber_eq {w : Written} {fraction : Bool}
    (hspell : spell w.base false false 0 w.parts = .ok (n.text, fraction))
    (hmode : n.mode = modeOf w.base fraction) (hsuffix : x.peek.bind Suffix.ofLetter? = w.suffix)
    (p : Span) : finishNumber p n x = (w.lexeme.tokenAt p, x.passSuffix) := by
  rw [finishNumber, passSuffix, hsuffix]
  cases hw : w.suffix with
  | none =>
    have hkind : n.mode.kind = w.kind fraction := by
      rw [hmode, Written.kind, hw]
      cases fraction <;> rfl
    rw [numberToken_eq hspell (by rw [hw]; exact nofun) hkind]
    rfl
  | some suffix =>
    rw [if_pos Option.isSome_some]
    cases suffix with
    | long =>
      cases fraction with
      | true =>
        have hvalue : w.value = .error ⟨.longFraction, 0⟩ := by
          rw [Written.value, hspell, hw]
          rfl
        dsimp only
        rw [if_pos (by rw [hmode]; rfl), tokenAt_of_fault hvalue]
        rfl
      | false =>
        have hkind : NumberMode.longInteger.kind = w.kind false := by
          rw [Written.kind, hw]
          rfl
        dsimp only
        rw [if_neg (by rw [hmode]; exact nofun),
          numberToken_eq (n := { n with mode := .longInteger }) hspell (fun h => nomatch h.2) hkind]
    | double =>
      have hkind : NumberMode.longDecimal.kind = w.kind fraction := by
        rw [Written.kind, hw]
        rfl
      dsimp only
      rw [numberToken_eq (n := { n with mode := .longDecimal }) hspell
        (by rw [hw]; exact fun h => nomatch h.1) hkind]

/-- **A numeral is read in one pass over its bytes.** -/
theorem reads_readNumber (hc : c.isDigit) (p : Span) (s : List Char) :
    Reads p (Numeral.read (c :: s)) (before p (c :: s)).readNumber := by
  have houtcome := readParts_readOpening hc p s
  have hcuts := Written.ofText_cuts (c :: s)
  have hpeek : (before (p.after (baseMark (c :: s)).2.1)
      (baseMark (c :: s)).2.2).passParts.peek.bind Suffix.ofLetter? =
      (Written.ofText (c :: s)).1.suffix := by
    rw [passParts_before, bind_peek_suffix]
    rfl
  have hend : (before (p.after (baseMark (c :: s)).2.1)
      (baseMark (c :: s)).2.2).passParts.passSuffix =
      before (p.after (Written.ofText (c :: s)).1.source) (Written.ofText (c :: s)).2 := by
    rw [passParts_before, passSuffix_before, Written.source, Span.after_append, Span.after_append]
    rfl
  rw [Reads, Numeral.read, Written.source_lexeme, ← hend, readNumber, position_before]
  cases hspell : spell (baseMark (c :: s)).1 false false 0 (parts (baseMark (c :: s)).2.2).1 with
  | error f =>
    have hvalue : (Written.ofText (c :: s)).1.value = .error f := value_of_spell hspell
    have htake : (c :: s).take f.ahead = (Written.ofText (c :: s)).1.source.take f.ahead := by
      have hlt := ahead_lt_of_value hvalue
      conv_lhs => rw [← hcuts, List.take_append_of_le_length (by omega)]
    rw [hspell] at houtcome
    rw [houtcome, tokenAt_of_fault hvalue, htake]
  | ok r =>
    obtain ⟨text, fraction⟩ := r
    rw [hspell] at houtcome
    obtain ⟨n, hn, hmode, htext⟩ := houtcome
    rw [hn]
    refine finishNumber_eq ?_ hmode hpeek p
    rw [htext]
    exact hspell

end ByteCursor

end ScriptSyntax
