/-
The texts of numerals.

What a numeral carries as its text is some digits, and then groups of digits, each behind a
point or behind an exponent and its sign.  Only of the last group it is asked that it has
digits, and a point may come behind an exponent.

* `Numeral.Group` is such a group, and `Numeral.Groups` are those that may come together;
* `Numeral.composed_of_value` and `Numeral.value_written` — texts are composed so, and
  everything composed so is a text;
* `TokenKind.isText_iff` — for every kind of numeral, what the texts of tokens are;
* `Numeral.wellFormed_iff_of_mem_tokenize` — the digits that the groups of a token lack
  can be seen in its text.

Design notes: spelling goes over the parts once and only looks at what has been met, so the
groups are an induction over the same.  What is lacking at the end is found later, and so
`lastRun` is spoken of apart from the groups.
-/
import ScriptSyntax.Proofs.Lexical.LiteralTexts
import ScriptSyntax.Proofs.Lexical.Spelling

namespace ScriptSyntax

namespace Numeral

/-! ### Groups of digits -/

/-- Digits behind a point, or behind an exponent and its sign.  There may be none. -/
inductive Group where
  | fraction (ds : List Char)
  | exponent (sign : Char) (ds : List Char)

namespace Group

/-- What stands before the digits. -/
def opening : Group → List Char
  | fraction _ => ['.']
  | exponent sign _ => ['e', sign]

def digits : Group → List Char
  | fraction ds | exponent _ ds => ds

/-- The characters of a group. -/
def chars (g : Group) : List Char :=
  g.opening ++ g.digits

/-- The parts that a group is written with. -/
def parts : Group → List Part
  | fraction ds => .point :: ds.map .digit
  | exponent sign ds => .exponent 'e' (some sign) :: ds.map .digit

end Group

/-- Groups that may come together, behind a point if `point` and behind an exponent if
`exponent`: there is one of each at most. -/
inductive Groups : Bool → Bool → List Group → Prop where
  | nil {point exponent : Bool} : Groups point exponent []
  | fraction {exponent : Bool} {ds : List Char} {gs : List Group}
      (hds : ∀ c ∈ ds, c.isDigit) (hrest : Groups true exponent gs) :
      Groups false exponent (.fraction ds :: gs)
  | exponent {point : Bool} {sign : Char} {ds : List Char} {gs : List Group}
      (hsign : isSign sign) (hds : ∀ c ∈ ds, c.isDigit) (hrest : Groups point true gs) :
      Groups point false (.exponent sign ds :: gs)

/-- The last digits of a text that begins with some digits and goes on with groups. -/
def lastRun (ds : List Char) : List Group → List Char
  | [] => ds
  | g :: gs => lastRun g.digits gs

/-- A text of digits and groups, the last of which has digits. -/
def Composed (x : List Char) : Prop :=
  ∃ (ds : Digits) (gs : List Group), Groups false false gs ∧ lastRun ds.chars gs ≠ [] ∧
    x = ds.chars ++ gs.flatMap Group.chars

variable {base : Base} {point exponent fraction : Bool} {ahead : Nat} {ps : List Part}
  {ds text x : List Char} {gs : List Group} {k : TokenKind} {c : Char} {cs : List Char}

/-- Parts spell digits and groups, and in other bases than ten only digits. -/
theorem exists_groups_of_spell (hps : ∀ p ∈ ps, p.Fits)
    (h : spell base point exponent ahead ps = .ok (text, fraction)) :
    ∃ ds gs, (∀ c ∈ ds, c.isDigit) ∧ Groups point exponent gs ∧ (base ≠ .decimal → gs = []) ∧
      text = ds ++ gs.flatMap Group.chars := by
  fun_induction spell base point exponent ahead ps generalizing text fraction with
  | case1 =>
    obtain ⟨rfl, -⟩ := Prod.mk.inj (Except.ok.inj h)
    exact ⟨[], [], List.forall_mem_nil _, .nil, fun _ => rfl, rfl⟩
  | case2 _ _ _ c ps ih =>
    obtain ⟨hc, hps⟩ := List.forall_mem_cons.1 hps
    obtain ⟨⟨rest, f⟩, hspell, hr⟩ := exists_of_map_eq_ok h
    obtain ⟨rfl, -⟩ := Prod.mk.inj hr
    obtain ⟨ds, gs, hds, hgs, hplain, rfl⟩ := ih hps hspell
    exact ⟨c :: ds, gs, List.forall_mem_cons.2 ⟨hc, hds⟩, hgs, hplain, rfl⟩
  | case3 _ _ _ ps ih => exact ih (List.forall_mem_cons.1 hps).2 h
  | case4 | case5 | case7 | case8 | case9 => cases h
  | case6 _ _ _ ps hbase hpoint ih =>
    -- The digits that follow the point are those of the group.
    obtain ⟨⟨rest, f⟩, hspell, hr⟩ := exists_of_map_eq_ok h
    obtain ⟨rfl, -⟩ := Prod.mk.inj hr
    obtain ⟨ds, gs, hds, hgs, -, rfl⟩ := ih (List.forall_mem_cons.1 hps).2 hspell
    obtain rfl := Bool.eq_false_iff.2 hpoint
    exact ⟨[], .fraction ds :: gs, List.forall_mem_nil _, .fraction hds hgs,
      fun h => absurd h hbase, rfl⟩
  | case10 _ _ _ _ ps hbase hexponent sign ih =>
    obtain ⟨hsign, hps⟩ := List.forall_mem_cons.1 hps
    obtain ⟨⟨rest, f⟩, hspell, hr⟩ := exists_of_map_eq_ok h
    obtain ⟨rfl, -⟩ := Prod.mk.inj hr
    obtain ⟨ds, gs, hds, hgs, -, rfl⟩ := ih hps hspell
    obtain rfl := Bool.eq_false_iff.2 hexponent
    exact ⟨[], .exponent sign ds :: gs, List.forall_mem_nil _, .exponent hsign hds hgs,
      fun h => absurd h hbase, rfl⟩

/-- Behind a point or a sign something is lacking. -/
theorem missing?_concat (h : isSign c ∨ c = '.') (front : List Char) :
    missing? (front ++ [c]) ≠ none := by
  rw [missing?, List.getLast?_concat]
  rcases h with h | rfl
  · show (if isSign c then _ else _) ≠ none
    rw [if_pos h]
    exact Option.some_ne_none _
  · exact Option.some_ne_none _

/-- Behind digits and groups nothing is lacking if the last digits are there. -/
theorem missing?_eq_none_iff (front : List Char) (hfront : missing? front ≠ none)
    (hds : ∀ c ∈ ds, c.isDigit) (hgs : Groups point exponent gs) :
    missing? (front ++ (ds ++ gs.flatMap Group.chars)) = none ↔ lastRun ds gs ≠ [] := by
  induction hgs generalizing front ds with
  | nil =>
    rw [List.flatMap_nil, List.append_nil, lastRun]
    by_cases hnil : ds = []
    · rw [hnil, List.append_nil]
      exact iff_of_false hfront fun h => h rfl
    · exact iff_of_true (missing?_append_digits front ⟨ds, hnil, hds⟩) hnil
  | fraction hfs _ ih =>
    have hnext := ih _ (missing?_concat (.inr rfl) (front ++ ds)) hfs
    simpa [Group.chars, Group.opening, Group.digits, lastRun] using hnext
  | exponent hsign hes _ ih =>
    have hnext := ih _ (missing?_concat (.inl hsign) (front ++ ds ++ ['e'])) hes
    simpa [Group.chars, Group.opening, Group.digits, lastRun] using hnext

/-- The text of a numeral that begins with a digit is composed of digits and groups. -/
theorem composed_of_value (hc : c.isDigit)
    (h : (Written.ofText (c :: cs)).1.value = .ok (k, text)) : Composed text := by
  obtain ⟨fraction, hspell, -, hmissing, -⟩ := value_eq_ok_iff.1 h
  have hps : ∀ p ∈ (Written.ofText (c :: cs)).1.parts, p.Fits := fits_of_mem_parts
  rcases baseMark_eq (c :: cs) with hmark | ⟨b, d, ds, hb, hs⟩
  · -- The first part is the first digit.
    have hbase : (Written.ofText (c :: cs)).1.base = .decimal := congrArg Prod.fst hmark
    have hparts : (Written.ofText (c :: cs)).1.parts = .digit c :: (Numeral.parts cs).1 := by
      show (Numeral.parts (baseMark (c :: cs)).2.2).1 = _
      rw [hmark, parts_digit hc]
    rw [hparts] at hspell hps
    obtain ⟨⟨rest, f⟩, hrest, hr⟩ := exists_of_map_eq_ok hspell
    obtain ⟨rfl, -⟩ := Prod.mk.inj hr
    obtain ⟨ds, gs, hds, hgs, -, rfl⟩ :=
      exists_groups_of_spell (List.forall_mem_cons.1 hps).2 hrest
    have hds : ∀ d ∈ c :: ds, d.isDigit := List.forall_mem_cons.2 ⟨hc, hds⟩
    have hlast := (missing?_eq_none_iff [] nofun hds hgs).1 hmissing
    exact ⟨⟨c :: ds, List.cons_ne_nil c ds, hds⟩, gs, hgs, hlast, rfl⟩
  · -- In another base there are digits only, and so there are some.
    have hbase : (Written.ofText (c :: cs)).1.base ≠ .decimal := by
      show (baseMark (c :: cs)).1 ≠ _
      rw [hs, baseMark_of_ofLetter? hb]
      rintro rfl
      unfold Base.ofLetter? at hb
      split at hb <;> exact nomatch hb
    obtain ⟨ds, gs, hds, hgs, hplain, rfl⟩ := exists_groups_of_spell hps hspell
    obtain rfl := hplain hbase
    have hlast := (missing?_eq_none_iff [] nofun hds hgs).1 hmissing
    exact ⟨⟨ds, hlast, hds⟩, [], hgs, hlast, rfl⟩

/-! ### Texts are written as they are -/

theorem parts_groups (h : Groups point exponent gs) (s : List Char) :
    parts (gs.flatMap Group.chars ++ s) =
      (gs.flatMap Group.parts ++ (parts s).1, (parts s).2) := by
  induction h with
  | nil => rfl
  | @fraction _ ds gs hds _ ih =>
    show parts ('.' :: (ds ++ gs.flatMap Group.chars) ++ s) = _
    rw [List.cons_append, List.append_assoc, parts_point, parts_digits hds, ih]
    simp [Group.parts]
  | @exponent _ sign ds gs hsign hds _ ih =>
    show parts ('e' :: sign :: (ds ++ gs.flatMap Group.chars) ++ s) = _
    rw [List.cons_append, List.cons_append, List.append_assoc, parts_exponent (.inl rfl) hsign,
      parts_digits hds, ih]
    simp [Group.parts]

/-- Groups are spelled as they are, and make a fraction. -/
theorem spell_groups (h : Groups point exponent gs) (ahead : Nat) :
    spell .decimal point exponent ahead (gs.flatMap Group.parts) =
      .ok (gs.flatMap Group.chars, point || exponent || !gs.isEmpty) := by
  induction h generalizing ahead with
  | nil =>
    show Except.ok ([], _) = _
    rw [List.isEmpty_nil, Bool.not_true, Bool.or_false]
    rfl
  | fraction _ _ ih =>
    rw [List.flatMap_cons, Group.parts, List.cons_append, spell, if_neg (by decide),
      if_neg (by decide), spell_digits, ih]
    simp [Except.map, Group.chars, Group.opening, Group.digits]
  | exponent _ _ _ ih =>
    rw [List.flatMap_cons, Group.parts, List.cons_append, spell, if_neg (by decide),
      if_neg (by decide), spell_digits, ih]
    simp [Except.map, Group.chars, Group.opening, Group.digits]

/-- Digits and groups are cut off as they are written, and so is the suffix behind them. -/
theorem ofText_composed (ds : Digits) (hgs : Groups false false gs) (wide : Bool) :
    Written.ofText (ds.chars ++ gs.flatMap Group.chars ++
        ((Plain.fractionSuffix wide).map Suffix.letter).toList) =
      (⟨.decimal, [], ds.chars.map .digit ++ gs.flatMap Group.parts, Plain.fractionSuffix wide⟩,
        []) := by
  have hhead : (gs.flatMap Group.chars ++
      ((Plain.fractionSuffix wide).map Suffix.letter).toList).head?.all
        (Base.ofLetter? · = none) := by
    cases hgs with
    | nil => cases wide <;> rfl
    | fraction | exponent => rfl
  have hparts := parts_digits ds.isDigit (gs.flatMap Group.chars ++
    ((Plain.fractionSuffix wide).map Suffix.letter).toList)
  rw [parts_groups hgs, Plain.parts_suffix, List.append_nil] at hparts
  rw [List.append_assoc]
  exact ofText_eq (Plain.baseMark_digits ds hhead) hparts (Plain.suffix_letter _)

/-- Digits and groups are the text of the numeral that they are written as, and of the one
with the suffix of a larger type. -/
theorem value_written {ds : Digits} (hgs : Groups false false gs)
    (hlast : lastRun ds.chars gs ≠ []) (wide : Bool) :
    (Written.ofText (ds.chars ++ gs.flatMap Group.chars ++
        ((Plain.fractionSuffix wide).map Suffix.letter).toList)).1.value =
      .ok (if wide then .longDecimal else if gs.isEmpty then .integer else .decimal,
        ds.chars ++ gs.flatMap Group.chars) := by
  rw [ofText_composed ds hgs]
  have hspell : spell .decimal false false 0 (ds.chars.map .digit ++ gs.flatMap Group.parts) =
      .ok (ds.chars ++ gs.flatMap Group.chars, !gs.isEmpty) := by
    rw [spell_digits, spell_groups hgs]
    rfl
  have hmissing := (missing?_eq_none_iff [] nofun ds.isDigit hgs).2 hlast
  refine value_eq_ok_iff.2 ⟨_, hspell, ?_, hmissing, ?_⟩
  · cases wide <;> exact nofun
  · cases wide with
    | true => rfl
    | false => cases gs <;> rfl

/-- Of these texts digits alone are those without groups. -/
theorem all_isDigit_composed (ds : Digits) (gs : List Group) :
    (ds.chars ++ gs.flatMap Group.chars).all Char.isDigit = gs.isEmpty := by
  rw [List.all_append, List.all_eq_true.2 ds.isDigit, Bool.true_and]
  rcases gs with _ | ⟨_ | _, gs⟩ <;> rfl

/-- Everything composed of digits and groups is the text of a numeral. -/
theorem Composed.exists_value (h : Composed x) (wide : Bool) :
    ∃ c cs, c.isDigit ∧ (Written.ofText (c :: cs)).1.value =
      .ok (if wide then .longDecimal else if x.all Char.isDigit then .integer else .decimal,
        x) := by
  obtain ⟨ds, gs, hgs, hlast, rfl⟩ := h
  obtain ⟨c, cs, hds, hc⟩ := ds.exists_eq_cons
  have hvalue := value_written hgs hlast wide
  rw [← all_isDigit_composed ds gs] at hvalue
  rw [hds] at hvalue ⊢
  exact ⟨c, _, hc, hvalue⟩

/-- A numeral that is not bad is read with its value. -/
theorem value_of_lexeme {w : Written} (h : w.lexeme.kind ∈ TokenKind.numerals) :
    w.value = .ok (w.lexeme.kind, w.lexeme.text.toList) := by
  unfold Written.lexeme at h ⊢
  split at h
  · next k text hvalue =>
    rw [hvalue]
    show _ = Except.ok (k, (String.ofList text).toList)
    rw [String.toList_ofList]
  · exact absurd h (by decide : TokenKind.bad ∉ TokenKind.numerals)

end Numeral

/-! ### Texts of tokens -/

/-- A numeral is read behind its first digit. -/
theorem Scan.exists_value_of_next {s : List Char}
    (h : (next s).lexeme.kind ∈ TokenKind.numerals) :
    ∃ c cs, c.isDigit ∧ (Numeral.Written.ofText (c :: cs)).1.value =
      .ok ((next s).lexeme.kind, (next s).lexeme.text.toList) := by
  unfold next at h ⊢
  split at h
  · exact absurd h (by decide : TokenKind.endOfInput ∉ TokenKind.numerals)
  · next gap c cs _ =>
    rcases readAt_cases c cs with hordinary | ⟨hc, hread⟩
    · exact absurd h hordinary.2
    · rw [hread] at h ⊢
      exact ⟨c, cs, hc, Numeral.value_of_lexeme h⟩

theorem Scan.next_of_isDigit {c : Char} (h : c.isDigit) (cs : List Char) :
    next (c :: cs) = Numeral.read (c :: cs) := by
  obtain ⟨hblank, hbreak, hcomment⟩ := Spelled.begins_of_class h (by decide) cs
  rw [next_eq_reader hblank hbreak hcomment, Spelled.reader_of_isDigit h]

/-- Some text has a token with this kind and text. -/
def TokenKind.IsText (k : TokenKind) (x : List Char) : Prop :=
  ∃ text, ∃ t ∈ tokenize text, t.kind = k ∧ t.text.toList = x

/-- The texts of numerals are those that are read behind a first digit. -/
theorem TokenKind.isText_iff_value {k : TokenKind} (hk : k ∈ numerals) {x : List Char} :
    k.IsText x ↔
      ∃ c cs, c.isDigit ∧ (Numeral.Written.ofText (c :: cs)).1.value = .ok (k, x) := by
  constructor
  · rintro ⟨text, t, ht, rfl, rfl⟩
    obtain ⟨l, rfl⟩ := Lexer.exists_next_of_mem_drain ht
    exact Scan.exists_value_of_next hk
  · rintro ⟨c, cs, hc, hvalue⟩
    let l : Lexer := ⟨.start, c :: cs⟩
    have hlexeme : (Scan.next l.unread).lexeme =
        .whole k x (Numeral.Written.ofText (c :: cs)).1.source := by
      rw [Scan.next_of_isDigit hc, Numeral.read, Numeral.Written.lexeme, hvalue]
    have hkind : l.next.1.kind = k := congrArg Lexeme.kind hlexeme
    have htext : l.next.1.text.toList = x := by
      show (Scan.next l.unread).lexeme.text.toList = x
      rw [hlexeme]
      exact String.toList_ofList
    refine ⟨String.ofList (c :: cs), l.next.1, ?_, hkind, htext⟩
    have hne : l.next.1.kind ≠ .endOfInput := by
      rintro hend
      rw [hkind.symm.trans hend] at hk
      exact absurd hk (by decide)
    rw [tokenize, Lexer.ofText, String.toList_ofList, Lexer.drain_of_kind_ne hne]
    exact List.mem_cons_self

/-- Numerals without a point and an exponent are read with their digits. -/
theorem Numeral.Plain.exists_value (n : Plain) :
    ∃ c cs, c.isDigit ∧ (Written.ofText (c :: cs)).1.value = .ok (n.kind, n.text) := by
  obtain ⟨c, cs, hwritten, hc⟩ := Spelled.exists_written_eq_cons n
  have hread := n.ofText_written
  rw [hwritten] at hread
  exact ⟨c, cs, hc, by rw [hread]; exact n.value_numeral⟩

namespace TokenKind

variable {k : TokenKind} {x : List Char}

/-- The texts of numerals of a kind. -/
def Admits (x : List Char) : TokenKind → Prop
  | integer | longInteger | hexadecimal | octal | binary => x ≠ [] ∧ x.all Char.isDigit
  | decimal => Numeral.Composed x ∧ x.all Char.isDigit = false
  | longDecimal => Numeral.Composed x
  | _ => False

theorem admits_of_value {c : Char} {cs : List Char} (hk : k ∈ numerals) (hc : c.isDigit)
    (h : (Numeral.Written.ofText (c :: cs)).1.value = .ok (k, x)) : k.Admits x := by
  have hlegible := Numeral.legible_of_value (p := .start) Numeral.fits_of_mem_parts h
  cases k with
  | integer | longInteger | hexadecimal | octal | binary =>
    have hdigits := hlegible _ rfl
    rwa [Literal.Legible, String.toList_ofList] at hdigits
  | decimal =>
    have hfraction := hlegible _ rfl
    rw [Literal.Legible, String.toList_ofList] at hfraction
    exact ⟨Numeral.composed_of_value hc h, hfraction.2⟩
  | longDecimal => exact Numeral.composed_of_value hc h
  | _ => exact absurd hk (by decide)

theorem exists_value_of_admits (h : k.Admits x) :
    ∃ c cs, c.isDigit ∧ (Numeral.Written.ofText (c :: cs)).1.value = .ok (k, x) := by
  cases k with
  | integer => exact (Numeral.Plain.whole .decimal ⟨x, h.1, List.all_eq_true.1 h.2⟩).exists_value
  | octal => exact (Numeral.Plain.whole .octal ⟨x, h.1, List.all_eq_true.1 h.2⟩).exists_value
  | hexadecimal =>
    exact (Numeral.Plain.whole .hexadecimal ⟨x, h.1, List.all_eq_true.1 h.2⟩).exists_value
  | binary => exact (Numeral.Plain.whole .binary ⟨x, h.1, List.all_eq_true.1 h.2⟩).exists_value
  | longInteger => exact (Numeral.Plain.large ⟨x, h.1, List.all_eq_true.1 h.2⟩ .long).exists_value
  | decimal =>
    obtain ⟨c, cs, hc, hvalue⟩ := h.1.exists_value false
    rw [h.2] at hvalue
    exact ⟨c, cs, hc, hvalue⟩
  | longDecimal => exact h.exists_value true
  | _ => exact h.elim

/-- **The texts of numerals.**  Whole numbers have all digits as their texts, and decimals
all that is composed of digits and groups, but without a suffix not digits alone. -/
theorem isText_iff (hk : k ∈ numerals) : k.IsText x ↔ k.Admits x := by
  rw [isText_iff_value hk]
  exact ⟨fun ⟨_, _, hc, hvalue⟩ => admits_of_value hk hc hvalue, exists_value_of_admits⟩

end TokenKind

/-! ### Well-formed texts -/

namespace Numeral

/-- A point and digits, if there are any. -/
def fractionText : Option Digits → List Char
  | none => []
  | some fs => '.' :: fs.chars

/-- An exponent with its sign and digits, if there are any. -/
def exponentText : Option (Char × Digits) → List Char
  | none => []
  | some (sign, es) => 'e' :: sign :: es.chars

/-- Digits, then a point and digits or nothing, then an exponent with its sign and digits or
nothing. -/
def WellFormed (x : List Char) : Prop :=
  ∃ (ds : Digits) (fs : Option Digits) (es : Option (Char × Digits)),
    (∀ e ∈ es, isSign e.1) ∧ x = ds.chars ++ fractionText fs ++ exponentText es

/-- A point stands right before an exponent. -/
def PointBeforeExponent (x : List Char) : Prop :=
  ['.', 'e'] <:+: x

/-- A point stands behind an exponent. -/
def PointBehindExponent (x : List Char) : Prop :=
  '.' ∈ x.dropWhile (· ≠ 'e')

instance (x : List Char) : Decidable (PointBeforeExponent x) :=
  inferInstanceAs (Decidable (_ <:+: _))

instance (x : List Char) : Decidable (PointBehindExponent x) :=
  inferInstanceAs (Decidable (_ ∈ _))

variable {x : List Char}

theorem Digits.notMem (ds : Digits) {c : Char} (hc : c.isDigit = false) : c ∉ ds.chars :=
  fun hmem => ne_of_isDigit (ds.isDigit c hmem) hc rfl

theorem point_notMem_exponentText {es : Option (Char × Digits)} (hes : ∀ e ∈ es, isSign e.1) :
    '.' ∉ exponentText es := by
  rcases es with _ | ⟨sign, es⟩
  · exact List.not_mem_nil
  · have hsign : isSign sign := hes _ rfl
    have hne : '.' ≠ sign := by
      rintro rfl
      exact absurd hsign (by decide)
    rw [exponentText, List.mem_cons, List.mem_cons, not_or, not_or]
    exact ⟨by decide, hne, es.notMem rfl⟩

theorem WellFormed.not_pointBehindExponent (h : WellFormed x) : ¬ PointBehindExponent x := by
  obtain ⟨ds, fs, es, hes, rfl⟩ := h
  have hfraction : 'e' ∉ fractionText fs := by
    cases fs with
    | none => exact List.not_mem_nil
    | some fs => exact List.not_mem_cons_of_ne_of_not_mem (by decide) (fs.notMem rfl)
  have hfront : ∀ c ∈ ds.chars ++ fractionText fs, decide (c ≠ 'e') := by
    rintro c hc
    rw [decide_eq_true_eq]
    rintro rfl
    exact (List.mem_append.1 hc).elim (ds.notMem rfl) hfraction
  intro h
  rw [PointBehindExponent, List.dropWhile_append_of_pos hfront] at h
  exact point_notMem_exponentText hes ((List.dropWhile_sublist _).subset h)

theorem WellFormed.not_pointBeforeExponent (h : WellFormed x) : ¬ PointBeforeExponent x := by
  obtain ⟨ds, fs, es, hes, rfl⟩ := h
  rintro ⟨front, back, h⟩
  have hexponent := point_notMem_exponentText hes
  cases fs with
  | none =>
    have hmem : '.' ∈ ds.chars ++ [] ++ exponentText es := by
      rw [fractionText] at h
      rw [← h]
      simp
    rw [List.append_nil] at hmem
    exact (List.mem_append.1 hmem).elim (ds.notMem rfl) hexponent
  | some fs =>
    -- There is one point, and a digit stands behind it.
    have hrest : '.' ∉ fs.chars ++ exponentText es := fun hmem =>
      (List.mem_append.1 hmem).elim (fs.notMem rfl) hexponent
    have hsplit : ds.chars ++ '.' :: (fs.chars ++ exponentText es) =
        front ++ '.' :: 'e' :: back := by
      rw [fractionText] at h
      simpa using h.symm
    obtain ⟨-, -, hbehind⟩ := (List.append_cons_inj_of_notMem (ds.notMem rfl) hrest).1 hsplit
    obtain ⟨c, cs, hfs, hc⟩ := fs.exists_eq_cons
    rw [hfs] at hbehind
    obtain ⟨rfl, -⟩ := List.cons.inj hbehind
    exact absurd hc (by decide)

/-- What is composed of digits and groups is well-formed, unless the groups are in the wrong
order or the first one has no digits. -/
theorem Composed.wellFormed_iff (h : Composed x) :
    WellFormed x ↔ ¬ PointBeforeExponent x ∧ ¬ PointBehindExponent x := by
  refine ⟨fun h => ⟨h.not_pointBeforeExponent, h.not_pointBehindExponent⟩, ?_⟩
  rintro ⟨hbefore, hbehind⟩
  obtain ⟨ds, gs, hgs, hlast, rfl⟩ := h
  cases hgs with
  | nil => exact ⟨ds, none, none, nofun, by simp [fractionText, exponentText]⟩
  | @fraction _ fs _ hfs hrest =>
    cases hrest with
    | nil =>
      refine ⟨ds, some ⟨fs, hlast, hfs⟩, none, nofun, ?_⟩
      simp [fractionText, exponentText, Group.chars, Group.opening, Group.digits]
    | @exponent _ sign es _ hsign hes hrest =>
      cases hrest
      by_cases hnil : fs = []
      · obtain rfl := hnil
        refine absurd ⟨ds.chars, sign :: es, ?_⟩ hbefore
        simp [Group.chars, Group.opening, Group.digits]
      · refine ⟨ds, some ⟨fs, hnil, hfs⟩, some (sign, ⟨es, hlast, hes⟩), ?_, ?_⟩
        · rintro _ ⟨⟩
          exact hsign
        · simp [fractionText, exponentText, Group.chars, Group.opening, Group.digits]
  | @exponent _ sign es _ hsign hes hrest =>
    cases hrest with
    | nil =>
      refine ⟨ds, none, some (sign, ⟨es, hlast, hes⟩), ?_, ?_⟩
      · rintro _ ⟨⟩
        exact hsign
      · simp [fractionText, exponentText, Group.chars, Group.opening, Group.digits]
    | fraction hfs hrest =>
      refine absurd ?_ hbehind
      have hfront : ∀ c ∈ ds.chars, decide (c ≠ 'e') := fun c hc =>
        decide_eq_true (ne_of_isDigit (ds.isDigit c hc) rfl)
      rw [PointBehindExponent, List.dropWhile_append_of_pos hfront]
      simp [Group.chars, Group.opening, Group.digits]

/-- **Where numerals are well-formed.**  The text of a numeral is well-formed exactly if no
point in it stands right before an exponent or behind one.  If it is that of a whole number it
is made of digits. -/
theorem wellFormed_iff_of_mem_tokenize {text : String} {t : Token} (ht : t ∈ tokenize text)
    (hk : t.kind ∈ TokenKind.numerals) :
    (WellFormed t.text.toList ↔
        ¬ PointBeforeExponent t.text.toList ∧ ¬ PointBehindExponent t.text.toList) ∧
      (t.kind ≠ .decimal → t.kind ≠ .longDecimal →
        t.text.toList ≠ [] ∧ t.text.toList.all Char.isDigit) := by
  have htext : t.kind.IsText t.text.toList := ⟨text, t, ht, rfl, rfl⟩
  constructor
  · obtain ⟨c, cs, hc, hvalue⟩ := (TokenKind.isText_iff_value hk).1 htext
    exact (composed_of_value hc hvalue).wellFormed_iff
  · intro hdecimal hlong
    have hadmits := (TokenKind.isText_iff hk).1 htext
    generalize t.kind = k at hadmits hdecimal hlong
    cases k with
    | integer | longInteger | hexadecimal | octal | binary => exact hadmits
    | decimal => exact absurd rfl hdecimal
    | longDecimal => exact absurd rfl hlong
    | _ => exact hadmits.elim

/-- `12.5e+3` is well-formed and `1e+.5` is not, but both are read. -/
theorem wellFormed_iff_twoDecimals :
    (⟨.decimal, "12.5e+3", ⟨1, 1⟩⟩ ∈ tokenize "12.5e+3" ∧ WellFormed "12.5e+3".toList) ∧
      (⟨.decimal, "1e+.5", ⟨1, 1⟩⟩ ∈ tokenize "1e+.5" ∧ ¬ WellFormed "1e+.5".toList) := by
  have hgood : ⟨.decimal, "12.5e+3", ⟨1, 1⟩⟩ ∈ tokenize "12.5e+3" := by decide +kernel
  have hbad : ⟨.decimal, "1e+.5", ⟨1, 1⟩⟩ ∈ tokenize "1e+.5" := by decide +kernel
  have hnumeral : TokenKind.decimal ∈ TokenKind.numerals := by decide
  refine ⟨⟨hgood, ?_⟩, hbad, fun h => ?_⟩
  · exact (wellFormed_iff_of_mem_tokenize hgood hnumeral).1.2 (by decide +kernel)
  · exact absurd ((wellFormed_iff_of_mem_tokenize hbad hnumeral).1.1 h).2 (by decide +kernel)

/-- **Not all decimals are well-formed.**  The point of `1.e+5` has no digits behind it. -/
theorem not_forall_wellFormed :
    ¬ ∀ (text : String), ∀ t ∈ tokenize text,
      t.kind = .decimal ∨ t.kind = .longDecimal → WellFormed t.text.toList := by
  intro h
  have hmem : ⟨.decimal, "1.e+5", ⟨1, 1⟩⟩ ∈ tokenize "1.e+5" := by decide +kernel
  exact (h "1.e+5" _ hmem (.inl rfl)).not_pointBeforeExponent (by decide +kernel)

end Numeral

end ScriptSyntax
