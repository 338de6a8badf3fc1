/-
The forms of numerals without a fault.

A numeral in base ten is a run of digits, then perhaps a point and a run, then perhaps an
exponent with its sign and a run, then perhaps a suffix.  In any other base it is one run behind
the mark of the base.  Underscores may stand anywhere in a run.

* `Numeral.Form` is such a numeral, `Form.written` its characters, and `Form.text` what is left
  of them without mark, suffix and underscores;
* `Form.EndsBefore` says what may stand behind it;
* `Numeral.Form.ofText_written` and `Numeral.Form.value_numeral` — it is cut off as a whole, and
  it has no fault;
* `Lexer.next_form` — it is read as one token, with the kind and text that one expects.

Design notes: cutting off and spelling both go over runs, so each of them has one lemma about a
run in front of anything.  What stands behind a numeral matters for the first step only.
-/
import ScriptSyntax.Proofs.Lexical.NumeralTexts

namespace ScriptSyntax

namespace Numeral

variable {c : Char} {cs s : List Char}

theorem exists_eq_cons_of_head (h : cs.head?.any Char.isDigit) :
    ∃ d ds, cs = d :: ds ∧ d.isDigit := by
  cases cs with
  | nil => cases h
  | cons d ds => exact ⟨d, ds, rfl, h⟩

/-! ### Runs -/

/-- Digits and underscores, at least one digit among them. -/
structure Run where
  chars : List Char
  fits : ∀ c ∈ chars, c.isDigit ∨ c = '_'
  exists_digit : ∃ c ∈ chars, c.isDigit

/-- A text without underscores and with small exponents. -/
def clean (cs : List Char) : List Char :=
  (cs.filter (· ≠ '_')).map fun c => if c = 'E' then 'e' else c

theorem clean_append (cs ds : List Char) : clean (cs ++ ds) = clean cs ++ clean ds := by
  rw [clean, List.filter_append, List.map_append]
  rfl

/-- The parts that digits and underscores are. -/
def runParts (cs : List Char) : List Part :=
  cs.map fun c => if c = '_' then .underscore else .digit c

theorem parts_run (h : ∀ c ∈ cs, c.isDigit ∨ c = '_') (s : List Char) :
    parts (cs ++ s) = (runParts cs ++ (parts s).1, (parts s).2) := by
  induction cs with
  | nil => rfl
  | cons c cs ih =>
    obtain ⟨hc, hcs⟩ := List.forall_mem_cons.1 h
    rcases hc with hc | rfl
    · have hne : c ≠ '_' := ne_of_isDigit hc rfl
      rw [List.cons_append, parts_digit hc, ih hcs]
      simp [runParts, hne]
    · rw [List.cons_append, parts.eq_def]
      simp [ih hcs, runParts]

theorem clean_run (h : ∀ c ∈ cs, c.isDigit ∨ c = '_') : clean cs = cs.filter (· ≠ '_') := by
  refine (List.map_congr_left fun c hc => ?_).trans (List.map_id _)
  obtain ⟨hmem, hne⟩ := List.mem_filter.1 hc
  have hdigit := (h c hmem).resolve_right (by simpa using hne)
  rw [if_neg (ne_of_isDigit hdigit rfl)]
  rfl

/-- A run goes on with the text that is spelled, and its underscores are skipped. -/
theorem spell_run (base : Base) (point exponent : Bool) (ahead : Nat)
    (h : ∀ c ∈ cs, c.isDigit ∨ c = '_') (ps : List Part) :
    spell base point exponent ahead (runParts cs ++ ps) =
      (spell base point exponent (ahead + cs.length) ps).map fun r => (clean cs ++ r.1, r.2) := by
  rw [clean_run h]
  clear h
  induction cs generalizing ahead with
  | nil =>
    show spell base point exponent ahead ps = (spell base point exponent ahead ps).map id
    cases spell base point exponent ahead ps <;> rfl
  | cons c cs ih =>
    rw [List.length_cons, Nat.add_comm cs.length, ← Nat.add_assoc]
    by_cases hc : c = '_'
    · rw [List.filter_cons_of_neg (by simpa using hc), ← ih, runParts, List.map_cons, if_pos hc]
      rfl
    · rw [List.filter_cons_of_pos (by simpa using hc), runParts, List.map_cons, if_neg hc]
      show (spell base point exponent (ahead + 1) (runParts cs ++ ps)).map _ = _
      rw [ih]
      cases spell base point exponent (ahead + 1 + cs.length) ps <;> rfl

namespace Run

/-- The digits of a run. -/
def digits (r : Run) : Digits where
  chars := clean r.chars
  ne_nil := by
    obtain ⟨c, hc, hdigit⟩ := r.exists_digit
    rw [clean_run r.fits]
    refine List.ne_nil_of_mem (List.mem_filter.2 ⟨hc, ?_⟩)
    simpa using ne_of_isDigit hdigit (d := '_') rfl
  isDigit := by
    intro c hc
    rw [clean_run r.fits] at hc
    obtain ⟨hmem, hne⟩ := List.mem_filter.1 hc
    exact (r.fits c hmem).resolve_right (by simpa using hne)

end Run

/-! ### Forms -/

/-- An exponent with its sign. -/
structure Exponent where
  letter : Char
  sign : Char
  run : Run
  letter_eq : letter = 'e' ∨ letter = 'E'
  isSign_sign : isSign sign

/-- A numeral without a fault. -/
inductive Form where
  /-- A numeral in base ten, which begins with a digit.  Only whole numbers can be long
  integers. -/
  | decimal (whole : Run) (fraction : Option Run) (exponent : Option Exponent)
      (suffix : Option Suffix) (hfirst : whole.chars.head?.any Char.isDigit)
      (hlong : suffix = some .long → fraction = none ∧ exponent = none)
  /-- A whole number in another base. -/
  | marked (base : Base) (run : Run) (hbase : base ≠ .decimal)

/-- The characters of a fraction. -/
def fractionChars : Option Run → List Char
  | none => []
  | some r => '.' :: r.chars

/-- The characters of an exponent. -/
def exponentChars : Option Exponent → List Char
  | none => []
  | some e => e.letter :: e.sign :: e.run.chars

namespace Form

/-- The base of a numeral. -/
def base : Form → Base
  | decimal .. => .decimal
  | marked base .. => base

/-- The characters of a numeral but for base mark and suffix. -/
def bare : Form → List Char
  | decimal whole fraction exponent .. =>
    whole.chars ++ (fractionChars fraction ++ exponentChars exponent)
  | marked _ run _ => run.chars

/-- The suffix of a numeral, if it has one. -/
def suffix : Form → Option Suffix
  | decimal _ _ _ suffix .. => suffix
  | marked .. => none

/-- The characters of a numeral. -/
def written (n : Form) : List Char :=
  n.base.mark ++ n.bare ++ (n.suffix.map Suffix.letter).toList

/-- The characters of a numeral without base mark, suffix and underscores, and with small
exponents. -/
def text (n : Form) : List Char :=
  clean n.bare

/-- The kind of a numeral. -/
def kind : Form → TokenKind
  | decimal _ _ _ (some .long) .. => .longInteger
  | decimal _ _ _ (some .double) .. => .longDecimal
  | decimal _ none none none .. => .integer
  | decimal _ _ _ none .. => .decimal
  | marked base .. => base.kind

/-- What stands behind a numeral does not go on with it.  Behind a suffix anything may stand. -/
def EndsBefore (n : Form) (s : List Char) : Prop :=
  n.suffix = none → ∀ c ∈ s.head?, c.isDigit = false ∧ c ∉ ['_', '.', 'e', 'E', 'L', 'D'] ∧
    (n.written = ['0'] → c ∉ ['o', 'x', 'b'])

end Form

/-! ### Cutting off -/

/-- The parts of a fraction. -/
def fractionParts : Option Run → List Part
  | none => []
  | some r => .point :: runParts r.chars

/-- The parts of an exponent. -/
def exponentParts : Option Exponent → List Part
  | none => []
  | some e => .exponent e.letter (some e.sign) :: runParts e.run.chars

theorem parts_fractionChars (fraction : Option Run) (s : List Char) :
    parts (fractionChars fraction ++ s) =
      (fractionParts fraction ++ (parts s).1, (parts s).2) := by
  cases fraction with
  | none => rfl
  | some r =>
    rw [fractionChars, List.cons_append, parts_point, parts_run r.fits]
    rfl

theorem parts_exponentChars (exponent : Option Exponent) (s : List Char) :
    parts (exponentChars exponent ++ s) =
      (exponentParts exponent ++ (parts s).1, (parts s).2) := by
  cases exponent with
  | none => rfl
  | some e =>
    rw [exponentChars, List.cons_append, List.cons_append,
      parts_exponent e.letter_eq e.isSign_sign, parts_run e.run.fits]
    rfl

/-- A suffix, or what does not go on with a numeral, ends the parts. -/
theorem ends_of_suffix {x : Option Suffix}
    (hs : x = none → ∀ c ∈ s.head?, isPartStart c = false ∧ Suffix.ofLetter? c = none) :
    parts ((x.map Suffix.letter).toList ++ s) = ([], (x.map Suffix.letter).toList ++ s) ∧
      Numeral.suffix ((x.map Suffix.letter).toList ++ s) = (x, s) := by
  cases x with
  | some x => cases x <;> exact ⟨parts_of_not_isPartStart rfl s, rfl⟩
  | none =>
    cases s with
    | nil => exact ⟨rfl, rfl⟩
    | cons c cs =>
      obtain ⟨hstart, hletter⟩ := hs rfl c rfl
      refine ⟨parts_of_not_isPartStart hstart cs, ?_⟩
      show Numeral.suffix (c :: cs) = _
      rw [Numeral.suffix, hletter]

theorem baseMark_of_second (h : ∀ c cs, s = '0' :: c :: cs → Base.ofLetter? c = none) :
    baseMark s = (.decimal, [], s) := by
  rcases baseMark_eq s with hs | ⟨b, c, cs, hb, hs⟩
  · exact hs
  · rw [h c cs hs] at hb
    exact nomatch hb

theorem ofLetter?_of_mem_run (h : ∀ c ∈ cs, c.isDigit ∨ c = '_') :
    ∀ c ∈ cs, Base.ofLetter? c = none := by
  intro c hc
  rcases h c hc with hdigit | rfl
  · exact ofLetter?_of_isDigit hdigit
  · rfl

theorem ofLetter?_of_mem_suffix (x : Option Suffix) :
    ∀ c ∈ (x.map Suffix.letter).toList, Base.ofLetter? c = none := by
  rcases x with _ | _ | _
  · exact List.forall_mem_nil _
  · exact List.forall_mem_singleton.2 rfl
  · exact List.forall_mem_singleton.2 rfl

theorem baseMark_mark {base : Base} (h : base ≠ .decimal) (s : List Char) :
    baseMark (base.mark ++ s) = (base, base.mark, s) := by
  cases base with
  | decimal => exact absurd rfl h
  | _ => rfl

namespace Form

/-- The parts of a numeral. -/
def parts : Form → List Part
  | decimal whole fraction exponent .. =>
    runParts whole.chars ++ (fractionParts fraction ++ exponentParts exponent)
  | marked _ run _ => runParts run.chars

/-- The numeral as it is cut off. -/
def numeral (n : Form) : Written :=
  ⟨n.base, n.base.mark, n.parts, n.suffix⟩

theorem parts_bare (n : Form) (s : List Char) :
    Numeral.parts (n.bare ++ s) = (n.parts ++ (Numeral.parts s).1, (Numeral.parts s).2) := by
  cases n with
  | decimal whole fraction exponent =>
    rw [bare, List.append_assoc, List.append_assoc, parts_run whole.fits, parts_fractionChars,
      parts_exponentChars]
    simp [parts]
  | marked _ run _ => exact parts_run run.fits s

/-- No character of a numeral in base ten is the letter of another base. -/
theorem ofLetter?_of_mem_written {n : Form} (hbase : n.base = .decimal) :
    ∀ c ∈ n.written, Base.ofLetter? c = none := by
  have hfraction : ∀ f, ∀ c ∈ fractionChars f, Base.ofLetter? c = none := by
    intro f
    cases f with
    | none => exact List.forall_mem_nil _
    | some r => exact List.forall_mem_cons.2 ⟨rfl, ofLetter?_of_mem_run r.fits⟩
  have hexponent : ∀ e, ∀ c ∈ exponentChars e, Base.ofLetter? c = none := by
    intro e
    cases e with
    | none => exact List.forall_mem_nil _
    | some e =>
      have hletter : Base.ofLetter? e.letter = none := by
        rcases e.letter_eq with h | h <;> rw [h] <;> rfl
      have hsign : Base.ofLetter? e.sign = none := by
        have hs := e.isSign_sign
        rw [isSign, Bool.or_eq_true, beq_iff_eq, beq_iff_eq] at hs
        rcases hs with h | h <;> rw [h] <;> rfl
      exact List.forall_mem_cons.2 ⟨hletter, List.forall_mem_cons.2
        ⟨hsign, ofLetter?_of_mem_run e.run.fits⟩⟩
  cases n with
  | marked _ _ hne => exact absurd hbase hne
  | decimal whole fraction exponent x =>
    intro c hc
    rcases List.mem_append.1 hc with hc | hc
    · rcases List.mem_append.1 hc with hc | hc
      · cases hc
      · rcases List.mem_append.1 hc with hc | hc
        · exact ofLetter?_of_mem_run whole.fits c hc
        · exact (List.mem_append.1 hc).elim (hfraction fraction c) (hexponent exponent c)
    · exact ofLetter?_of_mem_suffix x c hc

/-- A numeral begins with a digit. -/
theorem exists_written_cons (n : Form) : ∃ c cs, n.written = c :: cs ∧ c.isDigit := by
  cases n with
  | decimal whole fraction exponent x hfirst =>
    obtain ⟨c, cs, hwhole, hc⟩ := exists_eq_cons_of_head hfirst
    exact ⟨c, _, by rw [written, base, bare, Base.mark, hwhole]; rfl, hc⟩
  | marked base run hbase =>
    cases base with
    | decimal => exact absurd rfl hbase
    | _ => exact ⟨'0', _, rfl, rfl⟩

/-- A digit alone has no suffix behind it. -/
theorem suffix_of_written {n : Form} (h : n.written = [c]) : n.suffix = none := by
  cases n with
  | marked => rfl
  | decimal whole fraction exponent x hfirst =>
    obtain ⟨d, ds, hwhole, -⟩ := exists_eq_cons_of_head hfirst
    rw [written, base, bare, Base.mark, hwhole] at h
    obtain ⟨-, hnil⟩ := List.cons.inj h
    obtain ⟨-, hnil⟩ := List.append_eq_nil_iff.1 hnil
    cases x with
    | none => rfl
    | some x => cases hnil

theorem baseMark_written {n : Form} (hs : n.EndsBefore s) :
    baseMark (n.written ++ s) =
      (n.base, n.base.mark, n.bare ++ ((n.suffix.map Suffix.letter).toList ++ s)) := by
  by_cases hbase : n.base = .decimal
  · have hmark : n.written = n.bare ++ (n.suffix.map Suffix.letter).toList := by
      rw [written, hbase]
      rfl
    rw [hbase, ← List.append_assoc, ← hmark]
    refine baseMark_of_second fun c cs hcut => ?_
    -- The second character is one of the numeral, unless the numeral is a single digit.
    obtain ⟨d, ds, hwritten, -⟩ := n.exists_written_cons
    rw [hwritten, List.cons_append] at hcut
    obtain ⟨rfl, htail⟩ := List.cons.inj hcut
    cases ds with
    | cons e es =>
      obtain ⟨rfl, -⟩ := List.cons.inj htail
      exact ofLetter?_of_mem_written hbase e (by rw [hwritten]; simp)
    | nil =>
      have hc : c ∈ s.head? := by
        rw [show s = c :: cs from htail]
        rfl
      obtain ⟨-, -, hletter⟩ := hs (suffix_of_written hwritten) c hc
      refine Option.eq_none_iff_forall_ne_some.2 fun b hb => hletter hwritten ?_
      rcases Base.eq_of_ofLetter? hb with rfl | rfl | rfl <;> simp
  · rw [written, List.append_assoc, List.append_assoc]
    exact baseMark_mark hbase _

/-- A numeral is cut off as a whole. -/
theorem ofText_written {n : Form} (hs : n.EndsBefore s) :
    Written.ofText (n.written ++ s) = (n.numeral, s) := by
  obtain ⟨hend, hsuffix⟩ := ends_of_suffix (x := n.suffix) (s := s) fun hnone c hc => by
    obtain ⟨hdigit, hmem, -⟩ := hs hnone c hc
    simp only [List.mem_cons, List.not_mem_nil, not_or, or_false] at hmem
    obtain ⟨hunderscore, hpoint, he, hE, hL, hD⟩ := hmem
    refine ⟨by simp [isPartStart, hdigit, hunderscore, hpoint, he, hE], ?_⟩
    unfold Suffix.ofLetter?
    split
    · exact absurd rfl hL
    · exact absurd rfl hD
    · rfl
  have hparts := n.parts_bare ((n.suffix.map Suffix.letter).toList ++ s)
  rw [hend, List.append_nil] at hparts
  exact ofText_eq (baseMark_written hs) hparts hsuffix

end Form

/-! ### Spelling -/

theorem spell_fraction (fraction : Option Run) (ahead : Nat) (ps : List Part) :
    ∃ ahead', spell .decimal false false ahead (fractionParts fraction ++ ps) =
      (spell .decimal fraction.isSome false ahead' ps).map fun r =>
        (clean (fractionChars fraction) ++ r.1, r.2) := by
  cases fraction with
  | none =>
    refine ⟨ahead, ?_⟩
    show spell .decimal false false ahead ps = (spell .decimal false false ahead ps).map id
    cases spell .decimal false false ahead ps <;> rfl
  | some r =>
    refine ⟨ahead + 1 + r.chars.length, ?_⟩
    rw [fractionParts, List.cons_append, spell, if_neg (by decide), if_neg (by decide),
      spell_run .decimal true false _ r.fits]
    show Except.map _ (Except.map _ (spell .decimal true false _ ps)) =
      (spell .decimal true false _ ps).map _
    cases spell .decimal true false (ahead + 1 + r.chars.length) ps <;> rfl

theorem clean_sign {d : Char} (h : isSign d) (cs : List Char) :
    clean (d :: cs) = d :: clean cs := by
  rw [isSign, Bool.or_eq_true, beq_iff_eq, beq_iff_eq] at h
  rcases h with rfl | rfl <;> rfl

theorem clean_exponent (e : Exponent) :
    clean (exponentChars (some e)) = 'e' :: e.sign :: clean e.run.chars := by
  rw [exponentChars, ← clean_sign e.isSign_sign]
  rcases e.letter_eq with h | h <;> rw [h] <;> rfl

theorem spell_exponent (point : Bool) (exponent : Option Exponent) (ahead : Nat) :
    spell .decimal point false ahead (exponentParts exponent) =
      .ok (clean (exponentChars exponent), point || exponent.isSome) := by
  cases exponent with
  | none =>
    show Except.ok ([], point || false) = Except.ok ([], point || false)
    rfl
  | some e =>
    have hrun := spell_run .decimal point true (ahead + 2) e.run.fits []
    rw [List.append_nil] at hrun
    rw [exponentParts, spell, if_neg (by decide), if_neg (by decide), hrun, clean_exponent]
    show Except.ok ('e' :: e.sign :: (clean e.run.chars ++ []), point || true) = _
    rw [List.append_nil]
    rfl

/-- A text that ends in a run lacks nothing. -/
theorem missing?_append_run (front : List Char) (r : Run) :
    missing? (clean (front ++ r.chars)) = none := by
  rw [clean_append]
  exact missing?_append_digits (clean front) r.digits

namespace Form

/-- Whether a numeral has a point or an exponent. -/
def isFraction : Form → Bool
  | decimal _ fraction exponent .. => fraction.isSome || exponent.isSome
  | marked .. => false

theorem spell_parts (n : Form) :
    spell n.base false false 0 n.parts = .ok (n.text, n.isFraction) := by
  cases n with
  | decimal whole fraction exponent =>
    obtain ⟨ahead, hfraction⟩ :=
      spell_fraction fraction (0 + whole.chars.length) (exponentParts exponent)
    rw [parts, base, spell_run .decimal false false 0 whole.fits, hfraction, spell_exponent, text,
      bare, clean_append, clean_append]
    rfl
  | marked base run hbase =>
    have hrun := spell_run base false false 0 run.fits []
    rw [List.append_nil] at hrun
    show spell base false false 0 (runParts run.chars) = _
    rw [hrun]
    show Except.ok (clean run.chars ++ [], false) = _
    rw [List.append_nil]
    rfl

theorem exists_bare_eq (n : Form) : ∃ front, ∃ r : Run, n.bare = front ++ r.chars := by
  cases n with
  | marked base run _ => exact ⟨[], run, rfl⟩
  | decimal whole fraction exponent =>
    rcases exponent with _ | e
    · rcases fraction with _ | f
      · exact ⟨[], whole, by simp [bare, fractionChars, exponentChars]⟩
      · exact ⟨whole.chars ++ ['.'], f, by simp [bare, fractionChars, exponentChars]⟩
    · exact ⟨whole.chars ++ (fractionChars fraction ++ [e.letter, e.sign]), e.run,
        by simp [bare, exponentChars]⟩

/-- A numeral has no fault, and its text is what is left of its characters. -/
theorem value_numeral (n : Form) : n.numeral.value = .ok (n.kind, n.text) := by
  refine value_eq_ok_iff.2 ⟨n.isFraction, n.spell_parts, ?_, ?_, ?_⟩
  · cases n with
    | marked => exact fun h => nomatch h.1
    | decimal whole fraction exponent x hfirst hlong =>
      rintro ⟨hx, hfraction⟩
      obtain ⟨rfl, rfl⟩ := hlong hx
      exact nomatch hfraction
  · obtain ⟨front, r, hbare⟩ := n.exists_bare_eq
    rw [text, hbare]
    exact missing?_append_run front r
  · cases n with
    | marked base run hbase => rfl
    | decimal whole fraction exponent x =>
      rcases x with _ | _ | _
      · rcases fraction with _ | _ <;> rcases exponent with _ | _ <;> rfl
      · rfl
      · rfl

/-- The lexeme of a numeral is the numeral. -/
theorem read_written {n : Form} (hs : n.EndsBefore s) :
    Numeral.read (n.written ++ s) = ⟨.whole n.kind n.text n.written, s⟩ :=
  read_append_of_value (ofText_written hs) n.value_numeral

end Form

end Numeral

/-- **Numerals are read.**  A numeral of the right form, with nothing behind it that could go on
with it, is one token.  It stands where the numeral begins, takes all of it and nothing else, and
has the kind and the text of the numeral. -/
theorem Lexer.next_form {n : Numeral.Form} {s : List Char} (hs : n.EndsBefore s) (p : Span) :
    (⟨p, n.written ++ s⟩ : Lexer).next =
      (⟨n.kind, String.ofList n.text, p⟩, ⟨p.after n.written, s⟩) := by
  obtain ⟨c, cs, hwritten, hc⟩ := n.exists_written_cons
  have hread : Scan.next (n.written ++ s) = ⟨.whole n.kind n.text n.written, s⟩ := by
    rw [← Numeral.Form.read_written hs, hwritten]
    exact Scan.next_of_isDigit hc (cs ++ s)
  rw [next]
  simp only [hread]
  rfl

/-- `1_0._5E-2_` in front of `+3` is the decimal `10.5e-2`. -/
theorem Lexer.next_form_decimal : ∃ n : Numeral.Form,
    n.written = "1_0._5E-2_".toList ∧ n.EndsBefore "+3".toList ∧
      (⟨.start, "1_0._5E-2_+3".toList⟩ : Lexer).next =
        (⟨.decimal, "10.5e-2", .start⟩, ⟨⟨1, 11⟩, "+3".toList⟩) := by
  let whole : Numeral.Run := ⟨['1', '_', '0'], by simp, by simp⟩
  let fraction : Numeral.Run := ⟨['_', '5'], by simp, by simp⟩
  let exponent : Numeral.Exponent :=
    ⟨'E', '-', ⟨['2', '_'], by simp, by simp⟩, .inr rfl, rfl⟩
  let n : Numeral.Form := .decimal whole (some fraction) (some exponent) none rfl nofun
  have hs : n.EndsBefore "+3".toList := by
    rintro - _ ⟨⟩
    decide
  exact ⟨n, rfl, hs, next_form hs .start⟩

end ScriptSyntax
