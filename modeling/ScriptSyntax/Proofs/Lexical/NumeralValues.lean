/-
What tokens tell of whole numbers.

A whole number is written in a base, with underscores between its digits and perhaps a suffix
behind them.  Its token keeps the digits.  The base is told by the kind, but only if there is no
suffix: the kind of a numeral with a suffix is that of the suffix.

* `Numeral.Whole` is a whole number as it is written, and `Whole.number` what it denotes;
* `Whole.lexesTo_iff` — which token it makes;
* `Whole.number_eq_iff` — two of one token denote the same number exactly if their bases are the
  same, or if it does not matter which base they are in;
* `Whole.not_determined` — it does matter for `0x10L` and `10L`.

Design notes: in base 16 the letter D is a digit and a suffix, and at the end of a numeral it is
read as a suffix.  A number that is written with it as its last digit is left out.
-/
import Mathlib.Data.Nat.Digits.Lemmas
import ScriptSyntax.Proofs.Lexical.NumeralExtents
import ScriptSyntax.Proofs.Lexical.NumeralForms

namespace ScriptSyntax

/-- The number of digits of a base. -/
def Numeral.Base.size : Numeral.Base → Nat
  | decimal => 10
  | octal => 8
  | hexadecimal => 16
  | binary => 2

/-! ### Digits in two bases -/

/-- Digits of which any but the first one is not 0 denote more in a greater base. -/
theorem ofDigits_eq_ofDigits_iff {b b' : Nat} (hb : b ≠ 0) (hlt : b < b') (d : Nat)
    (ds : List Nat) :
    Nat.ofDigits b (d :: ds) = Nat.ofDigits b' (d :: ds) ↔ ∀ x ∈ ds, x = 0 := by
  rw [Nat.ofDigits_cons, Nat.ofDigits_cons, Nat.add_left_cancel_iff]
  have hle : Nat.ofDigits b ds ≤ Nat.ofDigits b' ds := Nat.ofDigits_monotone ds hlt.le
  constructor
  · intro h
    have hmul : b' * Nat.ofDigits b ds ≤ b * Nat.ofDigits b ds :=
      (Nat.mul_le_mul_left b' hle).trans_eq h.symm
    have hzero : Nat.ofDigits b ds = 0 := by
      by_contra hne
      exact absurd (Nat.le_of_mul_le_mul_right hmul (Nat.pos_of_ne_zero hne)) (not_le.2 hlt)
    exact Nat.digits_zero_of_eq_zero hb hzero
  · intro h
    have hzero : ∀ a : Nat, Nat.ofDigits a ds = 0 := by
      intro a
      rw [List.eq_replicate_of_mem h, Nat.ofDigits_replicate_zero]
    rw [hzero, hzero, Nat.mul_zero, Nat.mul_zero]

namespace Numeral

/-! ### Whole numbers -/

/-- A whole number as it is written: digits of its base, with underscores between them.  In base
ten there is no mark, and a digit comes first. -/
structure Whole where
  base : Base
  run : List Char
  suffix : Option Suffix
  fits : ∀ c ∈ run, Radix.value c < base.size ∨ c = '_'
  exists_digit : ∃ c ∈ run, c ≠ '_'
  first : base = .decimal → ∀ c ∈ run.head?, c ≠ '_'

namespace Whole

/-- The characters of a whole number. -/
def written (x : Whole) : List Char :=
  x.base.mark ++ (x.run ++ (x.suffix.map Suffix.letter).toList)

/-- The digits of a whole number. -/
def digits (x : Whole) : List Char :=
  x.run.filter (· ≠ '_')

/-- The number that the digits denote in their base. -/
def number (x : Whole) : Nat :=
  Nat.ofDigits x.base.size (x.digits.map Radix.value).reverse

/-- The kind that a suffix gives, or else the base. -/
def kind (x : Whole) : TokenKind :=
  match x.suffix with
  | some .long => .longInteger
  | some .double => .longDecimal
  | none => x.base.kind

/-- The last digit is not read as a suffix. -/
def Unambiguous (x : Whole) : Prop :=
  x.suffix = none → ∀ c ∈ x.run.getLast?, Suffix.ofLetter? c = none

/-- The whole number is one token, a numeral. -/
def LexesTo (x : Whole) (k : TokenKind) (text : List Char) : Prop :=
  k ∈ TokenKind.numerals ∧
    (Lexer.ofText (String.ofList x.written)).next.1 = ⟨k, String.ofList text, .start⟩ ∧
    (Lexer.ofText (String.ofList x.written)).next.2.unread = []

end Whole

/-! ### Digits and letters -/

variable {c : Char} {k : TokenKind} {text : List Char} {w : Written} {x y : Whole}

theorem isDigit_of_value_lt (h : Radix.value c < 10) : c.isDigit := by
  unfold Radix.value at h
  split_ifs at h with hdigit
  · exact hdigit
  all_goals omega

theorem value_eq_zero_iff (h : c.isDigit) : Radix.value c = 0 ↔ c = '0' := by
  constructor
  · intro hzero
    rw [Radix.value, if_pos h] at hzero
    simp only [Char.isDigit, Bool.and_eq_true, decide_eq_true_eq, UInt32.le_iff_toNat_le,
      ge_iff_le] at h
    have hle : '0'.toNat ≤ c.toNat := h.1
    exact Char.toNat_inj.1 (by omega)
  · rintro rfl
    rfl

/-- A letter that is a digit in base 16 begins an exponent, or no part, and then it is a suffix
only if it is a D. -/
theorem letter_cases (h : Radix.value c < 16) (hdigit : c.isDigit = false) :
    (c = 'e' ∨ c = 'E') ∨ isPartStart c = false ∧ (Suffix.ofLetter? c = none ∨ c = 'D') := by
  by_cases he : c = 'e' ∨ c = 'E'
  · exact .inl he
  · rw [not_or] at he
    have hunderscore : c ≠ '_' := by
      rintro rfl
      exact absurd h (by decide)
    have hpoint : c ≠ '.' := by
      rintro rfl
      exact absurd h (by decide)
    refine .inr ⟨by simp [isPartStart, hdigit, hunderscore, hpoint, he], ?_⟩
    unfold Suffix.ofLetter?
    split
    · exact absurd h (by decide)
    · exact .inr rfl
    · exact .inl rfl

theorem exists_parts_exponent (hc : c = 'e' ∨ c = 'E') (s : List Char) :
    ∃ sign ps, (parts (c :: s)).1 = .exponent c sign :: ps := by
  by_cases hnext : ∀ d ds, s = d :: ds → isSign d = false
  · exact ⟨none, _, by rw [parts_exponent_unsigned hc hnext]⟩
  · push Not at hnext
    obtain ⟨d, ds, rfl, hsign⟩ := hnext
    exact ⟨some d, _, by rw [parts_exponent hc (Bool.eq_true_of_not_eq_false hsign)]⟩

theorem Base.size_le (b : Base) : b.size ≤ 16 := by
  cases b <;> decide

theorem Base.size_ne_zero (b : Base) : b.size ≠ 0 := by
  cases b <;> decide

theorem Base.size_inj {a b : Base} : a.size = b.size ↔ a = b := by
  cases a <;> cases b <;> decide

theorem Base.kind_inj {a b : Base} : a.kind = b.kind ↔ a = b := by
  cases a <;> cases b <;> decide

namespace Whole

/-! ### The token of a whole number -/

theorem fits_of_decimal (hbase : x.base = .decimal) : ∀ c ∈ x.run, c.isDigit ∨ c = '_' := by
  intro c hc
  have hfits := x.fits c hc
  rw [hbase] at hfits
  exact hfits.imp_left isDigit_of_value_lt

theorem exists_written_cons (x : Whole) : ∃ c cs, x.written = c :: cs ∧ c.isDigit := by
  by_cases hbase : x.base = .decimal
  · obtain ⟨d, hd, -⟩ := x.exists_digit
    rcases hrun : x.run with _ | ⟨c, cs⟩
    · rw [hrun] at hd
      exact nomatch hd
    · refine ⟨c, _, by rw [written, hbase, hrun]; rfl, ?_⟩
      have hmem : c ∈ x.run := by rw [hrun]; exact List.mem_cons_self
      have hfirst := x.first hbase c (by rw [hrun]; rfl)
      exact (fits_of_decimal hbase c hmem).resolve_right hfirst
  · rw [written]
    cases hb : x.base with
    | decimal => exact absurd hb hbase
    | _ => exact ⟨'0', _, rfl, rfl⟩

/-- The base of a whole number is told by its mark. -/
theorem baseMark_written (x : Whole) :
    baseMark x.written =
      (x.base, x.base.mark, x.run ++ (x.suffix.map Suffix.letter).toList) := by
  by_cases hbase : x.base = .decimal
  · have hwritten : x.written = x.run ++ (x.suffix.map Suffix.letter).toList := by
      rw [written, hbase]
      rfl
    rw [← hwritten, hbase]
    refine baseMark_of_second fun c cs hcut => ?_
    have hc : c ∈ x.run ++ (x.suffix.map Suffix.letter).toList := by
      rw [← hwritten, hcut]
      simp
    exact (List.mem_append.1 hc).elim (ofLetter?_of_mem_run (fits_of_decimal hbase) c)
      (ofLetter?_of_mem_suffix x.suffix c)
  · exact baseMark_mark hbase _

/-- What it means for the parts of a numeral to be read as one token. -/
theorem lexesTo_iff_value (x : Whole) : x.LexesTo k text ↔
    k ∈ TokenKind.numerals ∧
      ∃ w, Written.ofText x.written = (w, []) ∧ w.value = .ok (k, text) := by
  obtain ⟨c, cs, hwritten, hc⟩ := x.exists_written_cons
  have hread : Scan.next x.written = Numeral.read x.written := by
    rw [hwritten]
    exact Scan.next_of_isDigit hc cs
  have hnext : (Lexer.ofText (String.ofList x.written)).next =
      ((Numeral.read x.written).lexeme.tokenAt .start,
        (⟨.start, x.written⟩ : Lexer).skip (Numeral.read x.written)) := by
    rw [Lexer.ofText, String.toList_ofList, Lexer.next]
    simp only [hread]
  rw [LexesTo, hnext]
  refine and_congr_right fun hk => ?_
  constructor
  · rintro ⟨htoken, hrest⟩
    have hkind : (Written.ofText x.written).1.lexeme.kind = k := congrArg Token.kind htoken
    have htext : (Written.ofText x.written).1.lexeme.text = String.ofList text :=
      congrArg Token.text htoken
    have hvalue := value_of_lexeme (w := (Written.ofText x.written).1) (hkind ▸ hk)
    rw [hkind, htext, String.toList_ofList] at hvalue
    exact ⟨_, Prod.ext rfl hrest, hvalue⟩
  · rintro ⟨w, hcut, hvalue⟩
    constructor
    · show (Written.ofText x.written).1.lexeme.tokenAt .start = _
      rw [hcut, Written.lexeme, hvalue]
      rfl
    · show (Written.ofText x.written).2 = []
      rw [hcut]

/-- Letters are no digits for the lexer, and so a whole number that is read as one token has
none. -/
theorem fits_of_value (hx : x.Unambiguous) (hcut : Written.ofText x.written = (w, []))
    (hvalue : w.value = .ok (k, text)) : ∀ c ∈ x.run, c.isDigit ∨ c = '_' := by
  by_contra hnot
  obtain ⟨l, hfind⟩ : ∃ l, x.run.find? (fun c => !(c.isDigit || c == '_')) = some l := by
    refine Option.isSome_iff_exists.1 (List.find?_isSome.2 ?_)
    simpa using hnot
  obtain ⟨hl, front, back, hrun, hfront⟩ := List.find?_eq_some_iff_append.1 hfind
  have hfront : ∀ c ∈ front, c.isDigit ∨ c = '_' := fun c hc => by simpa using hfront c hc
  obtain ⟨hdigit, hunderscore⟩ : l.isDigit = false ∧ l ≠ '_' := by simpa using hl
  have hvalue_lt : Radix.value l < x.base.size :=
    (x.fits l (by rw [hrun]; simp)).resolve_right hunderscore
  have hbase : x.base ≠ .decimal := by
    intro hbase
    rw [hbase] at hvalue_lt
    rw [isDigit_of_value_lt hvalue_lt] at hdigit
    cases hdigit
  have hparts := parts_run hfront (l :: (back ++ (x.suffix.map Suffix.letter).toList))
  have hmark := x.baseMark_written
  rw [hrun, List.append_assoc, List.cons_append] at hmark
  rw [Written.ofText, hmark] at hcut
  simp only [hparts, Prod.mk.injEq] at hcut
  obtain ⟨rfl, hrest⟩ := hcut
  rcases letter_cases (hvalue_lt.trans_le x.base.size_le) hdigit with he | ⟨hstart, hletter⟩
  · -- An exponent is an error in this base.
    obtain ⟨fraction, hspell, -⟩ := value_eq_ok_iff.1 hvalue
    obtain ⟨sign, ps, hps⟩ :=
      exists_parts_exponent he (back ++ (x.suffix.map Suffix.letter).toList)
    rw [hps, spell_run x.base false false 0 hfront, spell.eq_def] at hspell
    simp only [if_pos hbase] at hspell
    cases hspell
  · rw [parts_of_not_isPartStart hstart] at hrest
    rcases hletter with hletter | rfl
    · simp only [Numeral.suffix, hletter] at hrest
      cases hrest
    · -- The letter is taken for a suffix, and has to be the last character.
      obtain ⟨rfl, hsuffix⟩ := List.append_eq_nil_iff.1 hrest
      have hnone : x.suffix = none := by
        cases hs : x.suffix with
        | none => rfl
        | some s =>
          rw [hs] at hsuffix
          cases hsuffix
      have hlast := hx hnone 'D' (by rw [hrun, List.getLast?_concat]; rfl)
      cases hlast

/-- The numeral that a whole number without letters is cut off as. -/
theorem ofText_written (hfits : ∀ c ∈ x.run, c.isDigit ∨ c = '_') :
    Written.ofText x.written = (⟨x.base, x.base.mark, runParts x.run, x.suffix⟩, []) := by
  obtain ⟨hend, hsuffix⟩ := ends_of_suffix (x := x.suffix) (s := []) (fun _ => nofun)
  rw [List.append_nil] at hend hsuffix
  have hparts := parts_run hfits (x.suffix.map Suffix.letter).toList
  rw [hend, List.append_nil] at hparts
  exact ofText_eq x.baseMark_written hparts hsuffix

theorem value_numeral (hfits : ∀ c ∈ x.run, c.isDigit ∨ c = '_') :
    (⟨x.base, x.base.mark, runParts x.run, x.suffix⟩ : Written).value =
      .ok (x.kind, x.digits) := by
  have hdigit : ∃ c ∈ x.run, c.isDigit := by
    obtain ⟨c, hc, hne⟩ := x.exists_digit
    exact ⟨c, hc, (hfits c hc).resolve_right hne⟩
  have hspell := spell_run x.base false false 0 hfits []
  rw [List.append_nil] at hspell
  have hmissing := missing?_append_run [] ⟨x.run, hfits, hdigit⟩
  rw [List.nil_append] at hmissing
  refine value_eq_ok_iff.2 ⟨false, ?_, nofun, ?_, ?_⟩
  · rw [hspell]
    show Except.ok (clean x.run ++ [], false) = _
    rw [List.append_nil, clean_run hfits]
    rfl
  · rw [clean_run hfits] at hmissing
    exact hmissing
  · rw [kind, Written.kind]
    rcases x.suffix with _ | _ | _ <;> rfl

/-- The token of a whole number has its digits, which are no letters, and its kind. -/
theorem lexesTo_iff (hx : x.Unambiguous) :
    x.LexesTo k text ↔ (∀ c ∈ x.run, c.isDigit ∨ c = '_') ∧ k = x.kind ∧ text = x.digits := by
  rw [lexesTo_iff_value]
  constructor
  · rintro ⟨-, w, hcut, hvalue⟩
    have hfits := fits_of_value hx hcut hvalue
    rw [ofText_written hfits] at hcut
    obtain rfl := congrArg Prod.fst hcut
    rw [value_numeral hfits] at hvalue
    obtain ⟨hk, htext⟩ := Prod.mk.inj (Except.ok.inj hvalue)
    exact ⟨hfits, hk.symm, htext.symm⟩
  · rintro ⟨hfits, rfl, rfl⟩
    have hvalue := value_numeral hfits
    obtain ⟨fraction, hkind⟩ := kind_of_value hvalue
    exact ⟨hkind ▸ kind_mem_numerals _ fraction, _, ofText_written hfits, hvalue⟩

/-! ### What the token tells -/

/-- A number without a suffix has a token of its own. -/
theorem base_eq_of_kind_eq (hsuffix : x.suffix = none) (h : x.kind = y.kind) :
    x.base = y.base := by
  rw [kind, kind, hsuffix] at h
  rcases hy : y.suffix with _ | _ | _ <;> rw [hy] at h
  · exact Base.kind_inj.1 h
  · cases hb : x.base <;> rw [hb] at h <;> exact nomatch h
  · cases hb : x.base <;> rw [hb] at h <;> exact nomatch h

/-- Digits in two bases denote the same number if all but the last one are 0, and only then. -/
theorem number_eq_iff_of_digits_eq (hfits : ∀ c ∈ x.run, c.isDigit ∨ c = '_')
    (hdigits : x.digits = y.digits) :
    x.number = y.number ↔ x.base = y.base ∨ ∀ c ∈ x.digits.dropLast, c = '0' := by
  have hdigit : ∀ c ∈ x.digits, c.isDigit := by
    intro c hc
    obtain ⟨hmem, hne⟩ := List.mem_filter.1 hc
    exact (hfits c hmem).resolve_right (by simpa using hne)
  obtain ⟨front, last, hlast⟩ : ∃ front last, x.digits = front ++ [last] := by
    obtain ⟨c, hc, hne⟩ := x.exists_digit
    have hmem : c ∈ x.digits := List.mem_filter.2 ⟨hc, by simpa using hne⟩
    exact ⟨_, _, (List.dropLast_append_getLast (List.ne_nil_of_mem hmem)).symm⟩
  have hzeros : (∀ v ∈ (front.map Radix.value).reverse, v = 0) ↔
      ∀ c ∈ x.digits.dropLast, c = '0' := by
    rw [hlast, List.dropLast_concat]
    simp only [List.mem_reverse, List.forall_mem_map]
    refine forall₂_congr fun c hc => value_eq_zero_iff (hdigit c ?_)
    rw [hlast]
    exact List.mem_append_left _ hc
  rw [number, number, ← hdigits, ← hzeros, hlast, List.map_append, List.reverse_append,
    List.map_singleton, List.reverse_singleton, List.singleton_append]
  rcases Nat.lt_trichotomy x.base.size y.base.size with hlt | heq | hlt
  · have hne : x.base ≠ y.base := fun h => hlt.ne (Base.size_inj.2 h)
    rw [or_iff_right hne]
    exact ofDigits_eq_ofDigits_iff x.base.size_ne_zero hlt _ _
  · exact iff_of_true (by rw [heq]) (.inl (Base.size_inj.1 heq))
  · have hne : x.base ≠ y.base := fun h => hlt.ne (Base.size_inj.2 h.symm)
    rw [or_iff_right hne, eq_comm]
    exact ofDigits_eq_ofDigits_iff y.base.size_ne_zero hlt _ _

/-- **What the token of a whole number tells.**  Whole numbers that are read as the same token
denote the same number exactly if they are in the same base or if all their digits but the last
one are 0.  If one of them has no suffix they are in the same base. -/
theorem number_eq_iff (hx : x.Unambiguous) (hy : y.Unambiguous) (hxt : x.LexesTo k text)
    (hyt : y.LexesTo k text) :
    (x.number = y.number ↔ x.base = y.base ∨ ∀ c ∈ x.digits.dropLast, c = '0') ∧
      (x.suffix = none → x.base = y.base) := by
  obtain ⟨hfits, rfl, rfl⟩ := (lexesTo_iff hx).1 hxt
  obtain ⟨-, hkind, hdigits⟩ := (lexesTo_iff hy).1 hyt
  exact ⟨number_eq_iff_of_digits_eq hfits hdigits, fun h => base_eq_of_kind_eq h hkind⟩

/-- `0x10L`, which denotes 16. -/
def hexadecimalLong : Whole where
  base := .hexadecimal
  run := ['1', '0']
  suffix := some .long
  fits := by simp [Radix.value, Base.size]
  exists_digit := ⟨'1', List.mem_cons_self, by decide⟩
  first := nofun

/-- `10L`, which denotes 10. -/
def decimalLong : Whole where
  base := .decimal
  run := ['1', '0']
  suffix := some .long
  fits := by simp [Radix.value, Base.size]
  exists_digit := ⟨'1', List.mem_cons_self, by decide⟩
  first := by
    rintro - _ ⟨⟩
    decide

theorem hexadecimalLong_lexesTo : hexadecimalLong.LexesTo .longInteger ['1', '0'] :=
  ⟨by decide, by decide +kernel, by decide +kernel⟩

theorem decimalLong_lexesTo : decimalLong.LexesTo .longInteger ['1', '0'] :=
  ⟨by decide, by decide +kernel, by decide +kernel⟩

/-- `0x10L` and `10L` are read as the same token, in different bases. -/
theorem number_eq_iff_long :
    (hexadecimalLong.Unambiguous ∧ decimalLong.Unambiguous ∧
        hexadecimalLong.LexesTo .longInteger ['1', '0'] ∧
        decimalLong.LexesTo .longInteger ['1', '0']) ∧
      (hexadecimalLong.number = decimalLong.number ↔
        hexadecimalLong.base = decimalLong.base ∨
          ∀ c ∈ hexadecimalLong.digits.dropLast, c = '0') :=
  have hx : hexadecimalLong.Unambiguous := nofun
  have hy : decimalLong.Unambiguous := nofun
  ⟨⟨hx, hy, hexadecimalLong_lexesTo, decimalLong_lexesTo⟩,
    (number_eq_iff hx hy hexadecimalLong_lexesTo decimalLong_lexesTo).1⟩

/-- **A token does not tell the number.**  `0x10L` denotes 16 and `10L` denotes 10. -/
theorem not_determined :
    ¬ ∀ (x y : Whole) (k : TokenKind) (text : List Char),
      x.LexesTo k text → y.LexesTo k text → x.number = y.number := by
  intro h
  have hnumber := h _ _ _ _ hexadecimalLong_lexesTo decimalLong_lexesTo
  exact absurd hnumber (by decide +kernel)

end Whole

end Numeral

end ScriptSyntax
