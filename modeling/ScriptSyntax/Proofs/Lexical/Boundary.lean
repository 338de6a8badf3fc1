/-
Where lexemes end.

A lexeme ends at a mark that closes it, or in front of a character that cannot
go on with it.  White space goes on with nothing, so a lexeme stays what it is
when the text behind it is moved away by white space; and if it has no closing
mark and takes the whole text, then it takes blank space at the end as well.

* `Respaced s t` says that `t` is `s` up to some place, where white space stands;
* `Reading.Settled` and `Reading.Open` are the two ways in which lexemes end;
* `Scan.readWord_settled` and `Numeral.read_settled` — words and numerals end in
  front of a character, and never take the whole text for want of a mark.

Design notes: every scanner that looks for a closing mark has one statement with
two cases, in the first of which it has found the mark and does not depend on
what follows, and in the second of which it has come to the end of the text and
would have gone on.
-/
import Mathlib.Data.List.Infix
import ScriptSyntax.Lexical.Scan

namespace ScriptSyntax

/-! ### White space -/

theorem takeWhile_append_of_stop {p : Char → Bool} {front s : List Char}
    (hfront : ∀ c ∈ front, p c) (hstop : s.head?.all (!p ·)) :
    (front ++ s).takeWhile p = front ∧ (front ++ s).dropWhile p = s := by
  rw [List.takeWhile_append_of_pos hfront, List.dropWhile_append_of_pos hfront]
  cases s with
  | nil => simp
  | cons c s =>
    have hc : p c = false := by simpa using hstop
    simp [hc]

namespace Gap

/-- White space, line breaks included. -/
def whites : List Char := [' ', '\t', '\x0b', '\x0c', '\r', '\n']

theorem forall_mem_whites {p : Char → Prop} :
    (∀ c ∈ whites, p c) ↔ p ' ' ∧ p '\t' ∧ p '\x0b' ∧ p '\x0c' ∧ p '\r' ∧ p '\n' := by
  simp [whites]

theorem mem_whites_of_isBlank {c : Char} (h : isBlank c) : c ∈ whites := by
  simp only [isBlank, Bool.or_eq_true, beq_iff_eq] at h
  simp only [whites, List.mem_cons]
  tauto

/-- Nothing but blank space. -/
def Blank (w : List Char) : Prop :=
  ∀ c ∈ w, isBlank c

theorem Blank.nil : Blank [] :=
  List.forall_mem_nil _

theorem Blank.not_mem {w : List Char} (h : Blank w) {c : Char} (hc : isBlank c = false) :
    c ∉ w := by
  intro hmem
  rw [h c hmem] at hc
  exact Bool.noConfusion hc

end Gap

/-- The second text is the first up to some place, where white space stands. -/
inductive Respaced : List Char → List Char → Prop where
  | here {c : Char} (hc : c ∈ Gap.whites) (s t : List Char) : Respaced s (c :: t)
  | later (c : Char) {s t : List Char} (h : Respaced s t) : Respaced (c :: s) (c :: t)

namespace Respaced

theorem append {s t : List Char} (h : Respaced s t) (a : List Char) :
    Respaced (a ++ s) (a ++ t) := by
  induction a with
  | nil => exact h
  | cons c a ih => exact .later c ih

/-- Blank space behind a text. -/
theorem append_blank (s : List Char) {w : List Char} (hw : Gap.Blank w) (hne : w ≠ []) :
    Respaced s (s ++ w) := by
  cases w with
  | nil => exact absurd rfl hne
  | cons c w =>
    have h : Respaced [] (c :: w) := .here (Gap.mem_whites_of_isBlank (hw c List.mem_cons_self)) _ _
    simpa using h.append s

theorem exists_head {s t : List Char} (h : Respaced s t) :
    ∃ c t', t = c :: t' ∧ (c ∈ Gap.whites ∨ ∃ s', s = c :: s') := by
  cases h with
  | here hc s t => exact ⟨_, _, rfl, .inl hc⟩
  | later c h => exact ⟨_, _, rfl, .inr ⟨_, rfl⟩⟩

/-- No new beginnings come up that are free of white space. -/
theorem isPrefix {s t m : List Char} (h : Respaced s t) (hm : ∀ c ∈ m, c ∉ Gap.whites)
    (hbegins : m <+: t) : m <+: s := by
  induction h generalizing m with
  | here hc s t =>
    cases m with
    | nil => exact List.nil_prefix
    | cons d m =>
      obtain ⟨rfl, -⟩ := List.cons_prefix_cons.1 hbegins
      exact absurd hc (hm _ List.mem_cons_self)
  | later c h ih =>
    cases m with
    | nil => exact List.nil_prefix
    | cons d m =>
      obtain ⟨rfl, hrest⟩ := List.cons_prefix_cons.1 hbegins
      have hm' : ∀ x ∈ m, x ∉ Gap.whites := fun x hx => hm x (List.mem_cons_of_mem _ hx)
      exact List.cons_prefix_cons.2 ⟨rfl, ih hm' hrest⟩

/-- What is read for as long as characters are of some sort, none of it white. -/
theorem takeWhile {p : Char → Bool} (hp : ∀ c ∈ Gap.whites, p c = false) {s t : List Char}
    (h : Respaced (s.dropWhile p) t) :
    (s.takeWhile p ++ t).takeWhile p = s.takeWhile p ∧ (s.takeWhile p ++ t).dropWhile p = t := by
  refine takeWhile_append_of_stop (List.all_eq_true.1 List.all_takeWhile) ?_
  obtain ⟨c, t', rfl, hc | ⟨s', hs⟩⟩ := h.exists_head
  · simp [hp c hc]
  · have := List.head?_dropWhile_not p s
    rw [hs] at this
    simpa using this

end Respaced

/-! ### The two ways to end -/

namespace Lexeme

/-- What the parser sees of a lexeme. -/
def content (x : Lexeme) : TokenKind × String :=
  (x.kind, x.text)

@[simp] theorem content_behind (g : List Char) (x : Lexeme) :
    (behind g x).content = x.content := rfl

end Lexeme

namespace Reading

/-- A lexeme that stays what it is when white space moves the text behind it. -/
def Settled (read : List Char → Reading) (s : List Char) : Prop :=
  ∀ t, Respaced (read s).rest t → read ((read s).lexeme.source ++ t) = ⟨(read s).lexeme, t⟩

/-- A lexeme that takes the whole text, and blank space behind it. -/
def Open (read : List Char → Reading) (s : List Char) : Prop :=
  (read s).rest = [] ∧ ∀ w, Gap.Blank w →
    (read (s ++ w)).rest = [] ∧ (read (s ++ w)).lexeme.content = (read s).lexeme.content

/-- A front of the text is read alike whatever follows it. -/
def Fixed (read : List Char → Reading) (s : List Char) : Prop :=
  ∃ front rest x, s = front ++ rest ∧ ∀ t, read (front ++ t) = ⟨x, t⟩

theorem Fixed.settled {read : List Char → Reading} {s : List Char} (h : Fixed read s)
    (hcuts : (read s).Cuts s) : Settled read s := by
  obtain ⟨front, rest, x, rfl, hread⟩ := h
  rw [hread] at hcuts
  have hsource : x.source = front := List.append_cancel_right hcuts
  intro t _
  rw [hread rest]
  show read (x.source ++ t) = _
  rw [hsource, hread]

end Reading

open Reading

/-! ### Words -/

namespace Scan

theorem readWord_settled (s : List Char) : Settled readWord s := by
  intro t ht
  have hstop : ∀ c ∈ Gap.whites, isWordChar c = false :=
    Gap.forall_mem_whites.2 (by decide)
  obtain ⟨htake, hdrop⟩ := ht.takeWhile hstop
  show readWord (s.takeWhile isWordChar ++ t) = _
  rw [readWord, htake, hdrop]
  rfl

end Scan

/-! ### Numerals -/

namespace Numeral

/-- Whether a character can begin a part. -/
def isPartStart (c : Char) : Bool :=
  c.isDigit || c == '_' || c == '.' || c == 'e' || c == 'E'

theorem parts_of_not_isPartStart {c : Char} (h : isPartStart c = false) (cs : List Char) :
    parts (c :: cs) = ([], c :: cs) := by
  simp only [isPartStart, Bool.or_eq_false_iff, beq_eq_false_iff_ne] at h
  obtain ⟨⟨⟨⟨hdigit, hunderscore⟩, hpoint⟩, he⟩, hE⟩ := h
  rw [parts.eq_def]
  simp [hdigit, hunderscore, hpoint, he, hE]

theorem parts_exponent {c d : Char} (hc : c = 'e' ∨ c = 'E') (hd : isSign d) (ds : List Char) :
    parts (c :: d :: ds) = (.exponent c (some d) :: (parts ds).1, (parts ds).2) := by
  rw [parts.eq_def]
  rcases hc with rfl | rfl
  · simp [hd]
  · simp [hd]

theorem parts_exponent_unsigned {c : Char} (hc : c = 'e' ∨ c = 'E') {s : List Char}
    (hs : ∀ d ds, s = d :: ds → isSign d = false) :
    parts (c :: s) = (.exponent c none :: (parts s).1, (parts s).2) := by
  rw [parts.eq_def]
  cases s with
  | nil => rcases hc with rfl | rfl <;> simp [parts]
  | cons d ds => rcases hc with rfl | rfl <;> simp [hs d ds rfl]

/-- White space ends the parts, and is no sign of an exponent. -/
theorem parts_respaced {s t : List Char} (ht : Respaced (parts s).2 t) :
    parts ((parts s).1.flatMap Part.source ++ t) = ((parts s).1, t) := by
  have hwhite : ∀ c ∈ Gap.whites, isPartStart c = false :=
    Gap.forall_mem_whites.2 (by decide)
  have hsign : ∀ c ∈ Gap.whites, isSign c = false := Gap.forall_mem_whites.2 (by decide)
  fun_induction parts s with
  | case1 =>
    obtain ⟨c, t', rfl, hc | ⟨s', hs⟩⟩ := ht.exists_head
    · exact parts_of_not_isPartStart (hwhite c hc) t'
    · cases hs
  | case2 c cs hdigit ih =>
    rw [List.flatMap_cons, Part.source, List.append_assoc, List.singleton_append,
      parts_digit hdigit, ih ht]
  | case3 cs _ ih =>
    rw [List.flatMap_cons, Part.source, List.append_assoc, List.singleton_append, parts.eq_def]
    simp [ih ht]
  | case4 cs _ _ ih =>
    rw [List.flatMap_cons, Part.source, List.append_assoc, List.singleton_append, parts.eq_def]
    simp [ih ht]
  | case5 c _ _ _ hc =>
    obtain ⟨d, t', rfl, hd | ⟨s', hs⟩⟩ := ht.exists_head
    · have hunsigned : ∀ x xs, d :: t' = x :: xs → isSign x = false := by
        rintro x xs hx
        obtain ⟨rfl, -⟩ := List.cons.inj hx
        exact hsign d hd
      show parts (c :: d :: t') = _
      rw [parts_exponent_unsigned hc hunsigned, parts_of_not_isPartStart (hwhite d hd)]
    · cases hs
  | case6 c _ _ _ hc d ds hd ih =>
    show parts (c :: d :: ((parts ds).1.flatMap Part.source ++ t)) = _
    rw [parts_exponent hc hd, ih ht]
  | case7 c _ _ _ hc d ds hd ih =>
    -- The next character is still the one that is no sign, or white.
    have hmoved : Respaced (d :: ds) ((parts (d :: ds)).1.flatMap Part.source ++ t) := by
      have := Respaced.append ht ((parts (d :: ds)).1.flatMap Part.source)
      rwa [parts_cuts] at this
    have hunsigned : ∀ x xs, (parts (d :: ds)).1.flatMap Part.source ++ t = x :: xs →
        isSign x = false := by
      intro x xs hx
      obtain ⟨y, t', ht', hy⟩ := hmoved.exists_head
      obtain ⟨rfl, -⟩ := List.cons.inj (hx.symm.trans ht')
      rcases hy with hy | ⟨s', hs⟩
      · exact hsign x hy
      · obtain ⟨rfl, -⟩ := List.cons.inj hs
        exact Bool.eq_false_iff.2 hd
    show parts (c :: ((parts (d :: ds)).1.flatMap Part.source ++ t)) = _
    rw [parts_exponent_unsigned hc hunsigned, ih ht]
  | case8 c cs hdigit hunderscore hpoint hexponent =>
    obtain ⟨d, t', rfl, hd | ⟨s', hs⟩⟩ := ht.exists_head
    · exact parts_of_not_isPartStart (hwhite d hd) t'
    · obtain ⟨rfl, -⟩ := List.cons.inj hs
      refine parts_of_not_isPartStart ?_ t'
      simp only [not_or] at hexponent
      simp [isPartStart, hdigit, hunderscore, hpoint, hexponent]

theorem suffix_respaced {s t : List Char} (ht : Respaced (suffix s).2 t) :
    suffix (((suffix s).1.map Suffix.letter).toList ++ t) = ((suffix s).1, t) := by
  have hwhite : ∀ c ∈ Gap.whites, Suffix.ofLetter? c = none :=
    Gap.forall_mem_whites.2 (by decide)
  have hnone : ∀ {c : Char} {cs : List Char}, Suffix.ofLetter? c = none →
      suffix (c :: cs) = (none, c :: cs) := by
    intro c cs hc
    rw [suffix, hc]
  cases s with
  | nil =>
    obtain ⟨d, t', rfl, hd | ⟨s', hs⟩⟩ := ht.exists_head
    · exact hnone (hwhite d hd)
    · cases hs
  | cons c cs =>
    cases hc : Suffix.ofLetter? c with
    | none =>
      rw [hnone hc] at ht ⊢
      obtain ⟨d, t', rfl, hd | ⟨s', hs⟩⟩ := ht.exists_head
      · exact hnone (hwhite d hd)
      · obtain ⟨rfl, -⟩ := List.cons.inj hs
        exact hnone hc
    | some x =>
      have hx : suffix (c :: cs) = (some x, cs) := by rw [suffix, hc]
      rw [hx]
      show suffix (x.letter :: t) = _
      rw [Suffix.letter_of_ofLetter? hc, suffix, hc]

theorem baseMark_of_ofLetter? {c : Char} {b : Base} (h : Base.ofLetter? c = some b)
    (cs : List Char) : baseMark ('0' :: c :: cs) = (b, ['0', c], cs) := by
  rw [baseMark, h]

theorem baseMark_eq (s : List Char) :
    baseMark s = (.decimal, [], s) ∨
      ∃ b c cs, Base.ofLetter? c = some b ∧ s = '0' :: c :: cs := by
  unfold baseMark
  split
  · next c cs =>
    split
    · next b hb => exact .inr ⟨b, c, cs, hb, rfl⟩
    · exact .inl rfl
  · exact .inl rfl

/-- White space is no base mark. -/
theorem baseMark_respaced {s t : List Char} (ht : Respaced (baseMark s).2.2 t) :
    baseMark ((baseMark s).2.1 ++ t) = ((baseMark s).1, (baseMark s).2.1, t) := by
  have hwhite : ∀ c ∈ Gap.whites, Base.ofLetter? c = none :=
    Gap.forall_mem_whites.2 (by decide)
  rcases baseMark_eq s with hs | ⟨b, c, cs, hb, rfl⟩
  · rw [hs] at ht ⊢
    rcases baseMark_eq t with h | ⟨b, c, cs, hb, rfl⟩
    · exact h
    · -- A mark in the new text would be one in the old text.
      exfalso
      cases ht with
      | here hc => exact absurd hc (by decide)
      | later _ ht =>
        obtain ⟨d, t', ht', hd | ⟨s', rfl⟩⟩ := ht.exists_head
        · obtain ⟨rfl, -⟩ := List.cons.inj ht'
          rw [hwhite c hd] at hb
          exact nomatch hb
        · obtain ⟨rfl, -⟩ := List.cons.inj ht'
          rw [baseMark_of_ofLetter? hb] at hs
          exact nomatch congrArg (fun r => r.2.1) hs
  · rw [baseMark_of_ofLetter? hb]
    exact baseMark_of_ofLetter? hb t

theorem ofText_eq {s u v r : List Char} {b : Base} {m : List Char} {ps : List Part}
    {x : Option Suffix} (hmark : baseMark s = (b, m, u)) (hparts : Numeral.parts u = (ps, v))
    (hsuffix : Numeral.suffix v = (x, r)) : Written.ofText s = (⟨b, m, ps, x⟩, r) := by
  rw [Written.ofText, hmark]
  dsimp only
  rw [hparts, hsuffix]

theorem read_settled (s : List Char) : Settled read s := by
  intro t ht
  have hsource : (read s).lexeme.source = (Written.ofText s).1.source := Written.source_lexeme _
  suffices h : Written.ofText ((Written.ofText s).1.source ++ t) = ((Written.ofText s).1, t) by
    rw [hsource, read, h]
    rfl
  -- From the end of the numeral back to its beginning.
  have hsuffix : Respaced (Numeral.suffix (Numeral.parts (baseMark s).2.2).2).2 t := ht
  have hparts : Respaced (Numeral.parts (baseMark s).2.2).2 _ :=
    suffix_cuts _ ▸ hsuffix.append _
  have hmark : Respaced (baseMark s).2.2 _ := parts_cuts _ ▸ hparts.append _
  rw [Written.source, List.append_assoc, List.append_assoc]
  exact ofText_eq (baseMark_respaced hmark) (parts_respaced hparts) (suffix_respaced hsuffix)

end Numeral

end ScriptSyntax
