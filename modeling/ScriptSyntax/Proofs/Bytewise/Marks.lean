/-
Words and marks byte by byte.

Words and marks are made of single bytes.  A mark is told by its first byte and by one or two
more, and it is the same mark that is found in the list of all marks, longer ones first.  A byte
that begins none of this is the first one of a character that begins no token, whole as it is.

* `Scan.marksAt c` — the marks that begin with `c`, and how they go on;
* `Scan.markStarts` — the characters that begin a mark at all;
* `ByteCursor.reads_readWord` and `ByteCursor.reads_readMark` — words and marks are read alike in
  bytes and in characters;
* `ByteCursor.character?_before` — between two characters the bytes that are decoded are the
  bytes of the next one;
* `ByteCursor.reads_readUnexpected` — so it is reported.

Design notes: the tests of the marks are put as tests of the bytes behind the first one.  That the
marks with some first byte are those of the tests is looked up in the list.
-/
import ScriptSyntax.Proofs.Bytewise.Literals

namespace ScriptSyntax

/-! ### Marks by their first character -/

namespace Scan

variable {c : Char} {cs ds : List Char} {k : TokenKind}

/-- The marks that begin with `c`, longer ones first, and what follows `c` in them. -/
def marksAt (c : Char) : List (TokenKind × List Char) :=
  TokenKind.marks.filterMap fun k =>
    match k.spelling.toList with
    | [] => none
    | d :: ds => if d = c then some (k, ds) else none

theorem mem_marksAt : (k, ds) ∈ marksAt c ↔ k ∈ TokenKind.marks ∧ k.spelling.toList = c :: ds := by
  rw [marksAt, List.mem_filterMap]
  constructor
  · rintro ⟨j, hj, he⟩
    split at he
    · exact absurd he.symm (Option.some_ne_none _)
    · next d es hspelling =>
      obtain ⟨rfl, hsome⟩ := (Option.ite_none_right_eq_some ..).1 he
      obtain ⟨rfl, rfl⟩ := Prod.mk.inj (Option.some.inj hsome)
      exact ⟨hj, hspelling⟩
  · rintro ⟨hk, hspelling⟩
    refine ⟨k, hk, ?_⟩
    rw [hspelling]
    exact if_pos rfl

/-- The longest mark is looked for among those that begin with the first character. -/
theorem mark?_cons (c : Char) (cs : List Char) :
    mark? (c :: cs) = ((marksAt c).find? (·.2.isPrefixOf cs)).map (·.1) := by
  rw [mark?, marksAt]
  induction TokenKind.marks with
  | nil => rfl
  | cons k ks ih =>
    rw [List.find?_cons, List.filterMap_cons]
    cases hspelling : k.spelling.toList with
    | nil => exact absurd hspelling k.toList_spelling_ne_nil
    | cons d ds =>
      simp only
      by_cases hd : d = c
      · rw [if_pos hd, List.find?_cons, ih, hd, List.isPrefixOf_cons_cons_self]
        cases ds.isPrefixOf cs <;> rfl
      · have hnot : (d :: ds).isPrefixOf (c :: cs) = false := by
          rw [List.isPrefixOf_cons_cons, beq_false_of_ne hd, Bool.false_and]
        rw [if_neg hd, hnot]
        exact ih

/-- The characters that begin a mark. -/
def markStarts : List Char :=
  ['(', ')', '\x7b', '\x7d', '[', ']', ';', ',', ':', '.', '?', '$', '@', '#', '~', '/', '+', '-',
    '*', '%', '=', '^', '&', '|', '!', '<', '>']

/-- A character that begins a mark is one, whatever follows. -/
theorem mark?_eq_none_iff : mark? (c :: cs) = none ↔ c ∉ markStarts := by
  have hstarts : TokenKind.marks.all fun k => k.spelling.toList.head?.all (· ∈ markStarts) := by
    decide +kernel
  have hsingle : markStarts.all fun c => (marksAt c).any (·.2.isEmpty) := by
    decide +kernel
  rw [mark?_cons, Option.map_eq_none_iff, List.find?_eq_none]
  constructor
  · intro h hc
    -- The character alone is a mark, which is found if no longer one is.
    obtain ⟨e, he, hempty⟩ := List.any_eq_true.1 (List.all_eq_true.1 hsingle c hc)
    refine h e he ?_
    rw [List.isEmpty_iff.1 hempty]
    rfl
  · rintro hc ⟨k, ds⟩ he
    obtain ⟨hk, hspelling⟩ := mem_marksAt.1 he
    have hfirst := List.all_eq_true.1 hstarts k hk
    rw [hspelling] at hfirst
    exact absurd (of_decide_eq_true hfirst) hc

theorem narrow_markStarts : ∀ c ∈ markStarts, c.toNat < 0x80 := by
  have hall : markStarts.all (·.toNat < 0x80) := by decide
  exact fun c hc => of_decide_eq_true (List.all_eq_true.1 hall c hc)

theorem marks_narrow {k : TokenKind} (hk : k ∈ TokenKind.marks) :
    ∀ c ∈ k.spelling.toList, c.toNat < 0x80 := by
  have hall : TokenKind.marks.all fun k => k.spelling.toList.all (·.toNat < 0x80) := by
    decide +kernel
  intro c hc
  exact of_decide_eq_true (List.all_eq_true.1 (List.all_eq_true.1 hall k hk) c hc)

end Scan

namespace ByteCursor

open Utf8

variable {x : ByteCursor} {p : Span} {a b c fallback : Char} {cs ds s : List Char} {k : TokenKind}

/-! ### Words -/

theorem narrow_isWordChar : Narrow Scan.isWordChar := by
  intro c hc
  simp only [Scan.isWordChar, Char.isAlphanum, Char.isAlpha, Char.isUpper, Char.isLower,
    Bool.or_eq_true, Bool.and_eq_true, decide_eq_true_eq, beq_iff_eq] at hc
  rcases hc with ((⟨-, hupper⟩ | ⟨-, hlower⟩) | hdigit) | rfl
  · exact Nat.lt_of_le_of_lt hupper (by decide)
  · exact Nat.lt_of_le_of_lt hlower (by decide)
  · exact narrow_isDigit c hdigit
  · decide

theorem takeWhile_unread {q : Char → Bool} (hq : Narrow q) (p : Span) (s : List Char) :
    (before p s).unread.takeWhile (q <| charOf ·) = encode (s.takeWhile q) := by
  have hnarrow : ∀ c ∈ s.takeWhile q, c.toNat < 0x80 := fun c hc =>
    hq c (List.all_eq_true.1 List.all_takeWhile c hc)
  have hlength : ((before p s).unread.takeWhile (q <| charOf ·)).length =
      (encode (s.takeWhile q)).length := by
    rw [encode_narrow hnarrow, ← takeWhile_ahead hq p s, ahead, List.takeWhile_map,
      List.length_map]
    rfl
  have hsplit : (before p s).unread = encode (s.takeWhile q) ++ encode (s.dropWhile q) := by
    rw [unread_before, ← encode_append, List.takeWhile_append_dropWhile]
  rw [List.prefix_iff_eq_take.1 (List.takeWhile_prefix _), hlength, hsplit, List.take_left]

/-- **A word is read byte by byte.** -/
theorem reads_readWord (p : Span) (s : List Char) :
    Reads p (Scan.readWord s) (before p s).readWord := by
  have hword : decodeLossy (encode (s.takeWhile Scan.isWordChar)) = s.takeWhile Scan.isWordChar :=
    TextLiteral.textOf_encode _
  rw [Reads, readWord, takeWhile_unread narrow_isWordChar, skipWhile_before narrow_isWordChar,
    hword]
  rfl

/-! ### Marks -/

theorem isPrefixOf_singleton (hc : c.toNat < 0x80) (ha : a.toNat < 0x80) (p : Span)
    (cs : List Char) :
    [a].isPrefixOf cs = decide ((before p (c :: cs)).peekAt 1 = some a) := by
  rw [peekAt_one hc, Bool.eq_iff_iff, decide_eq_true_iff, peek_eq_some_iff ha,
    List.isPrefixOf_iff_prefix, List.singleton_prefix_iff_head?_eq_some]

theorem isPrefixOf_pair (hc : c.toNat < 0x80) (ha : a.toNat < 0x80) (hb : b.toNat < 0x80)
    (p : Span) (cs : List Char) :
    [a, b].isPrefixOf cs = decide ((before p (c :: cs)).peekAt 1 = some a ∧
      (before p (c :: cs)).peekAt 2 = some b) := by
  rw [Bool.eq_iff_iff, decide_eq_true_iff, List.isPrefixOf_iff_prefix, List.cons_prefix_iff,
    peekAt_one hc, peek_eq_some_iff ha]
  constructor
  · rintro ⟨t, rfl, ht⟩
    refine ⟨List.head?_cons, ?_⟩
    rwa [peekAt_two hc ha, peek_eq_some_iff hb, ← List.singleton_prefix_iff_head?_eq_some]
  · rintro ⟨hhead, ht⟩
    obtain ⟨t, rfl⟩ := List.head?_eq_some_iff.1 hhead
    refine ⟨t, rfl, ?_⟩
    rwa [peekAt_two hc ha, peek_eq_some_iff hb, ← List.singleton_prefix_iff_head?_eq_some] at ht

/-- The mark that has been found is taken. -/
theorem reads_take (ds : List Char)
    (h : (Scan.marksAt c).find? (·.2.isPrefixOf cs) = some (k, ds)) (p : Span) :
    Reads p (Scan.readMark c cs) ((before p (c :: cs)).take k (ds.length + 1)) := by
  obtain ⟨hk, hspelling⟩ := Scan.mem_marksAt.1 (List.mem_of_find?_eq_some h)
  have hmark : Scan.mark? (c :: cs) = some k := by
    rw [Scan.mark?_cons, h]
    rfl
  have hcut := List.prefix_iff_eq_append.1 (Scan.isPrefix_of_mark? hmark)
  have hadvance := advanceBy_narrow (Scan.marks_narrow hk) p
    ((c :: cs).drop k.spelling.toList.length)
  rw [hcut] at hadvance
  have hlength : ds.length + 1 = k.spelling.toList.length := by
    rw [hspelling]
    rfl
  rw [Reads, Scan.readMark, hmark, take, hlength, hadvance]
  simp only [Lexeme.tokenAt, Lexeme.whole, String.ofList_toList]
  rfl

/-- A mark of one byte that no other mark begins with. -/
theorem reads_single (hmarks : Scan.marksAt c = [(k, [])]) (p : Span) (cs : List Char) :
    Reads p (Scan.readMark c cs) ((before p (c :: cs)).take k 1) := by
  refine reads_take [] ?_ p
  rw [hmarks]
  rfl

/-- A mark of one byte, or of two. -/
theorem reads_operator {single : TokenKind} (hc : c.toNat < 0x80) (ha : a.toNat < 0x80)
    (hmarks : Scan.marksAt c = [(k, [a]), (single, [])]) (p : Span) (cs : List Char) :
    Reads p (Scan.readMark c cs) ((before p (c :: cs)).readOperator single [(a, k)]) := by
  have hprefix := isPrefixOf_singleton hc ha p cs
  by_cases h : (before p (c :: cs)).peekAt 1 = some a
  · have hread : Reads p (Scan.readMark c cs) ((before p (c :: cs)).take k 2) :=
      reads_take [a] (by simp [hmarks, hprefix, h]) p
    simpa [readOperator, h] using hread
  · have hread : Reads p (Scan.readMark c cs) ((before p (c :: cs)).take single 1) :=
      reads_take [] (by simp [hmarks, hprefix, h]) p
    simpa [readOperator, h] using hread

/-- A mark of one byte, or of two that end in either of two ways. -/
theorem reads_operator₂ {single l : TokenKind} (hc : c.toNat < 0x80) (ha : a.toNat < 0x80)
    (hb : b.toNat < 0x80) (hne : a ≠ b)
    (hmarks : Scan.marksAt c = [(l, [b]), (k, [a]), (single, [])]) (p : Span) (cs : List Char) :
    Reads p (Scan.readMark c cs) ((before p (c :: cs)).readOperator single [(a, k), (b, l)]) := by
  have hprefix := isPrefixOf_singleton hc ha p cs
  have hprefix' := isPrefixOf_singleton hc hb p cs
  by_cases h : (before p (c :: cs)).peekAt 1 = some a
  · have hread : Reads p (Scan.readMark c cs) ((before p (c :: cs)).take k 2) :=
      reads_take [a] (by simp [hmarks, hprefix, hprefix', h, hne]) p
    simpa [readOperator, h] using hread
  by_cases h' : (before p (c :: cs)).peekAt 1 = some b
  · have hread : Reads p (Scan.readMark c cs) ((before p (c :: cs)).take l 2) :=
      reads_take [b] (by simp [hmarks, hprefix', h']) p
    simpa [readOperator, h', hne.symm] using hread
  · have hread : Reads p (Scan.readMark c cs) ((before p (c :: cs)).take single 1) :=
      reads_take [] (by simp [hmarks, hprefix, hprefix', h, h']) p
    simpa [readOperator, h, h'] using hread

/-- A comparison or a shift. -/
theorem reads_shift {single singleAssign shift shiftAssign : TokenKind} (hc : c.toNat < 0x80)
    (hne : c ≠ '=')
    (hmarks : Scan.marksAt c =
      [(shiftAssign, [c, '=']), (singleAssign, ['=']), (shift, [c]), (single, [])])
    (p : Span) (cs : List Char) :
    Reads p (Scan.readMark c cs)
      ((before p (c :: cs)).readShift c single singleAssign shift shiftAssign) := by
  have hboth := isPrefixOf_pair hc hc (b := '=') (by decide) p cs
  have hself := isPrefixOf_singleton hc hc p cs
  have hequal := isPrefixOf_singleton hc (a := '=') (by decide) p cs
  by_cases h : (before p (c :: cs)).peekAt 1 = some c
  · by_cases h' : (before p (c :: cs)).peekAt 2 = some '='
    · have hread : Reads p (Scan.readMark c cs) ((before p (c :: cs)).take shiftAssign 3) :=
        reads_take [c, '='] (by simp [hmarks, hboth, h, h']) p
      simpa [readShift, h, h'] using hread
    · have hread : Reads p (Scan.readMark c cs) ((before p (c :: cs)).take shift 2) :=
        reads_take [c] (by simp [hmarks, hboth, hself, hequal, h, h', hne]) p
      simpa [readShift, h, h'] using hread
  by_cases h' : (before p (c :: cs)).peekAt 1 = some '='
  · have hread : Reads p (Scan.readMark c cs) ((before p (c :: cs)).take singleAssign 2) :=
      reads_take ['='] (by simp [hmarks, hboth, hequal, h', hne.symm]) p
    simpa [readShift, h', hne.symm] using hread
  · have hread : Reads p (Scan.readMark c cs) ((before p (c :: cs)).take single 1) :=
      reads_take [] (by simp [hmarks, hboth, hself, hequal, h, h']) p
    simpa [readShift, h, h'] using hread

/-- An exclamation mark, alone or not. -/
theorem reads_bang (p : Span) (cs : List Char) :
    Reads p (Scan.readMark '!' cs)
      (if (before p ('!' :: cs)).peekAt 1 = some 'i' ∧
          (before p ('!' :: cs)).peekAt 2 = some 'n' then
        (before p ('!' :: cs)).take .notIn 3
      else (before p ('!' :: cs)).readOperator .bang [('=', .notEqual)]) := by
  have hmarks : Scan.marksAt '!' = [(.notIn, ['i', 'n']), (.notEqual, ['=']), (.bang, [])] := by
    decide +kernel
  have hin := isPrefixOf_pair (c := '!') (a := 'i') (b := 'n') (by decide) (by decide) (by decide)
    p cs
  have hequal := isPrefixOf_singleton (c := '!') (a := '=') (by decide) (by decide) p cs
  by_cases h : (before p ('!' :: cs)).peekAt 1 = some 'i' ∧
      (before p ('!' :: cs)).peekAt 2 = some 'n'
  · rw [if_pos h]
    exact reads_take ['i', 'n'] (by simp [hmarks, hin, h]) p
  rw [if_neg h]
  by_cases h' : (before p ('!' :: cs)).peekAt 1 = some '='
  · have hread : Reads p (Scan.readMark '!' cs) ((before p ('!' :: cs)).take .notEqual 2) :=
      reads_take ['='] (by simp [hmarks, hin, hequal, h']) p
    simpa [readOperator, h'] using hread
  · have hread : Reads p (Scan.readMark '!' cs) ((before p ('!' :: cs)).take .bang 1) :=
      reads_take [] (by simp [hmarks, hin, hequal, h, h']) p
    simpa [readOperator, h'] using hread

/-! ### What is no mark -/

theorem slice_before (p : Span) (c : Char) (s : List Char) :
    (before p (c :: s)).slice = encodeChar c := by
  obtain ⟨b, bs, hbytes, hwidth, -⟩ := encodeChar_eq_cons c
  have hunread : (before p (c :: s)).unread = b :: bs ++ encode s := by
    rw [unread_before, encode_cons, hbytes]
  rw [slice, hunread, List.cons_append, widthAt, hwidth, hbytes, ← List.cons_append]
  exact List.take_left' rfl

/-- **The bytes under a cursor between two characters are the next character.** -/
theorem character?_before (p : Span) (c : Char) (s : List Char) :
    (before p (c :: s)).character? = some c := by
  have hdecode : decode? (encodeChar c) = some [c] :=
    decode?_eq_some_iff.2 (List.flatMap_singleton encodeChar c)
  rw [character?, slice_before, hdecode]
  rfl

theorem readUnexpected_before (p : Span) (c : Char) (s : List Char) :
    (before p (c :: s)).readUnexpected fallback =
      (bad (.unexpectedCharacter c) p, before (p.step c) s) := by
  obtain ⟨b, bs, hbytes, hwidth, -⟩ := encodeChar_eq_cons c
  have hwidthAt : widthAt (before p (c :: s)).unread = (encodeChar c).length := by
    rw [unread_before, encode_cons, hbytes]
    exact hwidth
  rw [readUnexpected, character?_before, hwidthAt, advanceBy_encodeChar]
  rfl

/-- What begins no mark is reported as the character that it is. -/
theorem reads_readUnexpected (h : Scan.mark? (c :: cs) = none) (p : Span) :
    Reads p (Scan.readMark c cs) ((before p (c :: cs)).readUnexpected fallback) := by
  rw [Reads, readUnexpected_before, Scan.readMark, h]
  rfl

theorem readMark_of_notMem (h : c ∉ Scan.markStarts) (x : ByteCursor) :
    x.readMark fallback c = x.readUnexpected fallback := by
  unfold readMark
  split
  case h_28 => rfl
  all_goals exact absurd (by decide) h

/-- **Marks are read byte by byte.** -/
theorem reads_readMark (hc : c.toNat < 0x80) (p : Span) (cs : List Char) :
    Reads p (Scan.readMark c cs) ((before p (c :: cs)).readMark fallback c) := by
  by_cases hstart : c ∈ Scan.markStarts
  · simp only [Scan.markStarts, List.mem_cons, List.not_mem_nil, or_false] at hstart
    rcases hstart with rfl | rfl | rfl | rfl | rfl | rfl | rfl | rfl | rfl | rfl | rfl | rfl | rfl |
      rfl | rfl | rfl | rfl | rfl | rfl | rfl | rfl | rfl | rfl | rfl | rfl | rfl | rfl
    -- Brackets and the like come first, each the only mark with its first byte.
    iterate 15 exact reads_single (by decide +kernel) p cs
    · exact reads_operator hc (by decide) (by decide +kernel) p cs
    · exact reads_operator₂ hc (by decide) (by decide) (by decide) (by decide +kernel) p cs
    · exact reads_operator₂ hc (by decide) (by decide) (by decide) (by decide +kernel) p cs
    · exact reads_operator hc (by decide) (by decide +kernel) p cs
    · exact reads_operator hc (by decide) (by decide +kernel) p cs
    · exact reads_operator hc (by decide) (by decide +kernel) p cs
    · exact reads_operator hc (by decide) (by decide +kernel) p cs
    · exact reads_operator₂ hc (by decide) (by decide) (by decide) (by decide +kernel) p cs
    · exact reads_operator₂ hc (by decide) (by decide) (by decide) (by decide +kernel) p cs
    · exact reads_bang p cs
    · exact reads_shift hc (by decide) (by decide +kernel) p cs
    · exact reads_shift hc (by decide) (by decide +kernel) p cs
  · rw [readMark_of_notMem hstart]
    exact reads_readUnexpected (Scan.mark?_eq_none_iff.2 hstart) p

end ByteCursor

end ScriptSyntax
