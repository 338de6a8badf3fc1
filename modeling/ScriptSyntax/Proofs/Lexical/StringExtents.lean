/-
How far strings go.

A string ends at the first quotation mark that is not escaped.  Whether a mark is escaped can be
seen without reading the string from its beginning: one only has to count the backslashes right
before it.

* `TextLiteral.ClosesAt` says of a quotation mark that an even number of backslashes stands
  right before it, and `TextLiteral.FirstClosing` that it is the first one;
* `TextLiteral.closing_of_firstClosing` and `TextLiteral.closing_of_not_closesAt` — a string is
  closed by that mark, and if there is none it is not closed;
* `TextLiteral.textOf_unescape` — without backslashes the text of a string is its content, but
  for the white space that is dropped;
* `Lexer.next_string` — what is read where a string begins.

Design notes: the lexer takes a backslash and the character behind it together.  What it takes
together ends in an even number of backslashes, and so it can be put in front of a text without
changing which marks close: both ways of counting agree by one induction.
-/
import ScriptSyntax.Proofs.Lexical.Restart
import ScriptSyntax.Proofs.Text.Decoding

namespace ScriptSyntax

namespace TextLiteral

/-! ### Backslashes in front of a mark -/

/-- The number of backslashes that a text ends with. -/
def backslashes (s : List Char) : Nat :=
  (s.reverse.takeWhile (· = '\\')).length

/-- A quotation mark stands at a place, and behind an even number of backslashes. -/
def ClosesAt (s : List Char) (q : Nat) : Prop :=
  s[q]? = some '"' ∧ Even (backslashes (s.take q))

/-- The first quotation mark of this sort stands at a place. -/
def FirstClosing (s : List Char) (q : Nat) : Prop :=
  ClosesAt s q ∧ ∀ j < q, ¬ ClosesAt s j

instance (s : List Char) (q : Nat) : Decidable (ClosesAt s q) :=
  inferInstanceAs (Decidable (_ ∧ _))

instance (s : List Char) (q : Nat) : Decidable (FirstClosing s q) :=
  inferInstanceAs (Decidable (_ ∧ ∀ j < q, _))

variable {s f : List Char} {q j : Nat}

theorem backslashes_append (f s : List Char) :
    backslashes (f ++ s) =
      if backslashes s = s.length then s.length + backslashes f else backslashes s := by
  rw [backslashes, List.reverse_append, List.takeWhile_append, List.length_reverse]
  show List.length (if backslashes s = s.length then _ else _) = _
  split
  · rw [List.length_append, List.length_reverse]
    rfl
  · rfl

theorem even_backslashes_append (hf : Even (backslashes f)) (s : List Char) :
    Even (backslashes (f ++ s)) ↔ Even (backslashes s) := by
  rw [backslashes_append]
  split
  · next h => rw [Nat.even_add, iff_true_right hf, h]
  · rfl

/-- What stands in front and ends in an even number of backslashes does not matter. -/
theorem closesAt_append (hf : Even (backslashes f)) :
    ClosesAt (f ++ s) (f.length + j) ↔ ClosesAt s j := by
  rw [ClosesAt, ClosesAt, List.getElem?_append_right (Nat.le_add_right _ _),
    Nat.add_sub_cancel_left, List.take_length_add_append, even_backslashes_append hf]

theorem ClosesAt.lt_length (h : ClosesAt s q) : q < s.length :=
  (List.getElem?_eq_some_iff.1 h.1).1

theorem not_closesAt_nil (q : Nat) : ¬ ClosesAt [] q :=
  fun h => absurd h.lt_length (Nat.not_lt_zero q)

theorem FirstClosing.unique {i : Nat} (hq : FirstClosing s q) (hi : FirstClosing s i) : q = i := by
  rcases Nat.lt_trichotomy q i with hlt | heq | hlt
  · exact absurd hq.1 (hi.2 q hlt)
  · exact heq
  · exact absurd hi.1 (hq.2 i hlt)

/-! ### Reading up to the mark -/

/-- What is taken together in the middle of a string: any other character than a quotation mark
and a backslash, or a backslash with the character behind it. -/
inductive Together : List Char → Prop where
  | plain {c : Char} (hquote : c ≠ '"') (hescape : c ≠ '\\') : Together [c]
  | escape (d : Char) : Together ['\\', d]

namespace Together

theorem even_backslashes (hf : Together f) : Even (backslashes f) := by
  cases hf with
  | plain _ hescape => simp [backslashes, hescape]
  | escape d => by_cases hd : d = '\\' <;> simp [backslashes, hd]

theorem not_closesAt (hf : Together f) (s : List Char) (hj : j < f.length) :
    ¬ ClosesAt (f ++ s) j := by
  rintro ⟨hmark, heven⟩
  cases hf with
  | plain hquote _ =>
    obtain rfl := Nat.lt_one_iff.1 hj
    exact hquote (Option.some.inj hmark)
  | escape d =>
    rcases j with _ | _ | j
    · exact absurd (Option.some.inj hmark) (by decide)
    · exact absurd heven (by decide : ¬ Even (backslashes ['\\']))
    · exact absurd hj (by simp)

theorem closing_append (hf : Together f) (s : List Char) :
    closing (f ++ s) = (closing s).map fun r => (f ++ r.1, r.2) := by
  cases hf with
  | plain hquote hescape => exact closing_other hquote hescape s
  | escape d => exact closing_escape d s

theorem firstClosing_append (hf : Together f) (h : FirstClosing s q) :
    FirstClosing (f ++ s) (f.length + q) := by
  refine ⟨(closesAt_append hf.even_backslashes).2 h.1, fun j hj => ?_⟩
  by_cases hin : j < f.length
  · exact hf.not_closesAt s hin
  · obtain ⟨i, rfl⟩ := Nat.exists_eq_add_of_le (Nat.le_of_not_lt hin)
    rw [closesAt_append hf.even_backslashes]
    exact h.2 i (by omega)

theorem not_closesAt_append (hf : Together f) (h : ∀ q, ¬ ClosesAt s q) (q : Nat) :
    ¬ ClosesAt (f ++ s) q := by
  by_cases hin : q < f.length
  · exact hf.not_closesAt s hin
  · obtain ⟨i, rfl⟩ := Nat.exists_eq_add_of_le (Nat.le_of_not_lt hin)
    rw [closesAt_append hf.even_backslashes]
    exact h i

end Together

/-- A string is closed by the mark that one finds by counting, or there is none. -/
def ClosedByCount (s : List Char) : Prop :=
  (∃ q, FirstClosing s q ∧ closing s = some (s.take q, s.drop (q + 1))) ∨
    (∀ q, ¬ ClosesAt s q) ∧ closing s = none

theorem Together.closedByCount (hf : Together f) (h : ClosedByCount s) :
    ClosedByCount (f ++ s) := by
  rcases h with ⟨q, hq, hclosing⟩ | ⟨hnone, hclosing⟩
  · refine .inl ⟨f.length + q, hf.firstClosing_append hq, ?_⟩
    rw [hf.closing_append, hclosing, Nat.add_assoc, List.take_length_add_append,
      List.drop_length_add_append]
    rfl
  · refine .inr ⟨hf.not_closesAt_append hnone, ?_⟩
    rw [hf.closing_append, hclosing]
    rfl

theorem closedByCount (s : List Char) : ClosedByCount s := by
  fun_induction closing s with
  | case1 => exact .inr ⟨not_closesAt_nil, rfl⟩
  | case2 cs =>
    exact .inl ⟨0, ⟨⟨rfl, Even.zero⟩, fun j hj => absurd hj (Nat.not_lt_zero j)⟩,
      closing_quote cs⟩
  | case3 =>
    refine .inr ⟨fun q h => ?_, rfl⟩
    obtain rfl := Nat.lt_one_iff.1 h.lt_length
    exact absurd (Option.some.inj h.1) (by decide)
  | case4 d ds _ ih => exact (Together.escape d).closedByCount ih
  | case5 c cs hquote hescape ih => exact (Together.plain hquote hescape).closedByCount ih

theorem closing_of_firstClosing (h : FirstClosing s q) :
    closing s = some (s.take q, s.drop (q + 1)) := by
  rcases closedByCount s with ⟨i, hi, hclosing⟩ | ⟨hnone, -⟩
  · rw [h.unique hi]
    exact hclosing
  · exact absurd h.1 (hnone q)

theorem closing_of_not_closesAt (h : ∀ q, ¬ ClosesAt s q) : closing s = none := by
  rcases closedByCount s with ⟨q, hq, -⟩ | ⟨-, hclosing⟩
  · exact absurd hq.1 (h q)
  · exact hclosing

/-! ### Content without backslashes -/

theorem unescape_of_notMem (h : '\\' ∉ s) :
    unescape s = Utf8.encode (s.filter (!isDropped ·)) := by
  induction s with
  | nil => rw [unescape]; rfl
  | cons c cs ih =>
    rw [List.mem_cons, not_or] at h
    rw [unescape, if_neg (Ne.symm h.1), ih h.2]
    by_cases hc : isDropped c
    · rw [if_pos hc, List.filter_cons_of_neg (by simp [hc])]
    · rw [if_neg hc, List.filter_cons_of_pos (by simp [hc])]
      rfl

theorem textOf_encode (s : List Char) : textOf (Utf8.encode s) = s := by
  rw [textOf, Utf8.decodeLossy, Utf8.decode_encode, List.map_map]
  exact List.map_id s

/-- Without escapes the text of a string is its content, without the white space that is
dropped. -/
theorem textOf_unescape (h : '\\' ∉ s) : textOf (unescape s) = s.filter (!isDropped ·) := by
  rw [unescape_of_notMem h, textOf_encode]

end TextLiteral

open TextLiteral

/-- In front of a quotation mark a string is read. -/
theorem Scan.next_quote (s : List Char) : next ('"' :: s) = readString s := by
  have hcomment : comment? ('"' :: s) = none := rfl
  rw [next_eq_reader rfl (by decide) hcomment]
  rfl

/-- **The extent of strings.**  Where the next token begins with a quotation mark, the lexer
reads a string up to the first quotation mark that stands behind an even number of backslashes,
and if there is no backslash in between its text is all that stands there but the white space
that is dropped.  If there is no such mark, the rest of the text is an error. -/
theorem Lexer.next_string {g : List Char} (hg : Gap.Filler g) (s : List Char) (p : Span) :
    (∀ q, FirstClosing s q →
      (⟨p, g ++ '"' :: s⟩ : Lexer).next =
        (⟨.string, String.ofList (textOf (unescape (s.take q))), p.after g⟩,
          ⟨p.after (g ++ '"' :: s.take (q + 1)), s.drop (q + 1)⟩) ∧
      ('\\' ∉ s.take q → textOf (unescape (s.take q)) =
        (s.take q).filter (· ∉ ['\t', '\n', '\x0b', '\x0c', '\r']))) ∧
    ((∀ q, ¬ ClosesAt s q) →
      (⟨p, g ++ '"' :: s⟩ : Lexer).next =
        (⟨.bad, "Unterminated string", p.after g⟩, ⟨p.after (g ++ '"' :: s), []⟩)) := by
  rw [next_passable hg.passable, next]
  simp only [Scan.next_quote]
  constructor
  · intro q hq
    have hmark : s.take (q + 1) = s.take q ++ ['"'] := by
      rw [List.take_add_one, hq.1.1]
      rfl
    refine ⟨?_, fun hnot => ?_⟩
    · rw [readString, closing_of_firstClosing hq, hmark, Span.after_append]
      rfl
    · rw [textOf_unescape hnot]
      refine List.filter_congr fun c _ => Bool.eq_iff_iff.2 ?_
      simp [isDropped, and_assoc]
  · intro hnone
    rw [readString, closing_of_not_closesAt hnone, Span.after_append]
    rfl

/-- `"a\"b\\"` is a string, although a quotation mark stands in it, and `"\"` is none. -/
theorem Lexer.next_string_escaped :
    Gap.Filler [' '] ∧ FirstClosing ['a', '\\', '"', 'b', '\\', '\\', '"', 'c'] 6 ∧
      (⟨.start, [' ', '"', 'a', '\\', '"', 'b', '\\', '\\', '"', 'c']⟩ : Lexer).next =
        (⟨.string, "a\"b\\", ⟨1, 2⟩⟩, ⟨⟨1, 10⟩, ['c']⟩) ∧
      (∀ q, ¬ ClosesAt ['\\', '"'] q) ∧
      (⟨.start, ['"', '\\', '"']⟩ : Lexer).next =
        (⟨.bad, "Unterminated string", .start⟩, ⟨⟨1, 4⟩, []⟩) := by
  have hfiller : Gap.Filler [' '] := .blank rfl .nil
  have hfirst : FirstClosing ['a', '\\', '"', 'b', '\\', '\\', '"', 'c'] 6 := by
    decide +kernel
  have hclosed := ((next_string hfiller _ .start).1 6 hfirst).1
  have hnone : ∀ q, ¬ ClosesAt ['\\', '"'] q :=
    (Together.escape '"').not_closesAt_append not_closesAt_nil
  have hopen := (next_string .nil _ .start).2 hnone
  have htext : textOf (unescape ['a', '\\', '"', 'b', '\\', '\\']) = ['a', '"', 'b', '\\'] := by
    decide +kernel
  refine ⟨hfiller, hfirst, hclosed.trans ?_, hnone, hopen⟩
  rw [show List.take 6 _ = ['a', '\\', '"', 'b', '\\', '\\'] from rfl, htext]
  rfl

end ScriptSyntax
