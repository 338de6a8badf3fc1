/-
`!in` in front of an identifier.

Words are reserved only as a whole.  With `!in` it is otherwise: an exclamation mark is looked
at together with the two characters behind it, and not with what follows these.

* `Identifier.wholeWordTokens` — the tokens of an exclamation mark and an identifier, if `!in`
  were read as a whole word only;
* `Scan.mark?_bang_in` and `Scan.mark?_bang` — which mark begins at the exclamation mark;
* `tokenize_bang_iff` — the tokens are those exactly if the identifier is `in` or does not begin
  with `in`; of any other identifier `!in` takes the first two characters away.
-/
import ScriptSyntax.Proofs.Lexical.LongestMatch
import ScriptSyntax.Proofs.Lexical.TextUnits

namespace ScriptSyntax

/-! ### The exclamation mark -/

namespace Scan

/-- The marks that begin with an exclamation mark. -/
theorem eq_of_head?_bang : ∀ k ∈ TokenKind.marks, k.spelling.toList.head? = some '!' →
    k = .notIn ∨ k = .notEqual ∨ k = .bang := by
  decide +kernel

theorem mark?_bang_in (s : List Char) : mark? ('!' :: 'i' :: 'n' :: s) = some .notIn := by
  rfl

theorem mark?_bang {s : List Char} (hin : ¬ ['i', 'n'] <+: s) (hequal : ¬ ['='] <+: s) :
    mark? ('!' :: s) = some .bang := by
  cases hmark : mark? ('!' :: s) with
  | none =>
    have hnot := List.find?_eq_none.1 hmark .bang (by decide)
    exact absurd (List.isPrefixOf_iff_prefix.2 (List.prefix_append ['!'] s)) hnot
  | some k =>
    have hbegins := isPrefix_of_mark? hmark
    have hhead : k.spelling.toList.head? = some '!' := by
      cases hspelling : k.spelling.toList with
      | nil => exact absurd hspelling k.toList_spelling_ne_nil
      | cons c cs =>
        rw [hspelling] at hbegins
        rw [(List.cons_prefix_cons.1 hbegins).1]
        rfl
    rcases eq_of_head?_bang k (List.mem_of_find?_eq_some hmark) hhead with rfl | rfl | rfl
    · exact absurd (List.cons_prefix_cons.1 hbegins).2 hin
    · exact absurd (List.cons_prefix_cons.1 hbegins).2 hequal
    · rfl

theorem next_bang {s : List Char} {k : TokenKind} (h : mark? ('!' :: s) = some k) :
    next ('!' :: s) = ⟨.whole k k.spelling.toList k.spelling.toList,
      ('!' :: s).drop k.spelling.toList.length⟩ := by
  rw [next_eq_reader rfl (by decide) rfl]
  exact readMark_of_mark? h

end Scan

theorem tokenize_bang_in (s : List Char) :
    tokenize (String.ofList ('!' :: 'i' :: 'n' :: s)) =
      ⟨.notIn, "!in", .start⟩ :: (tokenize (String.ofList s)).map (Token.shift ⟨1, 4⟩) :=
  tokenize_eq_cons (Scan.next_bang (Scan.mark?_bang_in s)) (by decide)

theorem tokenize_bang {s : List Char} (hin : ¬ ['i', 'n'] <+: s) (hequal : ¬ ['='] <+: s) :
    tokenize (String.ofList ('!' :: s)) =
      ⟨.bang, "!", .start⟩ :: (tokenize (String.ofList s)).map (Token.shift ⟨1, 2⟩) :=
  tokenize_eq_cons (Scan.next_bang (Scan.mark?_bang hin hequal)) (by decide)

/-! ### Identifiers -/

namespace Identifier

/-- The tokens of an exclamation mark and the identifier right behind it, if `!in` were read as
a whole word only. -/
def wholeWordTokens (w : Identifier) : List Token :=
  if w.chars = ['i', 'n'] then [⟨.notIn, "!in", .start⟩, .endAt ⟨1, 4⟩]
  else ⟨.bang, "!", .start⟩ :: (tokenize (String.ofList w.chars)).map (Token.shift ⟨1, 2⟩)

theorem not_equal_prefix (w : Identifier) : ¬ ['='] <+: w.chars := fun h =>
  absurd (w.isWordChar _ (h.subset List.mem_cons_self)) (by decide)

/-- An identifier on its own is one token. -/
theorem tokenize_chars (w : Identifier) :
    tokenize (String.ofList w.chars) =
      [⟨w.kind, String.ofList w.chars, .start⟩, .endAt ⟨1, 1 + w.chars.length⟩] := by
  have hnext := Spelled.next_word w (t := []) (.inl rfl)
  rw [List.append_nil] at hnext
  have hbreak : '\n' ∉ w.chars := (Spelled.word w).newline_notMem_written
  rw [tokenize_of_next hnext (Spelled.word w).kind_ne, ← Span.after_start]
  exact congrArg _ (congrArg (fun p => [Token.endAt p]) (Spelled.after_of_notMem hbreak 1 1))

/-- An identifier that begins with `in` gives those tokens only if it is `in`. -/
theorem tokens_eq_wholeWordTokens_iff (w : Identifier) {s : List Char}
    (hs : w.chars = 'i' :: 'n' :: s) :
    ⟨.notIn, "!in", .start⟩ :: (tokenize (String.ofList s)).map (Token.shift ⟨1, 4⟩) =
      w.wholeWordTokens ↔ w.chars = ['i', 'n'] := by
  rw [wholeWordTokens]
  by_cases hin : w.chars = ['i', 'n']
  · obtain rfl : s = [] := by simpa [hs] using hin
    rw [if_pos hin]
    exact iff_of_true (by decide +kernel) hin
  · rw [if_neg hin]
    refine iff_of_false (fun h => ?_) hin
    exact absurd (congrArg Token.kind (List.cons.inj h).1) (by decide)

end Identifier

/-- **`!in` is no whole word.**  An exclamation mark right in front of an identifier is read by
itself, and the identifier behind it as it is read alone, if the identifier does not begin with
`in`; and `!in` is read if it is `in`.  If the identifier goes on behind `in`, then `!in` is read
nevertheless, and what is left of the identifier is read alone. -/
theorem tokenize_bang_iff (w : Identifier) :
    (tokenize (String.ofList ('!' :: w.chars)) = w.wholeWordTokens ↔
      w.chars = ['i', 'n'] ∨ ¬ ['i', 'n'] <+: w.chars) ∧
    (tokenize (String.ofList ('!' :: w.chars)) =
      if ['i', 'n'] <+: w.chars then
        ⟨.notIn, "!in", .start⟩ ::
          (tokenize (String.ofList (w.chars.drop 2))).map (Token.shift ⟨1, 4⟩)
      else
        ⟨.bang, "!", .start⟩ :: (tokenize (String.ofList w.chars)).map (Token.shift ⟨1, 2⟩)) ∧
    tokenize (String.ofList w.chars) =
      [⟨w.kind, String.ofList w.chars, .start⟩, .endAt ⟨1, 1 + w.chars.length⟩] := by
  refine and_assoc.1 ⟨?_, w.tokenize_chars⟩
  by_cases hin : ['i', 'n'] <+: w.chars
  · have ⟨s, happend⟩ := hin
    have hs : w.chars = 'i' :: 'n' :: s := happend.symm
    rw [or_iff_left (not_not_intro hin), if_pos hin, hs, tokenize_bang_in, ← hs]
    exact ⟨w.tokens_eq_wholeWordTokens_iff hs, by rw [hs]; rfl⟩
  · have hne : w.chars ≠ ['i', 'n'] := fun h => hin (h ▸ List.prefix_rfl)
    rw [if_neg hin, tokenize_bang hin w.not_equal_prefix, Identifier.wholeWordTokens, if_neg hne]
    exact ⟨iff_of_true rfl (.inr hin), rfl⟩

/-- `!int` is read as `!in` and `t`. -/
theorem not_forall_wholeWordTokens :
    ¬ ∀ w : Identifier, tokenize (String.ofList ('!' :: w.chars)) = w.wholeWordTokens := by
  intro h
  let int : Identifier := ⟨'i', ['n', 't'], rfl, List.all_eq_true.1 rfl⟩
  have hread : tokenize "!int" =
      [⟨.notIn, "!in", ⟨1, 1⟩⟩, ⟨.word, "t", ⟨1, 4⟩⟩, .endAt ⟨1, 5⟩] := by
    decide +kernel
  have hwhole : int.wholeWordTokens =
      [⟨.bang, "!", ⟨1, 1⟩⟩, ⟨.word, "int", ⟨1, 2⟩⟩, .endAt ⟨1, 5⟩] := by
    decide +kernel
  cases (hread.symm.trans (h int)).trans hwhole

end ScriptSyntax
