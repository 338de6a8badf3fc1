/-
Blank space and comments between tokens.

What stands between two tokens is not seen in the tokens, but for line breaks:

* `Scan.settled_or_open` — every lexeme ends at a place that white space behind
  it does not move, or takes the whole text;
* `Lexer.exists_contents_eq` — so the lexemes up to where a lexer stands stay what
  they are when white space comes to stand there;
* `map_content_tokenize_blank` — blank space at such a place changes no token;
* `tokenize_comment` — and a comment is read as a space, or as a line break.

Design notes: `Gap.Passable` says of a text that it is blank space wherever it
stands.  A comment that is not closed is not passable.
-/
import ScriptSyntax.Proofs.Lexical.Closing
import ScriptSyntax.Proofs.Lexical.Run

namespace ScriptSyntax

open Reading

/-! ### Gaps -/

namespace Gap

theorem gap_blank {c : Char} (h : isBlank c) (s : List Char) :
    gap (c :: s) = (c :: (gap s).1, (gap s).2) := by
  rw [gap.eq_def]
  split
  · next h₁ => cases h₁
  · next h₁ =>
    obtain ⟨rfl, -⟩ := List.cons.inj h₁
    exact absurd h (by decide)
  · next h₁ =>
    obtain ⟨rfl, rfl⟩ := List.cons.inj h₁
    exact if_pos h

theorem gap_block {s b r : List Char} (h : blockComment s = (b, r)) :
    gap ('/' :: '*' :: s) =
      if '\n' ∈ b then ([], '/' :: '*' :: s) else ('/' :: '*' :: (b ++ (gap r).1), (gap r).2) := by
  rw [gap, h]

theorem gap_of_comment?_eq_none {c : Char} (hblank : isBlank c = false) {s : List Char}
    (h : Scan.comment? (c :: s) = none) : gap (c :: s) = ([], c :: s) := by
  rw [gap.eq_def]
  split
  · next h₁ => cases h₁
  · next h₁ =>
    rw [h₁] at h
    cases h
  · next h₁ =>
    obtain ⟨rfl, rfl⟩ := List.cons.inj h₁
    rw [hblank]
    rfl

theorem gap_line (s : List Char) : gap ('/' :: '/' :: s) = ([], '/' :: '/' :: s) := by
  rw [gap.eq_def]
  rfl

/-- Blank space wherever it stands. -/
def Passable (g : List Char) : Prop :=
  ∀ s, gap (g ++ s) = (g ++ (gap s).1, (gap s).2)

theorem Passable.nil : Passable [] :=
  fun _ => rfl

theorem Passable.append {g h : List Char} (hg : Passable g) (hh : Passable h) :
    Passable (g ++ h) := by
  intro s
  rw [List.append_assoc, hg, hh, List.append_assoc]

theorem Blank.passable {w : List Char} (hw : Blank w) : Passable w := by
  induction w with
  | nil => exact .nil
  | cons c w ih =>
    intro s
    rw [List.cons_append, gap_blank (hw c List.mem_cons_self),
      ih (fun d hd => hw d (List.mem_cons_of_mem c hd))]
    rfl

theorem IsBlockComment.passable {c : List Char} (hc : IsBlockComment c) (hbreak : '\n' ∉ c) :
    Passable c := by
  obtain ⟨body, rfl, hbody⟩ := hc
  intro s
  have hend : blockComment (body ++ ['*', '/'] ++ s) = (body ++ ['*', '/'], s) := by
    rw [List.append_assoc]
    exact blockComment_append hbody s
  have hnot : '\n' ∉ body ++ ['*', '/'] := fun h =>
    hbreak (List.mem_cons_of_mem _ (List.mem_cons_of_mem _ h))
  rw [List.cons_append, List.cons_append, gap_block hend, if_neg hnot]
  rfl

/-- A block comment is closed, whatever follows, or it is open. -/
theorem blockComment_cases (s : List Char) :
    (∃ body rest, s = body ++ '*' :: '/' :: rest ∧ ¬ ['*', '/'] <:+: body ++ ['*']) ∨
      ∀ w, Blank w → blockComment (s ++ w) = (s ++ w, []) := by
  by_cases h : ['*', '/'] <:+: s
  · exact .inl (exists_first_closing h)
  · exact .inr fun w hw => blockComment_of_not_infix (not_infix_append h (hw.not_mem rfl))

/-- What a lexer passes on its way from one token to the next. -/
inductive Filler : List Char → Prop where
  | nil : Filler []
  | blank {c : Char} (hc : isBlank c) {g : List Char} (hg : Filler g) : Filler (c :: g)
  | comment {c : List Char} (hc : IsBlockComment c) (hbreak : '\n' ∉ c) {g : List Char}
      (hg : Filler g) : Filler (c ++ g)

theorem Filler.passable {g : List Char} (h : Filler g) : Passable g := by
  induction h with
  | nil => exact .nil
  | blank hc _ ih => exact (Blank.passable (List.forall_mem_singleton.2 hc)).append ih
  | comment hc hbreak _ ih => exact (hc.passable hbreak).append ih

/-- The gap in front of a token is blank space and closed comments. -/
theorem filler_gap {s : List Char} (h : (gap s).2 ≠ []) : Filler (gap s).1 := by
  fun_induction gap s with
  | case1 => exact .nil
  | case2 => exact .nil
  | case3 cs b hbreak ih =>
    rcases blockComment_cases cs with ⟨body, rest, rfl, hbody⟩ | hopen
    · have hb : b = (body ++ ['*', '/'], rest) := blockComment_append hbody rest
      rw [hb] at hbreak ih h ⊢
      have hnot : '\n' ∉ '/' :: '*' :: (body ++ ['*', '/']) := by simpa using hbreak
      exact .comment ⟨body, rfl, hbody⟩ hnot (ih h)
    · have hb : b = (cs, []) := by simpa using hopen [] .nil
      rw [hb, gap] at h
      exact absurd rfl h
  | case4 c cs _ hc ih => exact .blank hc (ih h)
  | case5 => exact .nil

theorem passable_gap {s : List Char} (h : (gap s).2 ≠ []) : Passable (gap s).1 :=
  (filler_gap h).passable

/-- Behind the gap there is no other gap. -/
theorem gap_gap (s : List Char) : gap (gap s).2 = ([], (gap s).2) := by
  fun_induction gap s with
  | case1 => rw [gap]
  | case2 cs b hbreak => rw [gap_block rfl, if_pos hbreak]
  | case3 cs b _ ih => exact ih
  | case4 c cs _ _ ih => exact ih
  | case5 c cs hcomment hc =>
    rw [gap.eq_def]
    split
    · next h₁ => cases h₁
    · next h₁ =>
      obtain ⟨rfl, rfl⟩ := List.cons.inj h₁
      exact absurd rfl (hcomment _ rfl)
    · next h₁ =>
      obtain ⟨rfl, rfl⟩ := List.cons.inj h₁
      rw [if_neg hc]

/-- A text of blank space only stays one with more blank space. -/
theorem gap_append_blank {s w : List Char} (h : (gap s).2 = []) (hw : Blank w) :
    (gap (s ++ w)).2 = [] := by
  fun_induction gap s with
  | case1 =>
    have := hw.passable []
    rw [List.append_nil] at this
    rw [List.nil_append, this, gap]
  | case2 => cases h
  | case3 cs b hbreak ih =>
    rw [List.cons_append, List.cons_append]
    rcases blockComment_cases cs with ⟨body, rest, rfl, hbody⟩ | hopen
    · have hb : b = (body ++ ['*', '/'], rest) := blockComment_append hbody rest
      have hw' : blockComment (body ++ '*' :: '/' :: rest ++ w) =
          (body ++ ['*', '/'], rest ++ w) := by
        rw [List.append_assoc]
        exact blockComment_append hbody (rest ++ w)
      rw [hb] at hbreak ih h
      rw [gap_block hw', if_neg hbreak]
      exact ih h
    · have hb : b = (cs, []) := by simpa using hopen [] .nil
      have hnot : '\n' ∉ cs ++ w := by
        rw [hb] at hbreak
        exact fun hmem => (List.mem_append.1 hmem).elim hbreak (hw.not_mem rfl)
      rw [gap_block (hopen w hw), if_neg hnot, gap]
  | case4 c cs _ hc ih =>
    rw [List.cons_append, gap_blank hc]
    exact ih h
  | case5 => cases h

end Gap

/-! ### Lexemes -/

namespace Scan

theorem marks_not_white {k : TokenKind} (hk : k ∈ TokenKind.marks) :
    ∀ c ∈ k.spelling.toList, c ∉ Gap.whites := by
  have hall : TokenKind.marks.all fun k => k.spelling.toList.all (· ∉ Gap.whites) := by
    decide +kernel
  intro c hc
  exact of_decide_eq_true (List.all_eq_true.1 (List.all_eq_true.1 hall k hk) c hc)

theorem mark?_respaced {s t : List Char} (ht : Respaced s t)
    (hmark : ∀ k, mark? s = some k → k.spelling.toList <+: t) : mark? t = mark? s := by
  -- No other mark comes up.
  have hnew : ∀ k ∈ TokenKind.marks, k.spelling.toList <+: t → k.spelling.toList <+: s :=
    fun k hk => ht.isPrefix (marks_not_white hk)
  cases hs : mark? s with
  | none =>
    refine List.find?_eq_none.2 fun k hk hbegins => ?_
    refine List.find?_eq_none.1 hs k hk ?_
    rw [List.isPrefixOf_iff_prefix] at hbegins ⊢
    exact hnew k hk hbegins
  | some k =>
    obtain ⟨-, before, behind, hmarks, hbefore⟩ := List.find?_eq_some_iff_append.1 hs
    refine List.find?_eq_some_iff_append.2 ⟨?_, before, behind, hmarks, fun j hj => ?_⟩
    · exact List.isPrefixOf_iff_prefix.2 (hmark k hs)
    · have hj' : j ∈ TokenKind.marks := by
        rw [hmarks]
        exact List.mem_append_left _ hj
      have hnot := hbefore j hj
      rw [Bool.not_eq_true', Bool.eq_false_iff, ne_eq, List.isPrefixOf_iff_prefix] at hnot ⊢
      exact fun hbegins => hnot (hnew j hj' hbegins)

theorem readMark_of_mark? {c : Char} {cs : List Char} {k : TokenKind}
    (h : mark? (c :: cs) = some k) :
    readMark c cs = ⟨.whole k k.spelling.toList k.spelling.toList,
      (c :: cs).drop k.spelling.toList.length⟩ := by
  rw [readMark, h]

theorem readMark_of_none {c : Char} {cs : List Char} (h : mark? (c :: cs) = none) :
    readMark c cs = ⟨.bad (.unexpectedCharacter c) [c], cs⟩ := by
  rw [readMark, h]

theorem readMark_settled (c : Char) (cs : List Char) :
    Settled (fun u => readMark c u.tail) (c :: cs) := by
  intro t ht
  have hcuts : (readMark c cs).lexeme.source ++ (readMark c cs).rest = c :: cs :=
    readMark_cuts c cs
  have hmoved : Respaced (c :: cs) ((readMark c cs).lexeme.source ++ t) := by
    have := ht.append (readMark c cs).lexeme.source
    exact hcuts ▸ this
  show readMark c ((readMark c cs).lexeme.source ++ t).tail = ⟨(readMark c cs).lexeme, t⟩
  cases hs : mark? (c :: cs) with
  | none =>
    rw [readMark_of_none hs] at hmoved ⊢
    refine readMark_of_none (Eq.trans ?_ hs)
    exact mark?_respaced hmoved fun k hk => absurd (hs.symm.trans hk) nofun
  | some k =>
    rw [readMark_of_mark? hs] at hmoved ⊢
    have hbegins := isPrefix_of_mark? hs
    cases hspelling : k.spelling.toList with
    | nil => exact absurd hspelling k.toList_spelling_ne_nil
    | cons d ds =>
      rw [hspelling] at hbegins
      obtain ⟨rfl, -⟩ := List.cons_prefix_cons.1 hbegins
      have hsome : mark? (d :: (ds ++ t)) = some k := by
        rw [← hs]
        refine mark?_respaced (by simpa [hspelling] using hmoved) fun j hj => ?_
        obtain rfl := Option.some.inj (hs.symm.trans hj)
        rw [hspelling]
        exact List.prefix_append (d :: ds) t
      show readMark d (ds ++ t) = _
      rw [readMark_of_mark? hsome, hspelling]
      simp

/-- The reader of the lexemes that begin with a character. -/
def reader (c : Char) : List Char → Reading :=
  if isWordStart c then readWord
  else if c.isDigit then Numeral.read
  else if c = '"' then fun s => TextLiteral.readString s.tail
  else if c = '\'' then fun s => TextLiteral.readCharacter s.tail
  else fun s => readMark c s.tail

theorem reader_settled_or_open (c : Char) (cs : List Char) :
    Settled (reader c) (c :: cs) ∨ Open (reader c) (c :: cs) := by
  unfold reader
  split_ifs with hword hdigit hstring hcharacter
  · exact .inl (readWord_settled _)
  · exact .inl (Numeral.read_settled _)
  · subst hstring
    exact TextLiteral.readString_settled_or_open cs
  · subst hcharacter
    exact TextLiteral.readCharacter_settled_or_open cs
  · exact .inl (readMark_settled c cs)

theorem readAt_eq_reader {c : Char} {cs : List Char} (hbreak : c ≠ '\n')
    (hcomment : comment? (c :: cs) = none) : readAt c cs = reader c (c :: cs) := by
  rw [readAt, if_neg hbreak, hcomment, reader]
  dsimp only
  split_ifs <;> rfl

/-- The next lexeme where no gap comes first. -/
theorem next_of_gap {c : Char} {cs : List Char} (h : Gap.gap (c :: cs) = ([], c :: cs)) :
    next (c :: cs) = readAt c cs := by
  rw [next, h]
  rfl

theorem next_passable {g : List Char} (hg : Gap.Passable g) (s : List Char) :
    next (g ++ s) = ⟨(next s).lexeme.behind g, (next s).rest⟩ := by
  rw [next, next, hg s]
  rcases Gap.gap s with ⟨h, _ | ⟨c, cs⟩⟩
  · rfl
  · simp [Lexeme.behind]

/-! How the lexemes end where no gap comes first. -/

theorem comment_prefix_of_isSome {s : List Char} (h : (comment? s).isSome) :
    ['/', '/'] <+: s ∨ ['/', '*'] <+: s := by
  unfold comment? at h
  split at h
  · exact .inl (List.prefix_append ['/', '/'] _)
  · exact .inr (List.prefix_append ['/', '*'] _)
  · exact nomatch h

/-- White space makes no comments. -/
theorem comment?_respaced {s t : List Char} (ht : Respaced s t) (h : comment? s = none) :
    comment? t = none := by
  have hnone : ∀ {m : List Char}, m <+: s → ∀ x xs, m = '/' :: x :: xs → x = '/' ∨ x = '*' →
      False := by
    rintro m ⟨u, rfl⟩ x xs rfl (rfl | rfl)
    · exact nomatch h
    · exact nomatch h
  refine Option.not_isSome_iff_eq_none.1 fun hsome => ?_
  rcases comment_prefix_of_isSome hsome with hbegins | hbegins
  · exact hnone (ht.isPrefix (by simp [Gap.whites]) hbegins) _ _ rfl (.inl rfl)
  · exact hnone (ht.isPrefix (by simp [Gap.whites]) hbegins) _ _ rfl (.inr rfl)

section

variable {c : Char} {cs : List Char}

theorem next_eq_reader (hblank : Gap.isBlank c = false) (hbreak : c ≠ '\n')
    (hcomment : comment? (c :: cs) = none) : next (c :: cs) = reader c (c :: cs) := by
  rw [next_of_gap (Gap.gap_of_comment?_eq_none hblank hcomment),
    readAt_eq_reader hbreak hcomment]

/-- Neither a gap nor a comment comes up in front when the text behind is moved. -/
theorem next_eq_reader_respaced (hblank : Gap.isBlank c = false) (hbreak : c ≠ '\n')
    (hcomment : comment? (c :: cs) = none) {t : List Char} (ht : Respaced (c :: cs) (c :: t)) :
    next (c :: t) = reader c (c :: t) :=
  next_eq_reader hblank hbreak (comment?_respaced ht hcomment)

theorem settled_of_reader (hblank : Gap.isBlank c = false) (hbreak : c ≠ '\n')
    (hcomment : comment? (c :: cs) = none) (hsettled : Settled (reader c) (c :: cs)) :
    Settled next (c :: cs) := by
  have hread : next (c :: cs) = reader c (c :: cs) := next_eq_reader hblank hbreak hcomment
  intro t ht
  have hcuts : (next (c :: cs)).lexeme.source ++ (next (c :: cs)).rest = c :: cs := next_cuts _
  have hne : (next (c :: cs)).lexeme.source ≠ [] := by
    rw [next_of_gap (Gap.gap_of_comment?_eq_none hblank hcomment)]
    exact source_readAt_ne_nil c cs
  have hmoved := hcuts ▸ ht.append (next (c :: cs)).lexeme.source
  obtain ⟨source, hsource⟩ : ∃ source, (next (c :: cs)).lexeme.source = c :: source := by
    cases hs : (next (c :: cs)).lexeme.source with
    | nil => exact absurd hs hne
    | cons d source =>
      rw [hs] at hcuts
      obtain ⟨rfl, -⟩ := List.cons.inj hcuts
      exact ⟨source, rfl⟩
  rw [hsource, List.cons_append] at hmoved ⊢
  rw [next_eq_reader_respaced hblank hbreak hcomment hmoved, ← List.cons_append, ← hsource, hread]
  rw [hread] at ht
  exact hsettled t ht

theorem settled_or_open_of_reader (hblank : Gap.isBlank c = false) (hbreak : c ≠ '\n')
    (hcomment : comment? (c :: cs) = none) :
    Settled next (c :: cs) ∨ Open next (c :: cs) := by
  have hread : next (c :: cs) = reader c (c :: cs) := next_eq_reader hblank hbreak hcomment
  rcases reader_settled_or_open c cs with hsettled | hopen
  · exact .inl (settled_of_reader hblank hbreak hcomment hsettled)
  · refine .inr ⟨by rw [hread]; exact hopen.1, fun w hw => ?_⟩
    have hadded : next (c :: cs ++ w) = reader c (c :: cs ++ w) := by
      by_cases hnil : w = []
      · rw [hnil, List.append_nil]
        exact hread
      · exact next_eq_reader_respaced hblank hbreak hcomment
          (Respaced.append_blank (c :: cs) hw hnil)
    rw [hadded, hread]
    exact hopen.2 w hw

end

theorem next_break (s : List Char) : next ('\n' :: s) = ⟨lineBreak [] ['\n'], s⟩ := by
  rw [next_of_gap (Gap.gap_of_comment?_eq_none rfl rfl), readAt, if_pos rfl]

/-- Which comments count as line breaks. -/
theorem gap_comment_iff {s taken rest : List Char} (h : comment? s = some (taken, rest)) :
    Gap.gap s = ([], s) ↔ '\n' ∈ taken ∨ ['/', '/'] <+: taken := by
  unfold comment? at h
  split at h
  · next cs =>
    obtain ⟨rfl, -⟩ := Prod.mk.inj (Option.some.inj h)
    exact ⟨fun _ => .inr (List.prefix_append ['/', '/'] _), fun _ => Gap.gap_line cs⟩
  · next cs =>
    obtain ⟨rfl, -⟩ := Prod.mk.inj (Option.some.inj h)
    rw [Gap.gap_block rfl]
    by_cases hbreak : '\n' ∈ (Gap.blockComment cs).1
    · simp [hbreak]
    · simp [hbreak]
  · exact nomatch h

theorem next_comment {s taken rest : List Char} (h : comment? s = some (taken, rest))
    (hbreak : '\n' ∈ taken ∨ ['/', '/'] <+: taken) : next s = ⟨lineBreak taken [], rest⟩ := by
  cases s with
  | nil => exact nomatch h
  | cons c cs =>
    have hc : c ≠ '\n' := by
      rintro rfl
      exact nomatch h
    rw [next_of_gap ((gap_comment_iff h).2 hbreak), readAt, if_neg hc, h]

theorem settled_or_open_of_comment {s : List Char} (hgap : Gap.gap s = ([], s))
    (h : (comment? s).isSome) : Settled next s ∨ Open next s := by
  rcases comment?_cases h with ⟨front, rest, rfl, hread⟩ | hopen
  · have hbreak := (gap_comment_iff (hread rest)).1 hgap
    exact .inl (Fixed.settled
      ⟨front, rest, lineBreak front [], rfl, fun t => next_comment (hread t) hbreak⟩ (next_cuts _))
  · have hs : comment? s = some (s, []) := by simpa using hopen [] .nil
    have hbreak := (gap_comment_iff hs).1 hgap
    refine .inr ⟨by rw [next_comment hs hbreak], fun w hw => ?_⟩
    have hbreak' : '\n' ∈ s ++ w ∨ ['/', '/'] <+: s ++ w :=
      hbreak.imp (List.mem_append_left w) fun hbegins => hbegins.trans (List.prefix_append s w)
    rw [next_comment (hopen w hw) hbreak', next_comment hs hbreak]
    exact ⟨rfl, rfl⟩

theorem settled_or_open_of_gap {s : List Char} (hgap : Gap.gap s = ([], s)) (hs : s ≠ []) :
    Settled next s ∨ Open next s := by
  cases s with
  | nil => exact absurd rfl hs
  | cons c cs =>
    have hblank : Gap.isBlank c = false := by
      refine Bool.eq_false_iff.2 fun hblank => ?_
      rw [Gap.gap_blank hblank] at hgap
      exact nomatch hgap
    by_cases hbreak : c = '\n'
    · subst hbreak
      exact .inl (Fixed.settled ⟨['\n'], cs, lineBreak [] ['\n'], rfl, next_break⟩ (next_cuts _))
    · cases hcomment : comment? (c :: cs) with
      | none => exact settled_or_open_of_reader hblank hbreak hcomment
      | some _ => exact settled_or_open_of_comment hgap (by rw [hcomment]; rfl)

/-- Every lexeme but the end of the text ends at a place that white space behind
it does not move, or takes the whole text and blank space behind it. -/
theorem settled_or_open {s : List Char} (h : (Gap.gap s).2 ≠ []) :
    Settled next s ∨ Open next s := by
  -- The gap in front stays a gap, so only the lexeme behind it matters.
  have hpass := Gap.passable_gap h
  have hs : (Gap.gap s).1 ++ (Gap.gap s).2 = s := Gap.gap_cuts s
  have hnext := fun u => next_passable hpass u
  rcases settled_or_open_of_gap (Gap.gap_gap s) h with hsettled | hopen
  · refine .inl fun t ht => ?_
    rw [← hs, hnext] at ht ⊢
    rw [Lexeme.source_behind, List.append_assoc, hnext, hsettled t ht]
  · refine .inr ⟨?_, fun w hw => ?_⟩
    · rw [← hs, hnext]
      exact hopen.1
    · rw [← hs, List.append_assoc, hnext, hnext]
      exact hopen.2 w hw

/-! ### Runs -/

theorem lexemes_of_kind {s : List Char} (h : (next s).lexeme.kind = .endOfInput) :
    lexemes s = [(next s).lexeme] := by
  rw [lexemes]
  exact if_pos h

theorem lexemes_of_kind_ne {s : List Char} (h : (next s).lexeme.kind ≠ .endOfInput) :
    lexemes s = (next s).lexeme :: lexemes (next s).rest := by
  rw [lexemes]
  exact if_neg h

theorem kind_next_iff {s : List Char} :
    (next s).lexeme.kind = .endOfInput ↔ (Gap.gap s).2 = [] := by
  unfold next
  split
  · next gap h =>
    rw [h]
    exact ⟨fun _ => rfl, fun _ => rfl⟩
  · next gap c cs h =>
    rw [h]
    exact ⟨fun hkind => absurd hkind (kind_readAt_ne c cs), fun hnil => nomatch hnil⟩

/-- What the parser sees of a text. -/
def contents (s : List Char) : List (TokenKind × String) :=
  (lexemes s).map Lexeme.content

theorem contents_of_kind {s : List Char} (h : (next s).lexeme.kind = .endOfInput) :
    contents s = [(.endOfInput, TokenKind.endOfInput.spelling)] := by
  rw [contents, lexemes_of_kind h, next_of_kind h]
  rfl

theorem contents_of_kind_ne {s : List Char} (h : (next s).lexeme.kind ≠ .endOfInput) :
    contents s = (next s).lexeme.content :: contents (next s).rest := by
  rw [contents, lexemes_of_kind_ne h]
  rfl

/-- Texts are alike whose first lexemes are, if they leave the same text. -/
theorem contents_congr {s t : List Char}
    (hcontent : (next s).lexeme.content = (next t).lexeme.content)
    (hrest : contents (next s).rest = contents (next t).rest) : contents s = contents t := by
  have hkind : (next s).lexeme.kind = (next t).lexeme.kind := congrArg Prod.fst hcontent
  by_cases h : (next s).lexeme.kind = .endOfInput
  · rw [contents_of_kind h, contents_of_kind (hkind ▸ h)]
  · have ht : (next t).lexeme.kind ≠ .endOfInput := fun ht => h (hkind.trans ht)
    rw [contents_of_kind_ne h, contents_of_kind_ne ht, hcontent, hrest]

/-- What is passable is not seen at the front of a text. -/
theorem contents_passable {g : List Char} (hg : Gap.Passable g) (s : List Char) :
    contents (g ++ s) = contents s := by
  refine contents_congr ?_ ?_
  · rw [next_passable hg, Lexeme.content_behind]
  · rw [next_passable hg]

/-- Blank space is not seen at the end of a text. -/
theorem contents_append_blank (s : List Char) {w : List Char} (hw : Gap.Blank w) :
    contents (s ++ w) = contents s := by
  induction hlength : s.length using Nat.strongRecOn generalizing s with
  | ind length ih =>
    by_cases h : (next s).lexeme.kind = .endOfInput
    · have hw' := kind_next_iff.2 (Gap.gap_append_blank (kind_next_iff.1 h) hw)
      rw [contents_of_kind h, contents_of_kind hw']
    · have hcuts : (next s).lexeme.source ++ (next s).rest = s := next_cuts s
      have hlt : (next s).rest.length < length := hlength ▸ length_rest_next_lt h
      rcases settled_or_open (fun hnil => h (kind_next_iff.2 hnil)) with hsettled | hopen
      · by_cases hnil : w = []
        · rw [hnil, List.append_nil]
        · have hnext : next (s ++ w) = ⟨(next s).lexeme, (next s).rest ++ w⟩ := by
            have := hsettled _ (Respaced.append_blank _ hw hnil)
            rwa [← List.append_assoc, hcuts] at this
          refine contents_congr (by rw [hnext]) ?_
          rw [hnext]
          exact ih _ hlt _ rfl
      · refine contents_congr (hopen.2 w hw).2 ?_
        rw [hopen.1, (hopen.2 w hw).1]

end Scan

namespace Lexer

open Scan

theorem unread_calls_nil {l : Lexer} (h : l.unread = []) (k : Nat) : (l.calls k).2.unread = [] := by
  obtain ⟨p, s⟩ := l
  subst h
  rw [calls_nil]

/-- Up to where a lexer stands the lexemes stay what they are when white space
comes to stand there. -/
theorem exists_contents_eq {l : Lexer} {k : Nat} {s : List Char}
    (h : (l.calls k).2.unread = s) (hs : s ≠ []) :
    ∃ before xs, l.unread = before ++ s ∧
      ∀ t, t = s ∨ Respaced s t → contents (before ++ t) = xs ++ contents t := by
  induction k generalizing l with
  | zero => exact ⟨[], [], h, fun t _ => rfl⟩
  | succ k ih =>
    -- A lexeme that took the whole text would leave nothing to stand in front of.
    obtain ⟨before, xs, hrest, hcontents⟩ := ih (l := l.next.2) h
    have hrest : (Scan.next l.unread).rest = before ++ s := hrest
    have hne : (Scan.next l.unread).rest ≠ [] := fun hnil => hs (h ▸ unread_calls_nil hnil k)
    have hkind : (Scan.next l.unread).lexeme.kind ≠ .endOfInput := by
      intro hkind
      rw [Scan.next_of_kind hkind] at hne
      exact hne rfl
    have hcuts : (Scan.next l.unread).lexeme.source ++ (Scan.next l.unread).rest = l.unread :=
      next_cuts _
    have hsettled : Settled Scan.next l.unread :=
      (settled_or_open fun hnil => hkind (kind_next_iff.2 hnil)).resolve_right fun hopen =>
        hne hopen.1
    refine ⟨(Scan.next l.unread).lexeme.source ++ before,
      (Scan.next l.unread).lexeme.content :: xs, ?_, ?_⟩
    · rw [List.append_assoc, ← hrest, hcuts]
    · intro t ht
      have hnext : Scan.next ((Scan.next l.unread).lexeme.source ++ (before ++ t)) =
          ⟨(Scan.next l.unread).lexeme, before ++ t⟩ := by
        rcases ht with rfl | ht
        · rw [← hrest, hcuts]
        · refine hsettled _ ?_
          rw [hrest]
          exact ht.append before
      rw [List.append_assoc, contents_of_kind_ne (by rw [hnext]; exact hkind), hnext,
        hcontents t ht]
      rfl

/-- A lexer stands in front of some text, and what it is in front of is changed
behind white space. -/
theorem contents_respaced {l : Lexer} {k : Nat} {p s t : List Char} (hl : l.unread = p ++ s)
    (h : (l.calls k).2.unread = s) (hs : s ≠ []) (ht : Respaced s t)
    (hsame : contents s = contents t) : contents (p ++ s) = contents (p ++ t) := by
  obtain ⟨before, xs, hbefore, hcontents⟩ := exists_contents_eq h hs
  obtain rfl : p = before := List.append_cancel_right (hl.symm.trans hbefore)
  rw [hcontents s (.inl rfl), hcontents t (.inr ht), hsame]

end Lexer

/-! ### Tokens -/

namespace Token

/-- A token without its place. -/
def content (t : Token) : TokenKind × String :=
  (t.kind, t.text)

end Token

theorem Lexeme.map_content_place (p : Span) (xs : List Lexeme) :
    (Lexeme.place p xs).map Token.content = xs.map Lexeme.content := by
  induction xs generalizing p with
  | nil => rfl
  | cons x xs ih =>
    rw [Lexeme.place, List.map_cons, List.map_cons, ih]
    rfl

theorem map_content_tokenize (cs : List Char) :
    (tokenize (String.ofList cs)).map Token.content = Scan.contents cs := by
  show (Lexeme.place _ (Scan.lexemes (String.ofList cs).toList)).map _ = _
  rw [Lexeme.map_content_place, String.toList_ofList]
  rfl

/-- Blank space in front of a token is not seen in the tokens. -/
theorem map_content_tokenize_blank {p s w : List Char} {k : Nat}
    (h : ((Lexer.ofText (String.ofList (p ++ s))).calls k).2.unread = s) (hw : Gap.Blank w) :
    (tokenize (String.ofList (p ++ w ++ s))).map Token.content =
      (tokenize (String.ofList (p ++ s))).map Token.content := by
  rw [map_content_tokenize, map_content_tokenize, List.append_assoc]
  by_cases hs : s = []
  · rw [hs, List.append_nil, List.append_nil]
    exact Scan.contents_append_blank p hw
  · cases w with
    | nil => rfl
    | cons c w =>
      have hc : c ∈ Gap.whites := Gap.mem_whites_of_isBlank (hw c List.mem_cons_self)
      refine (Lexer.contents_respaced ?_ h hs (.here hc s (w ++ s)) ?_).symm
      · exact String.toList_ofList
      · exact (Scan.contents_passable hw.passable s).symm

/-! ### Comments -/

/-- A lexer that reads `p ++ s` from the start comes to the front of `s` between
two tokens. -/
def Lexer.ComesTo (p s : List Char) : Prop :=
  ∃ k g, Gap.Filler g ∧ ((Lexer.ofText (String.ofList (p ++ s))).calls k).2.unread = g ++ s

namespace Scan

theorem next_blockComment {c : List Char} (hc : Gap.IsBlockComment c) (hbreak : '\n' ∈ c)
    (s : List Char) : next (c ++ s) = ⟨lineBreak c [], s⟩ := by
  obtain ⟨body, rfl, hbody⟩ := hc
  exact next_comment (comment?_block hbody s) (.inl hbreak)

theorem next_lineComment {c : List Char} (hc : Gap.IsLineComment c) (s : List Char) :
    next (c ++ s) = ⟨lineBreak c [], s⟩ := by
  obtain ⟨body, rfl, hbody⟩ := hc
  exact next_comment (comment?_line hbody s) (.inr (List.prefix_append ['/', '/'] _))

end Scan

/-- The white space that a comment is read as. -/
inductive Gap.ReadAs : List Char → Char → Prop where
  | space {c : List Char} (hc : IsBlockComment c) (hbreak : '\n' ∉ c) : ReadAs c ' '
  | lines {c : List Char} (hc : IsBlockComment c) (hbreak : '\n' ∈ c) : ReadAs c '\n'
  | line {c : List Char} (hc : IsLineComment c) : ReadAs c '\n'

namespace Gap.ReadAs

theorem mem_whites {c : List Char} {w : Char} (h : ReadAs c w) : w ∈ whites := by
  cases h <;> decide

theorem ne_nil {c : List Char} {w : Char} (h : ReadAs c w) : c ≠ [] := by
  cases h with
  | space hc =>
    obtain ⟨body, rfl, -⟩ := hc
    exact List.cons_ne_nil _ _
  | lines hc =>
    obtain ⟨body, rfl, -⟩ := hc
    exact List.cons_ne_nil _ _
  | line hc =>
    obtain ⟨body, rfl, -⟩ := hc
    exact List.cons_ne_nil _ _

/-- A comment in front of a text and the white space that it is read as. -/
theorem contents_eq {c : List Char} {w : Char} (h : ReadAs c w) (s : List Char) :
    Scan.contents (c ++ s) = Scan.contents (w :: s) := by
  cases h with
  | space hc hbreak =>
    have hblank : Blank [' '] := List.forall_mem_singleton.2 rfl
    exact (Scan.contents_passable (hc.passable hbreak) s).trans
      (Scan.contents_passable hblank.passable s).symm
  | lines hc hbreak =>
    have hc := Scan.next_blockComment hc hbreak s
    refine Scan.contents_congr ?_ ?_
    · rw [hc, Scan.next_break]
      rfl
    · rw [hc, Scan.next_break]
  | line hc =>
    have hc := Scan.next_lineComment hc s
    refine Scan.contents_congr ?_ ?_
    · rw [hc, Scan.next_break]
      rfl
    · rw [hc, Scan.next_break]

end Gap.ReadAs

/-- **Comments are white space.**  Where the lexer comes to a closed comment
between two tokens, a space may stand for it, or a line break if it is a line
comment or goes over several lines: kinds and texts of the tokens are the same. -/
theorem tokenize_comment {p c r : List Char} {w : Char} (hc : Gap.ReadAs c w)
    (h : Lexer.ComesTo p (c ++ r)) :
    (tokenize (String.ofList (p ++ c ++ r))).map Token.content =
      (tokenize (String.ofList (p ++ w :: r))).map Token.content := by
  obtain ⟨k, g, hg, hcalls⟩ := h
  have hne : g ++ (c ++ r) ≠ [] := by
    simp [hc.ne_nil]
  -- The lexer stands in front of the filler, which ends where the comment begins.
  obtain ⟨before, xs, hbefore, -⟩ := Lexer.exists_contents_eq hcalls hne
  have hp : p = before ++ g := by
    have hcut : p ++ (c ++ r) = before ++ g ++ (c ++ r) := by
      rw [List.append_assoc, ← hbefore]
      exact String.toList_ofList.symm
    exact List.append_cancel_right hcut
  rw [map_content_tokenize, map_content_tokenize, hp]
  simp only [List.append_assoc]
  refine Lexer.contents_respaced ?_ hcalls hne ?_ ?_
  · exact hbefore
  · exact (Respaced.here hc.mem_whites (c ++ r) r).append g
  · rw [Scan.contents_passable hg.passable, Scan.contents_passable hg.passable]
    exact hc.contents_eq r

/-- A line comment behind a block comment: the text is read as `1 2`, with a line
break. -/
theorem tokenize_comment_behind_comment :
    let p := ['1', '/', '*', '*', '/', ' ']
    let c := ['/', '/', ' ', '+', '\n']
    (tokenize (String.ofList (p ++ c ++ ['2']))).map Token.content =
      (tokenize (String.ofList (p ++ '\n' :: ['2']))).map Token.content := by
  intro p c
  have hline : Gap.IsLineComment c := ⟨[' ', '+'], rfl, by decide⟩
  have hblock : Gap.IsBlockComment ['/', '*', '*', '/'] := ⟨[], rfl, by decide⟩
  have hfiller : Gap.Filler ['/', '*', '*', '/', ' '] :=
    .comment hblock (by decide) (.blank rfl .nil)
  have hcomes : Lexer.ComesTo p (c ++ ['2']) := ⟨1, _, hfiller, by decide +kernel⟩
  exact tokenize_comment (.line hline) hcomes

end ScriptSyntax
