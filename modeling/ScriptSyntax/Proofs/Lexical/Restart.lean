/-
A lexer can be started anywhere.

What is read from some place on depends on the text behind that place, and on
nothing before it: neither on what the tokens there were nor on how they ended.
The places of the tokens are those that they have in the text behind, counted on
from where that text begins.

* `Span.shift p q` is the place `q`, counted from `p`;
* `Lexer.calls_after` and `Lexer.drain_after` — a lexer reads the same tokens from
  any place, each counted from there;
* `Lexer.Reached.memoryless` — so a lexer in the middle of a text reads what a new lexer
  reads from the rest of the text, also where it has just passed a comment.

Design notes: the places that come up in a new lexer are those behind some
characters at the beginning of its text, and `Span.shift_counted` is about these
only.
-/
import ScriptSyntax.Proofs.Lexical.Respacing

namespace ScriptSyntax

/-! ### Places counted from a place -/

namespace Span

/-- The place that is `q` if one begins to count at `p`. -/
def shift (p q : Span) : Span :=
  if q.line = 1 then ⟨p.line, q.column + p.column - 1⟩ else ⟨q.line + p.line - 1, q.column⟩

/-- Counting goes on alike from both places. -/
theorem step_shift (p : Span) {q : Span} (hline : 1 ≤ q.line) (hcolumn : 1 ≤ q.column) (c : Char) :
    (p.shift q).step c = p.shift (q.step c) := by
  rw [shift, step, step, shift]
  by_cases hc : c = '\n'
  · -- Behind a line break the column is counted anew, and so is not shifted.
    rw [if_pos hc, if_pos hc, if_neg (show q.line + 1 ≠ 1 by omega), mk.injEq]
    refine ⟨?_, rfl⟩
    split
    · show p.line + 1 = q.line + 1 + p.line - 1
      omega
    · show q.line + p.line - 1 + 1 = q.line + 1 + p.line - 1
      omega
  · rw [if_neg hc, if_neg hc]
    by_cases hfirst : q.line = 1
    · rw [if_pos hfirst, if_pos hfirst, mk.injEq]
      refine ⟨rfl, ?_⟩
      show q.column + p.column - 1 + 1 = q.column + 1 + p.column - 1
      omega
    · rw [if_neg hfirst, if_neg hfirst]

theorem after_counted (cs ds : List Char) : (counted cs).after ds = counted (cs ++ ds) := by
  rw [← after_start, ← after_start, after_append]

/-- The place behind some characters, counted from `p`, is where they lead from
`p`. -/
theorem shift_counted (p : Span) (cs : List Char) : p.shift (counted cs) = p.after cs := by
  induction cs using List.reverseRecOn with
  | nil => simp [counted, shift]
  | append_singleton cs c ih =>
    have hline : 1 ≤ (counted cs).line := Nat.le_add_right _ _
    have hcolumn : 1 ≤ (counted cs).column := Nat.le_add_right _ _
    calc p.shift (counted (cs ++ [c]))
        = p.shift ((counted cs).step c) := by rw [← after_counted]; rfl
      _ = (p.after cs).step c := by rw [← step_shift p hline hcolumn, ih]
      _ = p.after (cs ++ [c]) := (after_append p cs [c]).symm

end Span

namespace Token

/-- A token whose place is counted from `p`. -/
def shift (p : Span) (t : Token) : Token :=
  { t with span := p.shift t.span }

end Token

namespace ByteCursor

/-- A cursor whose position is counted from `p`. -/
def shift (p : Span) (x : ByteCursor) : ByteCursor :=
  { x with position := p.shift x.position }

/-- A cursor between two characters is as good as new. -/
theorem shift_before (p : Span) (cs : List Char) : (before .start cs).shift p = before p cs := by
  have hstart : p.shift .start = p := p.shift_counted []
  rw [before, before, shift, hstart]

end ByteCursor

/-! ### Tokens counted from a place -/

theorem Lexeme.tokenAt_after (x : Lexeme) (p : Span) (cs : List Char) :
    x.tokenAt (p.after cs) = (x.tokenAt (.counted cs)).shift p := by
  rw [tokenAt, tokenAt, Token.shift, Span.after_counted, Span.shift_counted, Span.after_append]

theorem Lexeme.place_after (p : Span) (cs : List Char) (xs : List Lexeme) :
    place (p.after cs) xs = (place (.counted cs) xs).map (Token.shift p) := by
  induction xs generalizing cs with
  | nil => rfl
  | cons x xs ih =>
    rw [place, place, List.map_cons, tokenAt_after, ← Span.after_append, ih, Span.after_counted]

namespace Lexer

/-- Tokens are read alike from any place, each counted from there. -/
theorem calls_after (p : Span) (cs s : List Char) (k : Nat) :
    ((⟨p.after cs, s⟩ : Lexer).calls k).1 =
      ((⟨.counted cs, s⟩ : Lexer).calls k).1.map (Token.shift p) := by
  induction k generalizing cs s with
  | zero => rfl
  | succ k ih =>
    have hrest := ih (cs ++ (Scan.next s).lexeme.source) (Scan.next s).rest
    rw [Span.after_append, ← Span.after_counted] at hrest
    rw [calls, calls, List.map_cons]
    exact congrArg₂ List.cons ((Scan.next s).lexeme.tokenAt_after p cs) hrest

theorem drain_after (p : Span) (s : List Char) :
    (⟨p, s⟩ : Lexer).drain.1 = (⟨.start, s⟩ : Lexer).drain.1.map (Token.shift p) :=
  Lexeme.place_after p [] (Scan.lexemes s)

end Lexer

/-- The tokens of a text are the first of them and those of the text behind it. -/
theorem tokenize_eq_cons {s rest : List Char} {x : Lexeme} (h : Scan.next s = ⟨x, rest⟩)
    (hkind : x.kind ≠ .endOfInput) :
    tokenize (String.ofList s) = x.tokenAt .start ::
      (tokenize (String.ofList rest)).map (Token.shift (Span.start.after x.source)) := by
  have hnext : (⟨.start, s⟩ : Lexer).next =
      (x.tokenAt .start, ⟨Span.start.after x.source, rest⟩) := by
    rw [Lexer.next, Lexer.skip]
    simp only [h]
  have hfirst : (⟨.start, s⟩ : Lexer).next.1.kind ≠ .endOfInput := by
    rw [hnext]
    exact hkind
  rw [tokenize, tokenize, Lexer.ofText, Lexer.ofText, String.toList_ofList, String.toList_ofList,
    Lexer.drain_of_kind_ne hfirst, hnext, ← Lexer.drain_after]

namespace Lexer

/-! ### What stands between two tokens -/

/-- What is passable is passed at once. -/
theorem next_passable {g : List Char} (hg : Gap.Passable g) (p : Span) (s : List Char) :
    (⟨p, g ++ s⟩ : Lexer).next = (⟨p.after g, s⟩ : Lexer).next := by
  have htoken : ((Scan.next s).lexeme.behind g).tokenAt p =
      (Scan.next s).lexeme.tokenAt (p.after g) := by
    rw [Lexeme.tokenAt, Lexeme.tokenAt, ← Span.after_append]
    rfl
  rw [next, next]
  simp only [Scan.next_passable hg]
  rw [htoken, skip, skip, Lexeme.source_behind, Span.after_append]

theorem drain_passable {g : List Char} (hg : Gap.Passable g) (p : Span) (s : List Char) :
    (⟨p, g ++ s⟩ : Lexer).drain = (⟨p.after g, s⟩ : Lexer).drain := by
  have hnext := next_passable hg p s
  by_cases h : (⟨p.after g, s⟩ : Lexer).next.1.kind = .endOfInput
  · rw [drain_of_kind h, drain_of_kind (hnext ▸ h), hnext]
  · rw [drain_of_kind_ne h, drain_of_kind_ne (hnext ▸ h), hnext]

/-! ### The run over a text -/

/-- What the lexer reads is read by a new lexer from the text `s`, if one counts
from `p`. -/
structure GoesOnAs (l : Lexer) (p : Span) (s : List Char) : Prop where
  calls : ∀ j, (l.calls j).1 = ((ofText (String.ofList s)).calls j).1.map (Token.shift p)
  drain : l.drain.1 = (tokenize (String.ofList s)).map (Token.shift p)

theorem goesOnAs_passable {g : List Char} (hg : Gap.Passable g) (p : Span) (s : List Char) :
    (⟨p, g ++ s⟩ : Lexer).GoesOnAs (p.after g) s := by
  have hnew : ofText (String.ofList s) = ⟨.start, s⟩ := by
    rw [ofText, String.toList_ofList]
  constructor
  · intro j
    rw [hnew]
    cases j with
    | zero => rfl
    | succ j =>
      have hcalls := calls_after (p.after g) [] s (j + 1)
      rw [calls, next_passable hg]
      exact hcalls
  · rw [tokenize, hnew, drain_passable hg]
    exact drain_after _ s

/-- A lexer that is in the middle of a text, and has kept nothing of what it has
read but its position. -/
structure Memoryless (text : String) (l : Lexer) : Prop where
  /-- The lexer stands at the position that counts the characters before, where a
  cursor over the bytes of the text is as good as new. -/
  stands : ∃ read, read ++ l.unread = text.toList ∧ l.position = .counted read ∧
    (ByteCursor.before .start text.toList).advanceBy (Utf8.encode read).length =
      (ByteCursor.before .start l.unread).shift l.position
  /-- It reads what a new lexer reads from the rest of the text. -/
  goesOn : l.GoesOnAs l.position l.unread
  /-- Behind blank space and comments that it is about to pass, it reads what a
  new lexer reads from there. -/
  passes : ∀ g s, Gap.Filler g → l.unread = g ++ s → l.GoesOnAs (l.position.after g) s

theorem Reached.memoryless {text : String} {read : List Char} {l : Lexer}
    (h : Reached text read l) : l.Memoryless text := by
  refine ⟨⟨read, h.cut, ?_, ?_⟩, goesOnAs_passable .nil _ _, fun g s hg hs => ?_⟩
  · rw [h.position, Span.after_start]
  · rw [ByteCursor.shift_before, ← h.cut, ByteCursor.advanceBy_encode, ← h.position]
  · obtain ⟨p, unread⟩ := l
    obtain rfl : unread = g ++ s := hs
    exact goesOnAs_passable hg.passable p s

end Lexer

end ScriptSyntax
