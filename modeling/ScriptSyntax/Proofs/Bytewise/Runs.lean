/-
Runs of the lexer on bytes.

The lexer on bytes reads what the lexer on characters reads, so what is known of a run over
characters is known of a run over bytes: between two tokens the cursor stands between two
characters, it owes nothing to the count of columns, and nothing that it has read matters for
what is still to come.

* `ByteCursor.OnCourse` is what holds of the cursor wherever it stands between two tokens, and
  `ByteCursor.Memoryless` says that it reads on like a new one;
* `Lexer.OnCourse.toBytes` and `Lexer.Memoryless.toBytes` — both are handed on from the lexer
  on characters;
* `onCourse_calls` and `memoryless_calls` — both lexers are on course, and remember nothing,
  after any number of tokens of a text.
-/
import ScriptSyntax.Proofs.Bytewise.Tokens

namespace ScriptSyntax

open Utf8

variable {text : String} {l : Lexer} {p : Span} {s : List Char}

namespace ByteCursor

/-- A cursor over the bytes of a text that is in the middle of the text, or at its end. -/
structure OnCourse (text : String) (fallback : Char) (x : ByteCursor) : Prop where
  /-- The cursor stands between two characters, and its position counts those before. -/
  between : ∃ read rest, read ++ rest = text.toList ∧ x = before (.counted read) rest
  /-- A token that is not the end token takes a character. -/
  taken : (x.next fallback).1.kind ≠ .endOfInput →
    ∃ taken, taken ≠ [] ∧ encode taken ++ (x.next fallback).2.unread = x.unread
  /-- The end token stands at the end of the text, and is all that follows it. -/
  ended : (x.next fallback).1.kind = .endOfInput →
    (x.next fallback).1 = .endAt (.counted text.toList) ∧
      ∀ j, (x.next fallback).2.calls fallback j =
        (List.replicate j (x.next fallback).1, (x.next fallback).2)
  /-- The tokens that are left are finitely many, and one of them is the end token, the last. -/
  drained : ∃ ts, (x.calls fallback (ts.length + 1)).1 = ts ++ [.endAt (.counted text.toList)] ∧
    ∀ t ∈ ts, t.kind ≠ .endOfInput

/-- What the cursor reads is read from the beginning of the text `s`, if one counts from `p`. -/
def GoesOnAs (fallback : Char) (x : ByteCursor) (p : Span) (s : List Char) : Prop :=
  ∀ j, (x.calls fallback j).1 = ((before .start s).calls fallback j).1.map (Token.shift p)

/-- A cursor in front of the text `s` that has kept nothing of what it has read but the position
`p`. -/
structure Memoryless (fallback : Char) (x : ByteCursor) (p : Span) (s : List Char) : Prop where
  /-- The cursor is as good as new. -/
  stands : x = (before .start s).shift p
  goesOn : x.GoesOnAs fallback p s
  /-- So it is behind blank space and comments that it is about to pass. -/
  passes : ∀ g t, Gap.Filler g → s = g ++ t → x.GoesOnAs fallback (p.after g) t

end ByteCursor

namespace Lexer

open ByteCursor

theorem OnCourse.toBytes (h : l.OnCourse text) (fallback : Char) :
    l.toBytes.OnCourse text fallback := by
  obtain ⟨read, hcut, hposition, -⟩ := h.between
  refine ⟨⟨read, l.unread, hcut, hposition ▸ rfl⟩, ?_, ?_, ?_⟩
  · rw [next_toBytes]
    intro hkind
    obtain ⟨taken, hne, htaken⟩ := h.taken hkind
    refine ⟨taken, hne, ?_⟩
    calc encode taken ++ encode l.next.2.unread
        = encode (taken ++ l.next.2.unread) := (encode_append _ _).symm
      _ = encode l.unread := by rw [htaken]
  · rw [next_toBytes]
    intro hkind
    obtain ⟨hend, hcalls⟩ := h.ended hkind
    refine ⟨hend, fun j => ?_⟩
    rw [calls_toBytes, hcalls]
  · obtain ⟨ts, hdrain, hkinds, hcalls⟩ := h.drained
    refine ⟨ts, ?_, hkinds⟩
    rw [calls_toBytes, hcalls, hdrain]

theorem GoesOnAs.toBytes (h : l.GoesOnAs p s) (fallback : Char) :
    l.toBytes.GoesOnAs fallback p s := by
  intro j
  have hnew : before .start s = (ofText (String.ofList s)).toBytes := by
    rw [ofText, String.toList_ofList]
    rfl
  rw [hnew, calls_toBytes, calls_toBytes]
  exact h.calls j

theorem Memoryless.toBytes (h : l.Memoryless text) (fallback : Char) :
    l.toBytes.Memoryless fallback l.position l.unread where
  stands := (shift_before l.position l.unread).symm
  goesOn := h.goesOn.toBytes fallback
  passes g t hg ht := (h.passes g t hg ht).toBytes fallback

end Lexer

/-- **The lexer stays on course.**  After any number of tokens the lexer is between two
characters of its text, at the position that counts the lines and columns up to there.  Tokens
take characters until the end token, which is given once and again at the end of the text; it is
the last of the tokens of the text, and no other of them is an end token.  All this holds of the
lexer on bytes as well, which reads the same tokens and stands at the same places, whichever
character it may put for bytes that are none. -/
theorem onCourse_calls (text : String) :
    (∀ k, ((Lexer.ofText text).calls k).2.OnCourse text) ∧
      (∃ ts, tokenize text = ts ++ [.endAt (.counted text.toList)] ∧
        ∀ t ∈ ts, t.kind ≠ .endOfInput) ∧
      ∀ fallback k,
        (ByteCursor.before .start text.toList).calls fallback k =
          (((Lexer.ofText text).calls k).1, ((Lexer.ofText text).calls k).2.toBytes) ∧
        ((ByteCursor.before .start text.toList).calls fallback k).2.OnCourse text fallback := by
  have hstart := Lexer.reached_ofText text
  have hcalls (k : Nat) : ((Lexer.ofText text).calls k).2.OnCourse text := by
    obtain ⟨read, hread⟩ := hstart.calls k
    exact hread.onCourse
  refine ⟨hcalls, ?_, fun fallback k => ⟨Lexer.calls_before text fallback k, ?_⟩⟩
  · obtain ⟨ts, hts, hkinds, -⟩ := hstart.onCourse.drained
    exact ⟨ts, hts, hkinds⟩
  · rw [Lexer.calls_before]
    exact (hcalls k).toBytes fallback

/-- **A lexer remembers nothing but its position.**  After any number of tokens, good or bad,
the tokens still to come are those that a new lexer reads from the rest of the text, with the
same kinds and texts, and with their places counted from the position.  The same holds of the
text behind a comment that stands there, and it holds of the lexer on bytes. -/
theorem memoryless_calls (text : String) (k : Nat) :
    ((Lexer.ofText text).calls k).2.Memoryless text ∧
      ∀ fallback, ((ByteCursor.before .start text.toList).calls fallback k).2.Memoryless fallback
        ((Lexer.ofText text).calls k).2.position ((Lexer.ofText text).calls k).2.unread := by
  obtain ⟨read, hread⟩ := (Lexer.reached_ofText text).calls k
  refine ⟨hread.memoryless, fun fallback => ?_⟩
  rw [Lexer.calls_before]
  exact hread.memoryless.toBytes fallback

end ScriptSyntax
