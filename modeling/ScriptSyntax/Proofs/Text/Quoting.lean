/-
Quoted texts are read back.

A text between two quotation marks ends at the first mark that no backslash
precedes, and each character of it can be told from how it is written:

* `Text.unquote` reads a text whose opening mark has been read;
* `Text.unquote_quote` — it gives what has been quoted, whatever follows;
* `Text.newLine_notMem_plainQuote` — and a quoted text never breaks its line.
-/
import Mathlib.Data.List.Basic
import ScriptSyntax.Text.Quoted

namespace ScriptSyntax

namespace Text

/-- The quotation marks. -/
def IsQuotationMark (mark : Char) : Prop :=
  mark = '"' ∨ mark = '\''

/-- A text between quotation marks in which nothing is written by its number. -/
def plainQuote (mark : Char) (cs : List Char) : List Char :=
  quote mark (fun _ => false) cs

/-- What a character behind a backslash stands for. -/
def escaped : Char → Char
  | 'n' => '\n'
  | 't' => '\t'
  | 'r' => '\r'
  | '0' => '\x00'
  | c => c

/-- Reads a text whose opening mark has been read: the text, and what follows its
closing mark. -/
def unquote (mark : Char) : List Char → Option (List Char × List Char)
  | [] => none
  | c :: cs =>
    if c = mark then some ([], cs)
    else if c = '\\' then
      match cs with
      | [] => none
      | d :: ds => (unquote mark ds).map fun r => (escaped d :: r.1, r.2)
    else (unquote mark cs).map fun r => (c :: r.1, r.2)

variable {mark : Char}

/-- A character stands behind a backslash, or for itself. -/
theorem quoteChar_cases (hmark : IsQuotationMark mark) (c : Char) :
    (∃ d, quoteChar mark (fun _ => false) c = ['\\', d] ∧ escaped d = c ∧ d ≠ '\n') ∨
      quoteChar mark (fun _ => false) c = [c] ∧ c ≠ mark ∧ c ≠ '\\' ∧ c ≠ '\n' := by
  unfold quoteChar
  split_ifs with hslash hline htab hreturn hnull hc hhidden
  · exact .inl ⟨'\\', rfl, hslash.symm, by decide⟩
  · exact .inl ⟨'n', rfl, hline.symm, by decide⟩
  · exact .inl ⟨'t', rfl, htab.symm, by decide⟩
  · exact .inl ⟨'r', rfl, hreturn.symm, by decide⟩
  · exact .inl ⟨'0', rfl, hnull.symm, by decide⟩
  · subst hc
    refine .inl ⟨c, rfl, ?_, hline⟩
    rcases hmark with rfl | rfl <;> rfl
  · exact hhidden.elim
  · exact .inr ⟨rfl, hc, hslash, hline⟩

/-- What has been quoted is read back, and reading stops at the closing mark. -/
theorem unquote_quote (hmark : IsQuotationMark mark) (cs s : List Char) :
    unquote mark (cs.flatMap (quoteChar mark fun _ => false) ++ mark :: s) = some (cs, s) := by
  have hslash : '\\' ≠ mark := by rcases hmark with rfl | rfl <;> decide
  induction cs with
  | nil =>
    rw [List.flatMap_nil, List.nil_append, unquote.eq_def]
    exact if_pos rfl
  | cons c cs ih =>
    rw [List.flatMap_cons, List.append_assoc]
    rcases quoteChar_cases hmark c with ⟨d, hquote, hd, -⟩ | ⟨hquote, hc, hcs, -⟩
    · rw [hquote, List.cons_append, List.singleton_append, unquote.eq_def]
      dsimp only
      rw [if_neg hslash, if_pos rfl, ih, Option.map_some, hd]
    · rw [hquote, List.singleton_append, unquote.eq_def]
      dsimp only
      rw [if_neg hc, if_neg hcs, ih, Option.map_some]

theorem plainQuote_append (cs s : List Char) :
    plainQuote mark cs ++ s = mark :: (cs.flatMap (quoteChar mark fun _ => false) ++ mark :: s) := by
  simp [plainQuote, quote]

/-- A quoted text and what follows it can be told apart. -/
theorem plainQuote_append_inj (hmark : IsQuotationMark mark) {cs ds s r : List Char}
    (h : plainQuote mark cs ++ s = plainQuote mark ds ++ r) : cs = ds ∧ s = r := by
  rw [plainQuote_append, plainQuote_append] at h
  have hread := congrArg (unquote mark) (List.cons.inj h).2
  rw [unquote_quote hmark, unquote_quote hmark] at hread
  exact Prod.mk.inj (Option.some.inj hread)

/-- A quoted text stands on one line. -/
theorem newLine_notMem_plainQuote (hmark : IsQuotationMark mark) (cs : List Char) :
    '\n' ∉ plainQuote mark cs := by
  have hne : '\n' ≠ mark := by rcases hmark with rfl | rfl <;> decide
  have hbody : ∀ c ∈ cs, '\n' ∉ quoteChar mark (fun _ => false) c := by
    intro c _
    rcases quoteChar_cases hmark c with ⟨d, hquote, -, hd⟩ | ⟨hquote, -, -, hc⟩
    · simp [hquote, hd.symm]
    · simp [hquote, hc.symm]
  rw [← List.append_nil (plainQuote mark cs), plainQuote_append]
  simpa [hne] using hbody

end Text

end ScriptSyntax
