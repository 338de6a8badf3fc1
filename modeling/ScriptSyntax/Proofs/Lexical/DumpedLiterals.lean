/-
Strings in dumps, read again.

In a dump a string stands between quotation marks, and the same characters stand behind
backslashes as in a script.  Two characters do not: a vertical tab and a form feed are written
as they are, and a script drops them.

* `TextLiteral.lost` — these two characters;
* `TextLiteral.unescape_quoted` — the others are read back;
* `tokenize_dump_string` — a string in a dump is read as one string, and it is the same string
  exactly if it has neither of the two characters.

Design notes: no character is written behind a letter that announces digits, and so it does not
matter which characters follow (`TextLiteral.unescape_escape`).
-/
import ScriptSyntax.Proofs.Lexical.TextUnits
import ScriptSyntax.Tree.Dump

namespace ScriptSyntax

namespace TextLiteral

variable {d : Char}

/-- The white space that dumps write as it is, although scripts drop it. -/
def lost : List Char :=
  ['\x0b', '\x0c']

/-- A character as it stands in a string of a dump. -/
def written (c : Char) : List Char :=
  Text.quoteChar '"' (fun _ => false) c

/-- Behind a backslash stands what means the character in scripts too. -/
theorem written_cases (c : Char) :
    (∃ d, written c = ['\\', d] ∧ Radix.ofLetter? d = none ∧
        Escape.single d = Utf8.encodeChar c ∧ c ∉ lost) ∨
      written c = [c] ∧ c ≠ '"' ∧ c ≠ '\\' ∧ (isDropped c ↔ c ∈ lost) := by
  unfold written Text.quoteChar
  split_ifs with hslash hline htab hreturn hnull hquote hhidden
  · exact .inl ⟨'\\', rfl, rfl, by rw [hslash]; rfl, by rw [hslash]; decide⟩
  · exact .inl ⟨'n', rfl, rfl, by rw [hline]; rfl, by rw [hline]; decide⟩
  · exact .inl ⟨'t', rfl, rfl, by rw [htab]; rfl, by rw [htab]; decide⟩
  · exact .inl ⟨'r', rfl, rfl, by rw [hreturn]; rfl, by rw [hreturn]; decide⟩
  · exact .inl ⟨'0', rfl, rfl, by rw [hnull]; rfl, by rw [hnull]; decide⟩
  · exact .inl ⟨'"', rfl, rfl, by rw [hquote]; rfl, by rw [hquote]; decide⟩
  · exact hhidden.elim
  · exact .inr ⟨rfl, hquote, hslash, by simp [isDropped, lost, hline, htab, hreturn]⟩

theorem inside_written (c : Char) : Inside (written c) := by
  rcases written_cases c with ⟨d, hd, -⟩ | ⟨hc, hquote, hescape, -⟩
  · rw [hd]
    exact .of_together (.escape d)
  · rw [hc]
    exact .of_together (.plain hquote hescape)

/-- Behind a letter that announces no digits any text can follow. -/
theorem unescape_escape (hd : Radix.ofLetter? d = none) (t : List Char) :
    unescape ('\\' :: d :: t) = Escape.single d ++ unescape t := by
  have hread : Escape.read (d :: t) = ⟨Escape.single d, [d], t⟩ := by
    refine Escape.read_single fun r hr => ?_
    rw [hd] at hr
    cases hr
  rw [unescape, if_pos rfl, hread]

/-- What has been written is read back, but for what is lost. -/
theorem unescape_quoted (cs : List Char) :
    unescape (cs.flatMap written) = Utf8.encode (cs.filter (· ∉ lost)) := by
  induction cs with
  | nil => rw [List.flatMap_nil, unescape]; rfl
  | cons c cs ih =>
    rw [List.flatMap_cons]
    rcases written_cases c with ⟨d, hd, hletter, hsingle, hkept⟩ | ⟨hc, -, hescape, hdropped⟩
    · rw [hd, List.cons_append, List.singleton_append, unescape_escape hletter, hsingle, ih,
        List.filter_cons_of_pos (by simpa using hkept)]
      rfl
    · rw [hc, List.singleton_append, unescape, if_neg hescape, ih]
      by_cases hlost : c ∈ lost
      · rw [if_pos (hdropped.2 hlost), List.filter_cons_of_neg (by simpa using hlost)]
      · rw [if_neg (hdropped.not.2 hlost), List.filter_cons_of_pos (by simpa using hlost)]
        rfl

end TextLiteral

open TextLiteral

theorem Tree.toList_dump_string (p : Span) (s : String) :
    (Tree.literal p (.string s)).dump.toList = marked '"' (s.toList.flatMap written) := by
  rw [dump, String.toList_ofList, write, List.append_nil]
  rfl

/-- **Strings in dumps are strings of scripts.**  The dump of a string is read as one string.
All its characters are read but vertical tabs and form feeds, and so it is the same string
exactly if there are none. -/
theorem tokenize_dump_string (p : Span) (s : String) :
    tokenize (Tree.literal p (.string s)).dump =
        [⟨.string, String.ofList (s.toList.filter (· ∉ ['\x0b', '\x0c'])), .start⟩,
          .endAt (.counted (Tree.literal p (.string s)).dump.toList)] ∧
      (tokenize (Tree.literal p (.string s)).dump =
          [⟨.string, s, .start⟩, .endAt (.counted (Tree.literal p (.string s)).dump.toList)] ↔
        '\x0b' ∉ s.toList ∧ '\x0c' ∉ s.toList) := by
  have hread : tokenize (Tree.literal p (.string s)).dump =
      [⟨.string, String.ofList (s.toList.filter (· ∉ ['\x0b', '\x0c'])), .start⟩,
        .endAt (.counted (Tree.literal p (.string s)).dump.toList)] := by
    have hstring := tokenize_string (.flatMap fun c (_ : c ∈ s.toList) => inside_written c)
    rwa [unescape_quoted, textOf_encode, ← Tree.toList_dump_string p, String.ofList_toList]
      at hstring
  have hkept : s.toList.filter (· ∉ ['\x0b', '\x0c']) = s.toList ↔
      '\x0b' ∉ s.toList ∧ '\x0c' ∉ s.toList := by
    rw [List.filter_eq_self]
    constructor
    · intro h
      exact ⟨fun hmem => absurd (h _ hmem) (by decide), fun hmem => absurd (h _ hmem) (by decide)⟩
    · rintro ⟨htab, hfeed⟩ c hc
      simp [ne_of_mem_of_not_mem hc htab, ne_of_mem_of_not_mem hc hfeed]
  refine ⟨hread, ?_⟩
  rw [hread, ← hkept]
  constructor
  · intro h
    have htext := congrArg (String.toList ∘ Token.text) (List.cons.inj h).1
    rwa [Function.comp_apply, String.toList_ofList] at htext
  · intro h
    rw [h, String.ofList_toList]

/-- **Not every string is read back from its dump.**  A vertical tab is lost. -/
theorem not_forall_tokenize_dump_string :
    ¬ ∀ (p : Span) (s : String), tokenize (Tree.literal p (.string s)).dump =
      [⟨.string, s, .start⟩, .endAt (.counted (Tree.literal p (.string s)).dump.toList)] := by
  intro h
  have hread := h .start "\x0b"
  revert hread
  decide +kernel

end ScriptSyntax
