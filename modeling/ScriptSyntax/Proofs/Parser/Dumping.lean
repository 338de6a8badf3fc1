/-
A dump tells the program.

Of what is read from a text nothing but places is lost in a dump:

* `Tree.Legible` says that a tree is built from tokens whose literals are legible;
* `Tree.Legible.write_eq_iff` — the texts of two such trees are the same if and only if
  the trees are the same up to places;
* `Tree.splitOn_dumpLines` — every statement of a program has a line of its own;
* `dumpLines_parseTokens` — so dumps are the same if and only if they are of programs
  that are the same up to places, or of the same error.

Design notes: of trees in general this is not true.  An integer whose text has a base
mark in it is written like the hexadecimal number that it looks like, but no lexer gives
such an integer.
-/
import ScriptSyntax.Proofs.Parser.Building
import ScriptSyntax.Proofs.Parser.Places
import ScriptSyntax.Proofs.Tree.Nested

namespace ScriptSyntax

/-! ### Trees -/

namespace Tree

/-- Trees whose nested lists can be read back are written alike only if these are the
same. -/
theorem toNested_eq_of_write_eq {t u : Tree} (ht : t.toNested.Proper) (hu : u.toNested.Proper)
    (h : t.write [] = u.write []) : t.toNested = u.toNested := by
  rw [write_eq, write_eq] at h
  exact (ht.write_inj hu NestedList.ends_nil NestedList.ends_nil h).1

namespace BuiltFrom

variable {ts : List Token} {t : Tree}

/-- A tree that has been read is told from its text. -/
theorem tree?_toNested (h : t.BuiltFrom ts) (hts : ∀ v ∈ ts, v.Legible) :
    t.toNested.tree? = some t.unplaced := by
  induction h with
  | literal htoken hvalue => exact Literal.tree?_toNested (hts _ htoken _ hvalue)
  | group _ ih =>
    rw [toNested, NestedList.tree?, NestedList.trees?, ih]
    exact NestedList.ofForm?_group
  | convert _ ih =>
    rw [toNested, NestedList.tree?, NestedList.trees?, NestedList.trees?, ih]
    exact NestedList.ofForm?_convert
  | unary hoperator _ ih =>
    rw [toNested, NestedList.tree?, NestedList.trees?, ih]
    exact NestedList.ofForm?_unary (.inl hoperator.1)
  | binary hoperator _ _ ihleft ihright =>
    rw [toNested, NestedList.tree?, NestedList.trees?, NestedList.trees?, ihleft, ihright]
    exact NestedList.ofForm?_binary (.inr hoperator.1)
  | trailing hoperator _ ih =>
    rw [toNested, NestedList.tree?, NestedList.trees?, NestedList.trees?, ih]
    exact NestedList.ofForm?_trailing (.inr (by rw [hoperator]; decide))
  | returnValue _ ih =>
    rw [toNested, NestedList.tree?, NestedList.trees?, ih]
    exact NestedList.ofForm?_return
  | breakLoop | continueLoop => rfl
  | @compound _ ss _ ih =>
    have hparts : ss.map (NestedList.tree? ∘ toNested) = ss.map (some ∘ unplaced) :=
      List.map_congr_left ih
    rw [toNested, NestedList.tree?, NestedList.ofForm?_block, NestedList.trees?_eq_map,
      toNestedAll_eq_map, List.map_map, hparts, unplaced, unplacedAll_eq_map]
    simp [List.filterMap_map]

theorem proper_toNested (h : t.BuiltFrom ts) (hts : ∀ v ∈ ts, v.Legible) : t.toNested.Proper := by
  induction h with
  | literal htoken hvalue => exact Literal.proper_toNested (hts _ htoken _ hvalue)
  | group _ ih | returnValue _ ih =>
    exact .form (by decide) (List.forall_mem_singleton.2 ih)
  | convert _ ih =>
    exact .form (by decide) (List.forall_mem_cons.2
      ⟨.bare (ValueType.isWord_keyword _), List.forall_mem_singleton.2 ih⟩)
  | unary hoperator _ ih =>
    exact .form (TokenKind.IsOperator.isWord (.inl hoperator.1)) (List.forall_mem_singleton.2 ih)
  | binary hoperator _ _ ihleft ihright =>
    exact .form (TokenKind.IsOperator.isWord (.inr hoperator.1))
      (List.forall_mem_cons.2 ⟨ihleft, List.forall_mem_singleton.2 ihright⟩)
  | trailing hoperator _ ih =>
    have hword := TokenKind.IsOperator.isWord (.inr (by rw [hoperator]; decide))
    exact .form (by decide) (List.forall_mem_cons.2
      ⟨.bare hword, List.forall_mem_singleton.2 ih⟩)
  | breakLoop | continueLoop => exact .bare (by decide)
  | compound _ ih =>
    refine .form (by decide) ?_
    rw [toNestedAll_eq_map]
    exact List.forall_mem_map.2 ih

/-- Places are not part of the text. -/
theorem toNested_unplaced (h : t.BuiltFrom ts) : t.unplaced.toNested = t.toNested := by
  induction h with
  | literal | breakLoop | continueLoop => rfl
  | group _ ih | convert _ ih | unary _ _ ih | trailing _ _ ih | returnValue _ ih =>
    rw [unplaced, toNested, toNested, ih]
  | binary _ _ _ ihleft ihright => rw [unplaced, toNested, toNested, ihleft, ihright]
  | @compound _ ss _ ih =>
    have hparts : ss.map (toNested ∘ unplaced) = ss.map toNested := List.map_congr_left ih
    rw [unplaced, toNested, toNested, toNestedAll_eq_map, toNestedAll_eq_map, unplacedAll_eq_map,
      List.map_map, hparts]

end BuiltFrom

/-- A tree that is built from tokens whose literals are legible. -/
def Legible (t : Tree) : Prop :=
  ∃ ts, t.BuiltFrom ts ∧ ∀ v ∈ ts, v.Legible

namespace Legible

variable {t u : Tree}

theorem proper_toNested (h : t.Legible) : t.toNested.Proper := by
  obtain ⟨ts, hbuilt, hts⟩ := h
  exact hbuilt.proper_toNested hts

theorem tree?_toNested (h : t.Legible) : t.toNested.tree? = some t.unplaced := by
  obtain ⟨ts, hbuilt, hts⟩ := h
  exact hbuilt.tree?_toNested hts

theorem toNested_unplaced (h : t.Legible) : t.unplaced.toNested = t.toNested := by
  obtain ⟨ts, hbuilt, -⟩ := h
  exact hbuilt.toNested_unplaced

/-- The texts of legible trees are the same if and only if the trees are, up to places. -/
theorem write_eq_iff (ht : t.Legible) (hu : u.Legible) : t.write [] = u.write [] ↔ t.Alike u := by
  constructor
  · intro h
    have hnested := toNested_eq_of_write_eq ht.proper_toNested hu.proper_toNested h
    have htree := congrArg NestedList.tree? hnested
    rw [ht.tree?_toNested, hu.tree?_toNested] at htree
    exact Option.some.inj htree
  · intro h
    rw [write_eq, write_eq, ← ht.toNested_unplaced, ← hu.toNested_unplaced, h]

/-- Lists of legible trees are written alike if and only if they are the same, up to
places. -/
theorem map_write_eq_iff {ss us : List Tree} (hss : ∀ s ∈ ss, s.Legible)
    (hus : ∀ u ∈ us, u.Legible) :
    ss.map (fun s => s.write []) = us.map (fun u => u.write []) ↔ AllAlike ss us := by
  induction ss generalizing us with
  | nil => cases us <;> simp [AllAlike, unplacedAll]
  | cons s ss ih =>
    cases us with
    | nil => simp [AllAlike, unplacedAll]
    | cons u us =>
      obtain ⟨hs, hss⟩ := List.forall_mem_cons.1 hss
      obtain ⟨hu, hus⟩ := List.forall_mem_cons.1 hus
      rw [List.map_cons, List.map_cons, List.cons.injEq, hs.write_eq_iff hu, ih hss hus,
        AllAlike, AllAlike, unplacedAll, unplacedAll, List.cons.injEq, Alike]

end Legible

end Tree

/-! ### Errors -/

namespace Span

theorem toList_text (p : Span) :
    p.text.toList = Nat.toDigits 10 p.line ++ ':' :: Nat.toDigits 10 p.column := by
  simp [text, String.toList_append, Nat.toList_repr]

theorem all_isDigit_toDigits (n : Nat) : (Nat.toDigits 10 n).all Char.isDigit :=
  List.all_eq_true.2 fun _ hc => Nat.isDigit_of_mem_toDigits (by decide) (by decide) hc

theorem toDigits_inj {m n : Nat} (h : Nat.toDigits 10 m = Nat.toDigits 10 n) : m = n :=
  calc
    m = Nat.ofDigitChars 10 (Nat.toDigits 10 m) 0 := Nat.ofDigitChars_ten_toDigits.symm
    _ = Nat.ofDigitChars 10 (Nat.toDigits 10 n) 0 := by rw [h]
    _ = n := Nat.ofDigitChars_ten_toDigits

/-- A position is told from its text. -/
theorem text_inj {p q : Span} (h : p.text = q.text) : p = q := by
  -- The line ends at the first character that is no digit.
  have hline : ∀ p : Span, p.text.toList.takeWhile Char.isDigit = Nat.toDigits 10 p.line ∧
      p.text.toList.dropWhile Char.isDigit = ':' :: Nat.toDigits 10 p.column := by
    intro p
    rw [toList_text]
    exact takeWhile_append_of_stop (List.all_eq_true.1 (all_isDigit_toDigits _)) rfl
  obtain ⟨hpline, hpcolumn⟩ := hline p
  obtain ⟨hqline, hqcolumn⟩ := hline q
  rw [h] at hpline hpcolumn
  have hlines := toDigits_inj (hpline.symm.trans hqline)
  have hcolumns := toDigits_inj (List.cons.inj (hpcolumn.symm.trans hqcolumn)).2
  rcases p with ⟨l, c⟩
  rcases q with ⟨l', c'⟩
  obtain rfl : l = l' := hlines
  obtain rfl : c = c' := hcolumns
  rfl

end Span

namespace Tree

theorem proper_toNested_bad (d : Diagnostic) : (bad d).toNested.Proper := by
  have hdigits : ∀ n, (Nat.toDigits 10 n).all (!NestedList.separates ·) := fun n =>
    Numeral.separates_of_all (Numeral.isTextChar_of_all (Span.all_isDigit_toDigits n))
  have hall : ('@' :: d.span.text.toList).all (!NestedList.separates ·) := by
    rw [Span.toList_text, List.all_cons, List.all_append, List.all_cons, hdigits, hdigits]
    rfl
  have hword : NestedList.IsWord ('@' :: d.span.text.toList) := ⟨List.cons_ne_nil _ _, hall⟩
  exact .form (by decide) (List.forall_mem_cons.2
    ⟨.quoted (.inl rfl), List.forall_mem_singleton.2 (.bare hword)⟩)

/-- An error is told from its text but for its name. -/
theorem write_bad_inj {d e : Diagnostic} (h : (bad d).write [] = (bad e).write []) :
    d.message = e.message ∧ d.span = e.span := by
  have hnested := toNested_eq_of_write_eq (proper_toNested_bad d) (proper_toNested_bad e) h
  simp only [toNested, NestedList.form.injEq, List.cons.injEq, NestedList.quoted.injEq,
    NestedList.bare.injEq, true_and, and_true, String.toList_inj] at hnested
  exact ⟨hnested.1, Span.text_inj hnested.2⟩

/-- An error is told from a legible tree. -/
theorem Legible.write_ne_bad {t : Tree} (h : t.Legible) (d : Diagnostic) :
    t.write [] ≠ (bad d).write [] := by
  intro heq
  have hnested := toNested_eq_of_write_eq h.proper_toNested (proper_toNested_bad d) heq
  have htree := h.tree?_toNested
  rw [hnested, toNested, NestedList.tree?, NestedList.ofForm?_error] at htree
  exact Option.some_ne_none _ htree.symm

/-- Legible trees are not written like an error. -/
theorem map_write_ne_bad {ss : List Tree} (hss : ∀ s ∈ ss, s.Legible) (d : Diagnostic) :
    ss.map (fun s => s.write []) ≠ [(bad d).write []] := by
  intro h
  obtain ⟨s, rfl, hs⟩ := List.map_eq_singleton_iff.1 h
  exact (hss s List.mem_cons_self).write_ne_bad d hs

/-! ### Lines -/

/-- The trees that have a line each in a dump: the statements of a program, or else the
tree itself. -/
def lines (t : Tree) : List Tree :=
  t.statements?.getD [t]

theorem splitOn_flatMap_write {ss : List Tree} (h : ∀ s ∈ ss, s.toNested.Proper) :
    (ss.flatMap fun s => s.write ['\n']).splitOn '\n' = ss.map (fun s => s.write []) ++ [[]] := by
  induction ss with
  | nil => rfl
  | cons s ss ih =>
    obtain ⟨hs, hss⟩ := List.forall_mem_cons.1 h
    have hline : ∀ c ∈ s.write [], (c == '\n') = false := by
      intro c hc
      refine beq_false_of_ne ?_
      rintro rfl
      rw [write_eq] at hc
      exact hs.newLine_notMem_write List.not_mem_nil hc
    rw [List.flatMap_cons, write_eq_append, List.append_assoc, List.singleton_append, List.splitOn,
      List.splitOnP_append_cons_of_forall_mem hline _ (beq_self_eq_true _), List.map_cons,
      List.cons_append]
    exact congrArg _ (ih hss)

/-- The lines of a dump are the texts of these trees. -/
theorem splitOn_dumpLines {t : Tree} (h : ∀ s ∈ t.lines, s.toNested.Proper) :
    t.dumpLines.toList.splitOn '\n' = t.lines.map (fun s => s.write []) ++ [[]] := by
  rw [show t.dumpLines.toList = t.lines.flatMap fun s => s.write ['\n'] from String.toList_ofList]
  exact splitOn_flatMap_write h

/-- A dump is told from its lines, and they from it. -/
theorem dumpLines_eq_iff {t u : Tree} (ht : ∀ s ∈ t.lines, s.toNested.Proper)
    (hu : ∀ s ∈ u.lines, s.toNested.Proper) :
    t.dumpLines = u.dumpLines ↔
      t.lines.map (fun s => s.write []) = u.lines.map (fun s => s.write []) := by
  constructor
  · -- Statements hold no line breaks, so the lines are found by splitting at these.
    intro h
    have hsplit := splitOn_dumpLines ht
    rw [h, splitOn_dumpLines hu] at hsplit
    exact (List.append_cancel_right hsplit).symm
  · intro h
    have hlines : ∀ t : Tree, t.dumpLines =
        .ofList ((t.lines.map fun s => s.write []).flatMap (· ++ ['\n'])) := by
      intro t
      rw [List.flatMap_map]
      simp only [← write_eq_append]
      rfl
    rw [hlines, hlines, h]

end Tree

/-! ### Programs -/

/-- Two programs are the same up to places, or the same error. -/
inductive Tree.SameProgram : Tree → Tree → Prop where
  | program {p q : Span} {ss us : List Tree} (h : AllAlike ss us) :
      SameProgram (.compound p ss) (.compound q us)
  | error {d : Diagnostic} : SameProgram (.bad d) (.bad d)

theorem Tree.sameProgram_bad_iff {d e : Diagnostic} : (bad d).SameProgram (bad e) ↔ d = e := by
  constructor
  · rintro ⟨⟩
    rfl
  · rintro rfl
    exact .error

/-- Reading a text gives legible statements, or a syntax error. -/
theorem parseTokens_cases (o : ParseOptions) (text : String) :
    (∃ ss, parseTokens o (tokenize text) = .compound .nowhere ss ∧ ∀ s ∈ ss, s.Legible) ∨
      ∃ message p, parseTokens o (tokenize text) = .bad (.syntaxError message p) := by
  obtain ⟨ts, htokens, -, -⟩ := (Lexer.ofText text).exists_drain
  have htokens : tokenize text = ts ++ [.endAt _] := htokens
  have hinput : (Input.ofTokens (tokenize text)).TakenFrom (tokenize text) := by
    rw [htokens, Input.ofTokens_concat _ rfl]
    exact Input.takenFrom_itemsFrom false ts _
  rcases parse_cases (o := o) hinput (Input.kind_final_ofTokens _) with
    ⟨ss, h, hss⟩ | ⟨e, t, h, -⟩
  · exact .inl ⟨ss, h, fun s hs => ⟨_, hss s hs, legible_of_mem_tokenize⟩⟩
  · exact .inr ⟨e.message, t.span, h⟩

/-- The lines of what is read from a text are nested lists that can be read back. -/
theorem proper_lines_parseTokens (o : ParseOptions) (text : String) :
    ∀ s ∈ (parseTokens o (tokenize text)).lines, s.toNested.Proper := by
  rcases parseTokens_cases o text with ⟨ss, hroot, hss⟩ | ⟨message, p, hroot⟩
  · rw [hroot]
    exact fun s hs => (hss s hs).proper_toNested
  · rw [hroot]
    exact List.forall_mem_singleton.2 (Tree.proper_toNested_bad _)

/-- The lines of what is read from two texts are the same if and only if the programs are. -/
theorem map_write_lines_parseTokens (o o' : ParseOptions) (a b : String) :
    (parseTokens o (tokenize a)).lines.map (fun s => s.write []) =
        (parseTokens o' (tokenize b)).lines.map (fun s => s.write []) ↔
      (parseTokens o (tokenize a)).SameProgram (parseTokens o' (tokenize b)) := by
  rcases parseTokens_cases o a with ⟨ss, ha, hss⟩ | ⟨m, p, ha⟩ <;>
    rcases parseTokens_cases o' b with ⟨us, hb, hus⟩ | ⟨n, q, hb⟩ <;> rw [ha, hb]
  · refine (Tree.Legible.map_write_eq_iff hss hus).trans ?_
    constructor
    · exact .program
    · rintro ⟨h⟩
      exact h
  · constructor
    · intro h
      exact absurd h (Tree.map_write_ne_bad hss _)
    · exact nofun
  · constructor
    · intro h
      exact absurd h.symm (Tree.map_write_ne_bad hus _)
    · exact nofun
  · rw [Tree.sameProgram_bad_iff]
    constructor
    · intro h
      obtain ⟨hmessage, hspan⟩ := Tree.write_bad_inj (List.cons.inj h).1
      obtain rfl : m = n := hmessage
      obtain rfl : p = q := hspan
      rfl
    · intro h
      rw [h]

/-- **A dump tells the program.**  The dumps of what is read from two texts are the same if
and only if both are programs that are the same up to places, or both are the same error, at
the same place.  A dump has one line for each statement of a program, and an error has one
line, whatever characters there are in its texts. -/
theorem dumpLines_parseTokens (o o' : ParseOptions) (a b : String) :
    ((parseTokens o (tokenize a)).dumpLines = (parseTokens o' (tokenize b)).dumpLines ↔
        (parseTokens o (tokenize a)).SameProgram (parseTokens o' (tokenize b))) ∧
      (parseTokens o (tokenize a)).dumpLines.toList.splitOn '\n' =
        (parseTokens o (tokenize a)).lines.map (fun s => s.dump.toList) ++ [[]] := by
  have ha := proper_lines_parseTokens o a
  have hb := proper_lines_parseTokens o' b
  refine ⟨(Tree.dumpLines_eq_iff ha hb).trans (map_write_lines_parseTokens o o' a b), ?_⟩
  rw [Tree.splitOn_dumpLines ha]
  simp only [Tree.dump, String.toList_ofList]

end ScriptSyntax
