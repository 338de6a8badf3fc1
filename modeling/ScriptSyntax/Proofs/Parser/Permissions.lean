/-
Options that allow more.

What is read where little is allowed is read in the same way where more is: a word that
controls nothing where it stands begins no statement there at all, and so it does not
come up in a program that has been read without it.

* `ParseOptions` are ordered by what they allow;
* `Reads.allowing` — what is read in a mode is read in every mode that allows as much;
* `parseTokens_eq_of_le` — so a program keeps its tree, places included, under options
  that allow more.

Design notes: more is allowed to the statements of a program and of its blocks.  Inside
brackets and after `return` the mode is that of expressions under all options, and there
the induction goes on with the mode that it has.
-/
import ScriptSyntax.Proofs.Parser.Agreement

namespace ScriptSyntax

/-! ### What is allowed -/

/-- The second options allow all that the first do. -/
instance : LE ParseOptions :=
  ⟨fun o o' => (o.loopControl → o'.loopControl) ∧ (o.functionControl → o'.functionControl)⟩

instance (o o' : ParseOptions) : Decidable (o ≤ o') :=
  inferInstanceAs (Decidable (_ ∧ _))

namespace StatementMode

/-- The second mode asks for the same separator and allows all that the first does. -/
structure AllowedBy (m m' : StatementMode) : Prop where
  separator : m'.separator = m.separator
  loopControl : m.loopControl → m'.loopControl
  functionControl : m.functionControl → m'.functionControl

namespace AllowedBy

variable {m m' : StatementMode}

theorem refl (m : StatementMode) : m.AllowedBy m :=
  ⟨rfl, id, id⟩

theorem withSeparator (h : m.AllowedBy m') : m.withSeparator.AllowedBy m'.withSeparator :=
  ⟨rfl, h.loopControl, h.functionControl⟩

end AllowedBy

end StatementMode

theorem ParseOptions.allowedBy_of_le {o o' : ParseOptions} (h : o ≤ o') :
    o.statementMode.AllowedBy o'.statementMode :=
  ⟨rfl, h.1, h.2⟩

/-! ### What is read -/

/-- The phrase is read, and so it is in every mode that allows as much. -/
def Phrase.StaysRead (n : Nat) (s r : Input) : Phrase → Prop
  | operand least t => Reads n (.operand least t) s r
  | operators least left t => Reads n (.operators least left t) s r
  | expression least t => Reads n (.expression least t) s r
  | simple mode t => ∀ mode' : StatementMode, mode.AllowedBy mode' → Reads n (.simple mode' t) s r
  | statement mode t =>
    ∀ mode' : StatementMode, mode.AllowedBy mode' → Reads n (.statement mode' t) s r
  | statements closing mode ts =>
    ∀ mode' : StatementMode, mode.AllowedBy mode' → Reads n (.statements closing mode' ts) s r

/-- What is read in a mode is read in every mode that allows as much. -/
theorem Reads.allowing {n : Nat} {ph : Phrase} {s r : Input} (h : Reads n ph s r) :
    ph.StaysRead n s r := by
  -- Inside brackets and after `return` both modes are the mode of expressions.
  have here := StatementMode.AllowedBy.refl .expression
  induction h with
  | literal hvalue => exact .literal hvalue
  | group hopen _ hclose ih => exact .group hopen (ih _ here) hclose
  | unary hoperator hleast _ ih => exact .unary hoperator hleast ih
  | done hleast => exact .done hleast
  | trailing hoperator hleast => exact .trailing hoperator hleast
  | binary hoperator hleast _ _ ihright ihrest => exact .binary hoperator hleast ihright ihrest
  | expression _ _ ihfirst ihrest => exact .expression ihfirst ihrest
  | convert htarget hopen _ hclose ih =>
    intro mode' _
    exact .convert htarget hopen (ih _ here) hclose
  | breakLoop hmode hkind htext =>
    intro mode' hallowed
    exact .breakLoop (hallowed.loopControl hmode) hkind htext
  | continueLoop hmode hkind htext =>
    intro mode' hallowed
    exact .continueLoop (hallowed.loopControl hmode) hkind htext
  | returnValue hmode hkind htext _ ih =>
    intro mode' hallowed
    exact .returnValue (hallowed.functionControl hmode) hkind htext (ih _ here)
  | value _ ih =>
    intro mode' _
    exact .value ih
  | block hopen _ ih =>
    intro mode' hallowed
    exact .block hopen (ih _ hallowed.withSeparator)
  | unseparated hmode _ ih =>
    intro mode' hallowed
    exact .unseparated (hallowed.separator.trans hmode) (ih _ hallowed)
  | separated hmode _ hseparator ih =>
    intro mode' hallowed
    exact .separated (hallowed.separator.trans hmode) (ih _ hallowed) hseparator
  | last hclose =>
    intro mode' _
    exact .last hclose
  | more _ _ ihfirst ihrest =>
    intro mode' hallowed
    exact .more (ihfirst _ hallowed) (ihrest _ hallowed)

/-! ### Programs -/

/-- **Allowing more changes no program.**  Tokens that are a program under some options
are one under all options that allow as much, and their tree is the same, places
included. -/
theorem parseTokens_eq_of_le {o o' : ParseOptions} {ts : List Token} (hle : o ≤ o')
    (h : (parseTokens o ts).isBad = false) : parseTokens o' ts = parseTokens o ts := by
  obtain ⟨ss, hss⟩ := exists_parseTokens_eq_compound h
  obtain ⟨r, hreads⟩ := parseTokens_eq_compound_iff.1 hss
  have hreads' : Reads maxNesting (.statements .endOfInput o'.statementMode ss) (.ofTokens ts) r :=
    hreads.allowing _ (ParseOptions.allowedBy_of_le hle)
  rw [hss]
  exact parseTokens_eq_compound_iff.2 ⟨r, hreads'⟩

/-- The tokens of a `break` in a block, and of a conversion of a block. -/
def breakThenConvert : List Token :=
  [⟨.leftBrace, "\x7b", ⟨1, 1⟩⟩, ⟨.controller, "break", ⟨1, 2⟩⟩, ⟨.newLine, "<NL>", ⟨1, 7⟩⟩,
    ⟨.rightBrace, "\x7d", ⟨2, 1⟩⟩, ⟨.word, "int", ⟨2, 2⟩⟩, ⟨.leftParen, "(", ⟨2, 5⟩⟩,
    ⟨.leftBrace, "\x7b", ⟨2, 6⟩⟩, ⟨.rightBrace, "\x7d", ⟨2, 7⟩⟩, ⟨.rightParen, ")", ⟨2, 8⟩⟩]

/-- What is a program in a loop is the same program in a function in a loop. -/
theorem parseTokens_breakThenConvert :
    let o : ParseOptions := { loopControl := true }
    let o' : ParseOptions := { loopControl := true, functionControl := true }
    o ≤ o' ∧ (parseTokens o breakThenConvert).isBad = false ∧
      parseTokens o' breakThenConvert = parseTokens o breakThenConvert := by
  intro o o'
  have hle : o ≤ o' := by decide
  have hgood : (parseTokens o breakThenConvert).isBad = false := by decide
  exact ⟨hle, hgood, parseTokens_eq_of_le hle hgood⟩

end ScriptSyntax
