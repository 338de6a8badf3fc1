/-
A parsed program accounts for its tokens.

Every rule of the grammar lays the pieces of its tree in the items that it
takes (`Reads.laidOut`), and what lies in items lies in the tokens that the
items were made of (`Lies.laid`).  Together:

* `parseTokens_accounts` — the tree of a program lies in the tokens before the
  first end token, so that each of these is a line break, a separator or the
  one token that some part of the tree was read from.
-/
import ScriptSyntax.Proofs.Parser.Agreement
import ScriptSyntax.Proofs.Tree.Layout

namespace ScriptSyntax

/-! ### Layout in items -/

/-- Pieces that lie in the items between two inputs.  A line break or the end
token that ends a statement stays in front of the next item. -/
inductive Lies : List Piece → Input → Input → Prop where
  | nil {s : Input} : Lies [] s s
  | token {m : Mark} {ps : List Piece} {s r : Input} (hfits : m.Fits s.current)
      (hkind : s.current.kind.isSubstantial) (hrest : Lies ps s.advance r) :
      Lies (.token m :: ps) s r
  | semicolon {ps : List Piece} {s r : Input} (hkind : s.current.kind = .semicolon)
      (hrest : Lies ps s.advance r) : Lies (.stop :: ps) s r
  | lineBreak {ps : List Piece} {s r : Input} (hbreak : s.afterBreak) (hrest : Lies ps s r) :
      Lies (.stop :: ps) s r
  | ending {ps : List Piece} {s r : Input} (hkind : s.current.kind = .endOfInput)
      (hrest : Lies ps s r) : Lies (.stop :: ps) s r

namespace Lies

theorem append {ps qs : List Piece} {s s' r : Input} (hps : Lies ps s s') (hqs : Lies qs s' r) :
    Lies (ps ++ qs) s r := by
  induction hps with
  | nil => exact hqs
  | token hfits hkind _ ih => exact .token hfits hkind (ih hqs)
  | semicolon hkind _ ih => exact .semicolon hkind (ih hqs)
  | lineBreak hbreak _ ih => exact .lineBreak hbreak (ih hqs)
  | ending hkind _ ih => exact .ending hkind (ih hqs)

/-- A single token. -/
theorem single {m : Mark} {s : Input} (hfits : m.Fits s.current)
    (hkind : s.current.kind.isSubstantial) : Lies [.token m] s s.advance :=
  .token hfits hkind .nil

/-- A token whose kind and place the tree keeps. -/
theorem sign {ps : List Piece} {s r : Input} {k : TokenKind} {p? : Option Span}
    (hk : s.current.kind = k) (hp : ∀ p, p? = some p → s.current.span = p)
    (hkind : k.isSubstantial) (hrest : Lies ps s.advance r) :
    Lies (.token (.sign k p?) :: ps) s r :=
  .token ⟨hk, fun h => absurd h Bool.false_ne_true, hp⟩ (by rw [hk]; exact hkind) hrest

/-- A word that the tree keeps. -/
theorem word {ps : List Piece} {s r : Input} {k : TokenKind} {text : String}
    (hk : s.current.kind = k) (ht : s.current.text = text) (hkind : k.isSubstantial)
    (hrest : Lies ps s.advance r) : Lies (.token (.word k text s.current.span) :: ps) s r :=
  .token ⟨hk, fun _ => ht, fun _ hp => Option.some.inj hp⟩ (by rw [hk]; exact hkind) hrest

/-- What ends a statement. -/
theorem stop {s r : Input} (h : Parser.SeparatorAt s r) : Lies [.stop] s r := by
  rcases h with ⟨hk, rfl⟩ | ⟨-, hk | hbreak, rfl⟩
  · exact .semicolon hk .nil
  · exact .ending hk .nil
  · exact .lineBreak hbreak .nil

end Lies

/-- What the rules lay between the inputs of a phrase. -/
def Phrase.LaidOut (s r : Input) : Phrase → Prop
  | operand _ t | expression _ t | simple _ t => t.isBlock = false ∧ Lies t.layout s r
  | operators _ left t =>
    (left.isBlock = false → t.isBlock = false) ∧
      ∃ ps, t.layout = left.layout ++ ps ∧ Lies ps s r
  | statement mode t => Lies (if mode.separator then t.layout ++ t.ending else t.layout) s r
  | statements _ mode ts => mode.separator → Lies (Tree.layoutAll ts) s r

theorem Reads.laidOut {n : Nat} {ph : Phrase} {s r : Input} (h : Reads n ph s r) :
    ph.LaidOut s r := by
  induction h with
  | literal hvalue =>
    have hkind := TokenKind.isSubstantial_of_isLiteral
      (by rw [← Literal.isSome_ofToken?, hvalue]; rfl)
    exact ⟨rfl, .single (Literal.fits_mark hvalue) hkind⟩
  | group hopen _ hclose ih =>
    refine ⟨rfl, .sign hopen (fun _ => Option.some.inj) rfl (ih.append ?_)⟩
    exact .sign hclose (fun _ h => nomatch h) rfl .nil
  | unary hoperator _ _ ih =>
    exact ⟨rfl, .sign rfl (fun _ => Option.some.inj)
      (TokenKind.isSubstantial_of_isUnary hoperator) ih.2⟩
  | done => exact ⟨id, [], by rw [List.append_nil], .nil⟩
  | trailing _ hleast =>
    exact ⟨fun _ => rfl, _, rfl, .sign rfl (fun _ => Option.some.inj)
      (TokenKind.isSubstantial_of_binaryPrecedence (by omega)) .nil⟩
  | @binary _ _ s _ _ _ right _ _ hleast _ _ ihright ihrest =>
    -- The left operand has been laid out before, so only what is behind it is new.
    obtain ⟨hblock, ps, hps, hlies⟩ := ihrest
    refine ⟨fun _ => hblock rfl, .token (.sign s.current.kind s.current.span) ::
      (right.layout ++ ps), ?_, ?_⟩
    · rw [hps, Tree.layout, List.append_assoc, List.cons_append]
    · exact .sign rfl (fun _ => Option.some.inj)
        (TokenKind.isSubstantial_of_binaryPrecedence (by omega)) (ihright.2.append hlies)
  | expression _ _ ihfirst ihrest =>
    obtain ⟨hblock, ps, hps, hlies⟩ := ihrest
    exact ⟨hblock ihfirst.1, by rw [hps]; exact ihfirst.2.append hlies⟩
  | convert htarget hopen _ hclose ih =>
    have hword := kind_of_typeOf? htarget
    have htext := text_of_typeOf? htarget
    refine ⟨rfl, .word hword htext rfl (.sign (Input.kind_of_followedBy hopen)
      (fun _ h => nomatch h) rfl (ih.append ?_))⟩
    exact .sign hclose (fun _ h => nomatch h) rfl .nil
  | breakLoop _ hkind htext | continueLoop _ hkind htext =>
    exact ⟨rfl, .word hkind htext rfl .nil⟩
  | returnValue _ hkind htext _ ih => exact ⟨rfl, .word hkind htext rfl ih⟩
  | value _ ih => exact ih
  | @block _ mode _ _ ts hopen hinner ih =>
    have hlies : Lies (Tree.compound _ ts).layout _ _ :=
      .sign hopen (fun _ => Option.some.inj) rfl
        ((ih rfl).append (.sign hinner.kind_of_statements (fun _ h => nomatch h) rfl .nil))
    show Lies (if mode.separator then _ ++ [] else _) _ _
    rw [List.append_nil, ite_self]
    exact hlies
  | unseparated hmode _ ih =>
    show Lies (if _ then _ else _) _ _
    rw [if_neg (by rw [hmode]; decide)]
    exact ih.2
  | separated hmode _ hseparator ih =>
    show Lies (if _ then _ else _) _ _
    rw [if_pos hmode, Tree.ending, if_neg (by rw [ih.1]; decide)]
    exact ih.2.append (.stop hseparator)
  | last => exact fun _ => .nil
  | more _ _ ihfirst ihrest =>
    intro hmode
    have hfirst : Lies (if _ then _ else _) _ _ := ihfirst
    rw [if_pos hmode] at hfirst
    exact hfirst.append (ihrest hmode)

/-! ### From items to tokens -/

/-- The tokens before the first end token. -/
def programTokens (ts : List Token) : List Token :=
  ts.takeWhile fun t => t.kind ≠ .endOfInput

theorem programTokens_cons {t : Token} (h : t.kind ≠ .endOfInput) (ts : List Token) :
    programTokens (t :: ts) = t :: programTokens ts :=
  List.takeWhile_cons_of_pos (decide_eq_true h)

theorem programTokens_append {breaks : List Token} (h : ∀ t ∈ breaks, t.kind = .newLine)
    (ts : List Token) : programTokens (breaks ++ ts) = breaks ++ programTokens ts := by
  refine List.takeWhile_append_of_pos fun t ht => decide_eq_true ?_
  rw [h t ht]
  decide

/-- An end token behind some tokens adds nothing to the program. -/
theorem programTokens_append_end (ts : List Token) {e : Token} (he : e.kind = .endOfInput) :
    programTokens (ts ++ [e]) = programTokens ts := by
  induction ts with
  | nil => exact List.takeWhile_cons_of_neg fun h => of_decide_eq_true h he
  | cons t ts ih =>
    by_cases ht : t.kind = .endOfInput
    · have hnone : ∀ us, programTokens (t :: us) = [] := fun us =>
        List.takeWhile_cons_of_neg fun h => of_decide_eq_true h ht
      rw [List.cons_append, hnone, hnone]
    · rw [List.cons_append, programTokens_cons ht, programTokens_cons ht, ih]

namespace Input

/-- The first item of some tokens is the first that is no line break, and says
whether a line break stands before it. -/
theorem exists_of_itemsFrom_eq_cons {broken : Bool} {ts : List Token} {x : Item}
    {xs : List Item} (h : itemsFrom broken ts = x :: xs) :
    ∃ breaks ts', ts = breaks ++ x.token :: ts' ∧ (∀ t ∈ breaks, t.kind = .newLine) ∧
      xs = itemsFrom false ts' ∧ (x.afterBreak → broken = false → breaks ≠ []) := by
  induction ts generalizing broken with
  | nil => exact nomatch h
  | cons t ts ih =>
    rw [itemsFrom] at h
    split at h
    · next hk =>
      obtain ⟨breaks, ts', rfl, hbreaks, hxs, -⟩ := ih h
      refine ⟨t :: breaks, ts', rfl, ?_, hxs, fun _ _ => List.cons_ne_nil _ _⟩
      intro u hu
      rcases List.mem_cons.1 hu with rfl | hu
      · exact hk
      · exact hbreaks u hu
    · obtain ⟨rfl, rfl⟩ := List.cons.inj h
      refine ⟨[], ts, rfl, fun _ hu => absurd hu List.not_mem_nil, rfl, ?_⟩
      intro hbreak hbroken
      exact absurd (hbroken ▸ hbreak) Bool.false_ne_true

/-- Tokens without items are line breaks. -/
theorem kind_of_itemsFrom_eq_nil {broken : Bool} {ts : List Token}
    (h : itemsFrom broken ts = []) : ∀ t ∈ ts, t.kind = .newLine := by
  induction ts generalizing broken with
  | nil => exact fun _ hu => absurd hu List.not_mem_nil
  | cons t ts ih =>
    rw [itemsFrom] at h
    split at h
    · next hk =>
      intro u hu
      rcases List.mem_cons.1 hu with rfl | hu
      · exact hk
      · exact ih h u hu
    · exact nomatch h

/-- Where the next token is an end token, only line breaks are left. -/
theorem kind_of_current_endOfInput {s : Input} {ts : List Token}
    (hitems : s.items = itemsFrom false ts) (h : s.current.kind = .endOfInput) :
    ∀ t ∈ programTokens ts, t.kind = .newLine := by
  cases hs : s.items with
  | nil =>
    intro t ht
    exact kind_of_itemsFrom_eq_nil (hitems.symm.trans hs) t ((List.takeWhile_prefix _).subset ht)
  | cons x xs =>
    obtain ⟨breaks, ts', rfl, hbreaks, -, -⟩ :=
      exists_of_itemsFrom_eq_cons (hitems.symm.trans hs)
    have hx : x.token.kind = .endOfInput := by rwa [current, hs] at h
    have hend : programTokens (x.token :: ts') = [] :=
      List.takeWhile_cons_of_neg fun hk => absurd hx (of_decide_eq_true hk)
    rw [programTokens_append hbreaks, hend, List.append_nil]
    exact hbreaks

/-- A token other than the end token stands behind line breaks only. -/
theorem exists_of_current {s : Input} {ts : List Token}
    (hitems : s.items = itemsFrom false ts) (hfinal : s.final.kind = .endOfInput)
    (h : s.current.kind ≠ .endOfInput) :
    ∃ breaks ts', programTokens ts = breaks ++ s.current :: programTokens ts' ∧
      (∀ t ∈ breaks, t.kind = .newLine) ∧ s.advance.items = itemsFrom false ts' := by
  cases hs : s.items with
  | nil =>
    rw [current, hs] at h
    exact absurd hfinal h
  | cons x xs =>
    obtain ⟨breaks, ts', rfl, hbreaks, hxs, -⟩ :=
      exists_of_itemsFrom_eq_cons (hitems.symm.trans hs)
    have hx : s.current = x.token := by rw [current, hs]
    refine ⟨breaks, ts', ?_, hbreaks, by rw [advance, hs]; exact hxs⟩
    rw [programTokens_append hbreaks, hx, programTokens_cons (hx ▸ h)]

/-- The items of a program are those of some tokens with the same program. -/
theorem exists_items_ofTokens (ts : List Token) :
    ∃ us, (ofTokens ts).items = itemsFrom false us ∧ programTokens us = programTokens ts := by
  unfold ofTokens
  split
  · next h => exact ⟨[], rfl, by rw [List.getLast?_eq_none_iff.1 h]⟩
  · next t h =>
    split
    · next hk =>
      refine ⟨ts.dropLast, rfl, ?_⟩
      have hts : ts = ts.dropLast ++ [t] := by
        rw [List.dropLast_append_getLast? t h]
      conv_rhs => rw [hts]
      exact (programTokens_append_end _ hk).symm
    · exact ⟨ts, rfl, rfl⟩

end Input

/-- Pieces that lie in the items of some tokens, up to the end of the program,
lie in the tokens of the program. -/
theorem Lies.laid {ps : List Piece} {s r : Input} (h : Lies ps s r)
    (hfinal : s.final.kind = .endOfInput) (hend : r.current.kind = .endOfInput)
    {ts : List Token} (hitems : s.items = Input.itemsFrom false ts) :
    Laid ps (programTokens ts) := by
  induction h generalizing ts with
  | nil =>
    rw [← List.append_nil (programTokens ts)]
    exact .skip_all (Input.kind_of_current_endOfInput hitems hend) .nil
  | token hfits hkind _ ih =>
    obtain ⟨breaks, ts', hts, hbreaks, hitems'⟩ :=
      Input.exists_of_current hitems hfinal fun h => by
        rw [h] at hkind
        exact absurd hkind (by decide)
    rw [hts]
    exact .skip_all hbreaks (.token hfits hkind (ih hfinal hend hitems'))
  | semicolon hkind _ ih =>
    obtain ⟨breaks, ts', hts, hbreaks, hitems'⟩ :=
      Input.exists_of_current hitems hfinal (by rw [hkind]; decide)
    rw [hts]
    exact .skip_all hbreaks (.semicolon hkind (ih hfinal hend hitems'))
  | @lineBreak _ s _ hbreak _ ih =>
    have hrest := ih hfinal hend hitems
    cases hs : s.items with
    | nil =>
      rw [Input.afterBreak, hs] at hbreak
      exact absurd hbreak Bool.false_ne_true
    | cons x xs =>
      obtain ⟨breaks, ts', rfl, hbreaks, -, hne⟩ :=
        Input.exists_of_itemsFrom_eq_cons (hitems.symm.trans hs)
      rw [Input.afterBreak, hs] at hbreak
      rw [programTokens_append hbreaks] at hrest ⊢
      -- The line break that ends the statement is the first of those skipped.
      cases breaks with
      | nil => exact absurd rfl (hne hbreak rfl)
      | cons t breaks => exact .lineBreak (hbreaks t List.mem_cons_self) hrest
  | ending hkind _ ih =>
    have hrest := ih hfinal hend hitems
    have hbreaks := Input.kind_of_current_endOfInput hitems hkind
    cases hts : programTokens ts with
    | nil =>
      rw [hts] at hrest
      exact .ending hrest
    | cons t us =>
      rw [hts] at hrest hbreaks
      exact .lineBreak (hbreaks t List.mem_cons_self) hrest

/-! ### Programs -/

/-- **A parsed program accounts for its tokens.**  The tree lies in the tokens
before the first end token.  Those that are neither line breaks nor separators
are the marks of the tree, each once and in order, and separators stand only
where a statement ends. -/
theorem parseTokens_accounts (o : ParseOptions) (ts : List Token)
    (h : (parseTokens o ts).isBad = false) :
    ∃ ss, parseTokens o ts = .compound .nowhere ss ∧
      List.Forall₂ Mark.Fits (Piece.marks (Tree.layoutAll ss))
        ((programTokens ts).filter (·.kind.isSubstantial)) ∧
      Laid (Tree.layoutAll ss) (programTokens ts) := by
  obtain ⟨ss, hss⟩ := exists_parseTokens_eq_compound h
  obtain ⟨r, hreads⟩ := parseTokens_eq_compound_iff.1 hss
  obtain ⟨us, hitems, hus⟩ := Input.exists_items_ofTokens ts
  have hlies : Lies (Tree.layoutAll ss) _ _ := hreads.laidOut rfl
  have hlaid := hlies.laid (Input.kind_final_ofTokens ts) hreads.kind_of_statements hitems
  rw [hus] at hlaid
  exact ⟨ss, hss, hlaid.forall₂_marks, hlaid⟩

/-- The tokens of a conversion, a line break, a block with `break` in it and an
expression with operators on both sides of its operand. -/
def convertThenLoop : List Token :=
  [⟨.word, "int", ⟨1, 1⟩⟩, ⟨.leftParen, "(", ⟨1, 4⟩⟩, ⟨.integer, "1", ⟨1, 5⟩⟩,
    ⟨.rightParen, ")", ⟨1, 6⟩⟩, ⟨.newLine, "<NL>", ⟨1, 7⟩⟩, ⟨.leftBrace, "\x7b", ⟨2, 1⟩⟩,
    ⟨.controller, "break", ⟨2, 3⟩⟩, ⟨.semicolon, ";", ⟨2, 8⟩⟩, ⟨.rightBrace, "\x7d", ⟨2, 10⟩⟩,
    ⟨.minus, "-", ⟨2, 12⟩⟩, ⟨.integer, "2", ⟨2, 13⟩⟩, ⟨.increment, "++", ⟨2, 14⟩⟩,
    ⟨.semicolon, ";", ⟨2, 16⟩⟩, .endAt ⟨2, 17⟩]

/-- Every token of these but the line break and the two separators is in the
tree. -/
theorem accounts_convertThenLoop :
    (parseTokens { loopControl := true } convertThenLoop).isBad = false ∧
      ∃ ss, parseTokens { loopControl := true } convertThenLoop = .compound .nowhere ss ∧
        List.Forall₂ Mark.Fits (Piece.marks (Tree.layoutAll ss))
          ((programTokens convertThenLoop).filter (·.kind.isSubstantial)) ∧
        Laid (Tree.layoutAll ss) (programTokens convertThenLoop) := by
  have hgood : (parseTokens { loopControl := true } convertThenLoop).isBad = false := by decide
  exact ⟨hgood, parseTokens_accounts _ _ hgood⟩

end ScriptSyntax
