/-
Line breaks do not change programs.

A line break between two tokens can end a statement where one has ended, and can keep a
type from the parenthesis behind it.  Otherwise it is not seen, and so a program stays the
same however many are put into it.

* `Input.LooserThan` relates inputs of which one has more line breaks;
* `Reads.loosened` — what is read from the one is read from the other;
* `AddsBreaks` says how line breaks are put between tokens;
* `parseTokens_addsBreaks` — a program with more line breaks is the same program.

Design notes: the rules look for a line break in two places, and a break helps in the one
and harms in the other.  So the relation of the items has the token before them as a
parameter, or rather whether this token names a type.
-/
import ScriptSyntax.Proofs.Parser.FirstEnd

namespace ScriptSyntax

/-! ### Items with more line breaks -/

/-- The second items are the first with line breaks before more of them, but with none
between a type and the parenthesis behind it.  The token before the items names a type if
`typed` says so. -/
inductive Item.MoreBroken : Bool → List Item → List Item → Prop where
  | nil {typed : Bool} : MoreBroken typed [] []
  | cons {typed broken broken' : Bool} {t : Token} {xs ys : List Item}
      (hbreak : broken → broken') (hopen : typed → t.kind = .leftParen → broken' → broken)
      (hrest : MoreBroken (Parser.typeOf? t).isSome xs ys) :
      MoreBroken typed (⟨t, broken⟩ :: xs) (⟨t, broken'⟩ :: ys)

namespace Item.MoreBroken

variable {typed : Bool}

theorem refl (xs : List Item) : MoreBroken typed xs xs := by
  induction xs generalizing typed with
  | nil => exact .nil
  | cons x xs ih => exact .cons id (fun _ _ => id) ih

/-- Where no type is named line breaks are free. -/
theorem untyped {xs ys : List Item} (h : MoreBroken typed xs ys) : MoreBroken false xs ys := by
  cases h with
  | nil => exact .nil
  | cons hbreak _ hrest => exact .cons hbreak nofun hrest

end Item.MoreBroken

namespace Input

/-- The second input is the first with more line breaks, up to the end token. -/
structure LooserThan (s s' : Input) : Prop where
  items : Item.MoreBroken false s.items s'.items
  kind_final : s.final.kind = .endOfInput
  kind_final' : s'.final.kind = .endOfInput

namespace LooserThan

variable {s s' : Input}

theorem kind_current (h : s.LooserThan s') : s'.current.kind = s.current.kind := by
  rcases s with ⟨xs, last⟩
  rcases s' with ⟨ys, last'⟩
  obtain ⟨hitems, hlast, hlast'⟩ := h
  cases hitems with
  | nil => exact hlast'.trans hlast.symm
  | cons => rfl

theorem current_eq (h : s.LooserThan s') (hend : s.current.kind ≠ .endOfInput) :
    s'.current = s.current := by
  rcases s with ⟨xs, last⟩
  rcases s' with ⟨ys, last'⟩
  obtain ⟨hitems, hlast, -⟩ := h
  cases hitems with
  | nil => exact absurd hlast hend
  | cons => rfl

theorem afterBreak (h : s.LooserThan s') (hbreak : s.afterBreak) : s'.afterBreak := by
  rcases s with ⟨xs, last⟩
  rcases s' with ⟨ys, last'⟩
  obtain ⟨hitems, -, -⟩ := h
  cases hitems with
  | nil => exact hbreak
  | cons hbroken => exact hbroken hbreak

theorem advance (h : s.LooserThan s') : s.advance.LooserThan s'.advance := by
  rcases s with ⟨xs, last⟩
  rcases s' with ⟨ys, last'⟩
  obtain ⟨hitems, hlast, hlast'⟩ := h
  refine ⟨?_, hlast, hlast'⟩
  cases hitems with
  | nil => exact .nil
  | cons _ _ hrest => exact hrest.untyped

/-- A parenthesis stays right behind a type. -/
theorem followedBy (h : s.LooserThan s') (htype : (Parser.typeOf? s.current).isSome)
    (hopen : s.followedBy .leftParen) : s'.followedBy .leftParen := by
  have hkind := h.advance.kind_current
  rcases s with ⟨xs, last⟩
  rcases s' with ⟨ys, last'⟩
  obtain ⟨hitems, -, -⟩ := h
  rw [Input.followedBy, Bool.and_eq_true, Bool.not_eq_true'] at hopen ⊢
  refine ⟨?_, hkind ▸ hopen.2⟩
  cases hitems with
  | nil => rfl
  | cons _ _ hrest =>
    -- The token is a type, so the item behind it is broken in neither input.
    have hrest : Item.MoreBroken true _ _ := htype ▸ hrest
    cases hrest with
    | nil => rfl
    | cons _ hparen =>
      have hbroken := hopen.1
      refine Bool.eq_false_iff.2 fun hbreak => ?_
      have hbroken' := hparen rfl (beq_iff_eq.1 hopen.2) hbreak
      exact Bool.noConfusion (hbroken.symm.trans hbroken')

end LooserThan

end Input

/-! ### Rules -/

theorem Parser.SeparatorAt.loosened {s r s' : Input} (h : SeparatorAt s r)
    (hs : s.LooserThan s') : ∃ r', r.LooserThan r' ∧ SeparatorAt s' r' := by
  rcases h with ⟨hkind, rfl⟩ | ⟨hkind, hbreak, rfl⟩
  · exact ⟨_, hs.advance, .inl ⟨hs.kind_current.trans hkind, rfl⟩⟩
  · rw [← hs.kind_current] at hkind hbreak
    exact ⟨_, hs, .inr ⟨hkind, hbreak.imp_right hs.afterBreak, rfl⟩⟩

/-- What is read is read with more line breaks too. -/
theorem Reads.loosened {n : Nat} {ph : Phrase} {s r s' : Input} (h : Reads n ph s r)
    (hs : s.LooserThan s') : ∃ r', r.LooserThan r' ∧ Reads n ph s' r' := by
  -- Tokens that are taken are the same in both inputs.
  induction h generalizing s' with
  | literal hvalue =>
    have hcurrent := hs.current_eq fun hend => by simp [Literal.ofToken?, hend] at hvalue
    rw [← hcurrent] at hvalue ⊢
    exact ⟨_, hs.advance, .literal hvalue⟩
  | group hopen _ hclose ih =>
    have hcurrent := hs.current_eq (by rw [hopen]; decide)
    obtain ⟨r', hr, hinner⟩ := ih hs.advance
    rw [← hcurrent] at hopen ⊢
    exact ⟨_, hr.advance, .group hopen hinner (hr.kind_current.trans hclose)⟩
  | unary hoperator hleast _ ih =>
    have hcurrent := hs.current_eq hoperator.ne_endOfInput
    obtain ⟨r', hr, hinner⟩ := ih hs.advance
    rw [← hcurrent] at hoperator hleast hinner ⊢
    exact ⟨r', hr, .unary hoperator hleast hinner⟩
  | done hleast => exact ⟨s', hs, .done (hs.kind_current ▸ hleast)⟩
  | trailing hoperator hleast =>
    have hcurrent := hs.current_eq (TokenKind.ne_endOfInput_of_lt_binaryPrecedence hleast)
    rw [← hcurrent] at hoperator hleast ⊢
    exact ⟨_, hs.advance, .trailing hoperator hleast⟩
  | binary hoperator hleast _ _ ihright ihrest =>
    have hcurrent := hs.current_eq (TokenKind.ne_endOfInput_of_lt_binaryPrecedence hleast)
    obtain ⟨_, hr₁, hright⟩ := ihright hs.advance
    obtain ⟨r', hr, hrest⟩ := ihrest hr₁
    rw [← hcurrent] at hoperator hleast hright hrest
    exact ⟨r', hr, .binary hoperator hleast hright hrest⟩
  | expression _ _ ihfirst ihrest =>
    obtain ⟨_, hr₁, hfirst⟩ := ihfirst hs
    obtain ⟨r', hr, hrest⟩ := ihrest hr₁
    exact ⟨r', hr, .expression hfirst hrest⟩
  | convert htarget hopen _ hclose ih =>
    have hcurrent := hs.current_eq (by rw [Reads.kind_of_typeOf? htarget]; decide)
    have hopen := hs.followedBy (by rw [htarget]; rfl) hopen
    obtain ⟨r', hr, hinner⟩ := ih hs.advance.advance
    rw [← hcurrent] at htarget ⊢
    exact ⟨_, hr.advance, .convert htarget hopen hinner (hr.kind_current.trans hclose)⟩
  | breakLoop hmode hkind htext =>
    have hcurrent := hs.current_eq (by rw [hkind]; decide)
    rw [← hcurrent] at hkind htext ⊢
    exact ⟨_, hs.advance, .breakLoop hmode hkind htext⟩
  | continueLoop hmode hkind htext =>
    have hcurrent := hs.current_eq (by rw [hkind]; decide)
    rw [← hcurrent] at hkind htext ⊢
    exact ⟨_, hs.advance, .continueLoop hmode hkind htext⟩
  | returnValue hmode hkind htext _ ih =>
    have hcurrent := hs.current_eq (by rw [hkind]; decide)
    obtain ⟨r', hr, hvalue⟩ := ih hs.advance
    rw [← hcurrent] at hkind htext ⊢
    exact ⟨r', hr, .returnValue hmode hkind htext hvalue⟩
  | value _ ih =>
    obtain ⟨r', hr, hvalue⟩ := ih hs
    exact ⟨r', hr, .value hvalue⟩
  | block hopen _ ih =>
    have hcurrent := hs.current_eq (by rw [hopen]; decide)
    obtain ⟨r', hr, hinner⟩ := ih hs.advance
    rw [← hcurrent] at hopen ⊢
    exact ⟨_, hr.advance, .block hopen hinner⟩
  | unseparated hmode _ ih =>
    obtain ⟨r', hr, hsimple⟩ := ih hs
    exact ⟨r', hr, .unseparated hmode hsimple⟩
  | separated hmode _ hseparator ih =>
    obtain ⟨_, hr₁, hsimple⟩ := ih hs
    obtain ⟨r', hr, hseparator'⟩ := hseparator.loosened hr₁
    exact ⟨r', hr, .separated hmode hsimple hseparator'⟩
  | last hclose => exact ⟨s', hs, .last (hs.kind_current.trans hclose)⟩
  | more _ _ ihfirst ihrest =>
    obtain ⟨_, hr₁, hfirst⟩ := ihfirst hs
    obtain ⟨r', hr, hrest⟩ := ihrest hr₁
    exact ⟨r', hr, .more hfirst hrest⟩

/-! ### Tokens with more line breaks -/

/-- Whether the last of some tokens is a word that names a type, or `typed` if there is
none. -/
def endsTyped (typed : Bool) (ts : List Token) : Bool :=
  ts.getLast?.elim typed fun t => (Parser.typeOf? t).isSome

theorem endsTyped_cons (typed : Bool) (t : Token) (ts : List Token) :
    endsTyped typed (t :: ts) = endsTyped (Parser.typeOf? t).isSome ts := by
  rw [endsTyped, endsTyped, List.getLast?_cons]
  cases ts.getLast? <;> rfl

theorem endsTyped_false_iff {ts : List Token} :
    endsTyped false ts ↔ ∃ t ∈ ts.getLast?, (Parser.typeOf? t).isSome := by
  cases h : ts.getLast? <;> simp [endsTyped, h]

/-- Between the two lists of tokens a type stands in front of the parenthesis right behind
it. -/
def SplitsConversion (front back : List Token) : Prop :=
  (∃ t ∈ front.getLast?, (Parser.typeOf? t).isSome) ∧ ∃ t ∈ back.head?, t.kind = .leftParen

instance (front back : List Token) : Decidable (SplitsConversion front back) :=
  inferInstanceAs (Decidable (_ ∧ _))

/-- The second tokens are the first with line breaks put into them, one by one and at any
place but between a type and the parenthesis right behind it. -/
inductive AddsBreaks (ts : List Token) : List Token → Prop where
  | refl : AddsBreaks ts ts
  | insert {front back : List Token} {b : Token} (h : AddsBreaks ts (front ++ back))
      (hb : b.kind = .newLine) (hplace : ¬ SplitsConversion front back) :
      AddsBreaks ts (front ++ b :: back)

section

variable {front back : List Token} {b : Token}

/-- A line break before some tokens. -/
theorem moreBroken_itemsFrom_true {typed broken : Bool}
    (hplace : ∀ t ∈ back.head?, t.kind = .leftParen → (typed && !broken) = false) :
    Item.MoreBroken typed (Input.itemsFrom broken back) (Input.itemsFrom true back) := by
  cases back with
  | nil => exact .nil
  | cons t back =>
    rw [Input.itemsFrom, Input.itemsFrom]
    split
    · exact .refl _
    · refine .cons (fun _ => rfl) (fun htyped hparen _ => ?_) (.refl _)
      have hfree := hplace t rfl hparen
      rw [htyped, Bool.true_and, Bool.not_eq_false'] at hfree
      exact hfree

/-- A line break among some tokens. -/
theorem moreBroken_insert (hb : b.kind = .newLine) {typed broken : Bool}
    (hplace : ∀ t ∈ back.head?, t.kind = .leftParen → endsTyped (typed && !broken) front = false) :
    Item.MoreBroken typed (Input.itemsFrom broken (front ++ back))
      (Input.itemsFrom broken (front ++ b :: back)) := by
  induction front generalizing typed broken with
  | nil =>
    rw [List.nil_append, List.nil_append, Input.itemsFrom.eq_2, if_pos hb]
    exact moreBroken_itemsFrom_true hplace
  | cons t front ih =>
    rw [List.cons_append, List.cons_append, Input.itemsFrom, Input.itemsFrom]
    split
    · next ht =>
      -- Behind a line break no type is in front of the next token.
      refine ih fun u hu hparen => ?_
      have hnone : Parser.typeOf? t = none := if_neg (by rw [ht]; decide)
      have hfree := hplace u hu hparen
      rw [endsTyped_cons, hnone] at hfree
      rw [Bool.not_true, Bool.and_false]
      exact hfree
    · refine .cons id (fun _ _ => id) (ih fun u hu hparen => ?_)
      have hfree := hplace u hu hparen
      rw [endsTyped_cons] at hfree
      rw [Bool.not_false, Bool.and_true]
      exact hfree

/-- Tokens that end nowhere give more broken items with a line break among them. -/
theorem looserThan_insert (hkinds : ∀ t ∈ front ++ back, t.kind ≠ .endOfInput)
    (hb : b.kind = .newLine) (hplace : ¬ SplitsConversion front back) :
    (Input.ofTokens (front ++ back)).LooserThan (.ofTokens (front ++ b :: back)) := by
  have hkinds' : ∀ t ∈ front ++ b :: back, t.kind ≠ .endOfInput := by
    intro t ht
    rcases List.mem_append.1 ht with ht | ht
    · exact hkinds t (List.mem_append_left _ ht)
    · rcases List.mem_cons.1 ht with rfl | ht
      · rw [hb]
        decide
      · exact hkinds t (List.mem_append_right _ ht)
  obtain ⟨last, hlast, hinput⟩ := Input.exists_ofTokens_eq hkinds
  obtain ⟨last', hlast', hinput'⟩ := Input.exists_ofTokens_eq hkinds'
  rw [hinput, hinput']
  refine ⟨?_, hlast, hlast'⟩
  rw [Input.joined, Input.joined, List.append_nil, List.append_nil]
  refine moreBroken_insert hb fun t ht hparen => Bool.eq_false_iff.2 fun htyped => ?_
  exact hplace ⟨endsTyped_false_iff.1 htyped, t, ht, hparen⟩

/-! ### Programs -/

variable {o : ParseOptions}

/-- The tokens before the first end token decide what the others give. -/
theorem parseTokens_eq_of_programTokens {ts us : List Token}
    (hgood : (parseTokens o ts).isBad = false)
    (h : (parseTokens o (programTokens ts)).isBad = false →
      parseTokens o (programTokens us) = parseTokens o (programTokens ts)) :
    parseTokens o us = parseTokens o ts := by
  have hts := parseTokens_programTokens_of_good hgood
  have hus := h (hts ▸ hgood)
  rw [hts] at hus
  rcases parseTokens_programTokens o us with heq | ⟨-, hbad⟩
  · exact heq.symm.trans hus
  · rw [hus, hgood] at hbad
    exact Bool.noConfusion hbad

/-- One line break among tokens that end nowhere. -/
theorem parseTokens_insert_of_unended (hkinds : ∀ t ∈ front ++ back, t.kind ≠ .endOfInput)
    (hgood : (parseTokens o (front ++ back)).isBad = false) (hb : b.kind = .newLine)
    (hplace : ¬ SplitsConversion front back) :
    parseTokens o (front ++ b :: back) = parseTokens o (front ++ back) := by
  obtain ⟨ss, hss⟩ := exists_parseTokens_eq_compound hgood
  obtain ⟨r, hreads⟩ := parseTokens_eq_compound_iff.1 hss
  obtain ⟨r', -, hreads'⟩ := hreads.loosened (looserThan_insert hkinds hb hplace)
  rw [hss, parseTokens_eq_compound_iff.2 ⟨r', hreads'⟩]

/-- One line break, be it before the end of the program or behind it. -/
theorem parseTokens_insert (hgood : (parseTokens o (front ++ back)).isBad = false)
    (hb : b.kind = .newLine) (hplace : ¬ SplitsConversion front back) :
    parseTokens o (front ++ b :: back) = parseTokens o (front ++ back) := by
  refine parseTokens_eq_of_programTokens hgood fun hgood => ?_
  rcases programTokens_cases front with hfront | ⟨e, rest, he, hfront⟩
  · have hkinds : ∀ t ∈ front, t.kind ≠ .endOfInput := by
      rw [← hfront]
      exact fun _ => kind_ne_of_mem_programTokens
    have hcons : programTokens (b :: back) = b :: programTokens back :=
      programTokens_cons (by rw [hb]; decide) back
    rw [programTokens_append_of_unended hkinds] at hgood ⊢
    rw [programTokens_append_of_unended hkinds, hcons]
    refine parseTokens_insert_of_unended (fun t ht => ?_) hgood hb fun ⟨htyped, t, ht, hparen⟩ => ?_
    · exact (List.mem_append.1 ht).elim (hkinds t) kind_ne_of_mem_programTokens
    · rw [programTokens, List.head?_takeWhile] at ht
      exact hplace ⟨htyped, t, (Option.mem_filter_iff.1 ht).1, hparen⟩
  · rw [programTokens_append_of_ended he hfront, programTokens_append_of_ended he hfront]

/-- **Line breaks do not change programs.**  However many of them are put between the
tokens of a program, but not between a type and the parenthesis right behind it, the
tree is the same. -/
theorem parseTokens_addsBreaks {ts us : List Token} (hgood : (parseTokens o ts).isBad = false)
    (h : AddsBreaks ts us) : parseTokens o us = parseTokens o ts := by
  induction h with
  | refl => rfl
  | insert _ hb hplace ih =>
    rw [← ih] at hgood ⊢
    exact parseTokens_insert hgood hb hplace

end

/-- The tokens of `int(1)`. -/
def intOfOne : List Token :=
  [⟨.word, "int", ⟨1, 1⟩⟩, ⟨.leftParen, "(", ⟨1, 4⟩⟩, ⟨.integer, "1", ⟨1, 5⟩⟩,
    ⟨.rightParen, ")", ⟨1, 6⟩⟩, .endAt ⟨1, 7⟩]

/-- In `int(1)` line breaks are put before the type, in the parentheses and at the end. -/
theorem parseTokens_addsBreaks_intOfOne :
    let b : Token := ⟨.newLine, "<NL>", ⟨9, 9⟩⟩
    let us := b :: intOfOne.take 2 ++ b :: b :: intOfOne.drop 2 ++ [b]
    (parseTokens {} intOfOne).isBad = false ∧ AddsBreaks intOfOne us ∧
      parseTokens {} us = parseTokens {} intOfOne := by
  intro b us
  have hgood : (parseTokens {} intOfOne).isBad = false := rfl
  have hnone : AddsBreaks intOfOne ([] ++ intOfOne) := .refl
  have hbefore : AddsBreaks intOfOne ([] ++ b :: intOfOne) := .insert hnone rfl (by decide)
  have hinside : AddsBreaks intOfOne (b :: intOfOne.take 2 ++ b :: intOfOne.drop 2) :=
    .insert hbefore rfl (by decide)
  have htwice : AddsBreaks intOfOne (b :: intOfOne.take 2 ++ b :: b :: intOfOne.drop 2) :=
    .insert hinside rfl (by decide)
  rw [← List.append_nil (_ ++ _)] at htwice
  have hend : AddsBreaks intOfOne us := .insert htwice rfl (by decide)
  exact ⟨hgood, hend, parseTokens_addsBreaks hgood hend⟩

/-- Behind the type a line break is an error. -/
example : let b : Token := ⟨.newLine, "<NL>", ⟨1, 4⟩⟩
    (parseTokens {} (intOfOne.take 1 ++ b :: intOfOne.drop 1)).isBad :=
  rfl

end ScriptSyntax
