/-
Which trees precedence climbing builds.

An operation between two operands should have a left operand that binds at
least as tight and a right operand that binds tighter, and an operator with a
single operand should not take such an operation as its operand at all.  The
right operand and the operand of an operator before it are always as they
should be (`Reads.climbs`).

On the left there is one gap.  An operator after an operand ends the right
operand that it stands in, whatever comes next, so that the operation around
it goes on to be the left operand of the next operator even if that binds
tighter: `1 + 2++ * 3` multiplies a sum.  `Tree.Slips` describes these
operands, and `respectsPrecedence_iff_of_within` says that there is no other
exception.
-/
import ScriptSyntax.Proofs.Parser.Agreement
import ScriptSyntax.Proofs.Tree.WellFormed

namespace ScriptSyntax

namespace Tree

/-- Whether a tree is an operator after its operand. -/
def isTrailing : Tree → Bool
  | trailing .. => true
  | _ => false

/-- An operation between two operands, the second of which ends in an operator
after it. -/
def isEnded : Tree → Bool
  | binary _ _ _ r => r.isTrailing
  | _ => false

/-- An operation on an operation that an operator after its last operand has
ended too early. -/
def Slips : Tree → Prop
  | binary _ op l _ => l.isEnded ∧ ∃ q, l.precedence? = some q ∧ q < op.binaryPrecedence
  | trailing _ _ t => t.isEnded
  | _ => False

/-- What holds of every operation that is built by climbing. -/
def Climbs : Tree → Prop
  | binary _ op l r =>
    op.IsBinary ∧
      (∀ q, l.precedence? = some q → op.binaryPrecedence ≤ q ∨ l.isEnded) ∧
      ∀ q, r.precedence? = some q → op.binaryPrecedence < q
  | unary _ _ t => t.precedence? = none
  | trailing _ _ t => t.precedence? = none ∨ t.isEnded
  | _ => True

theorem exists_precedence?_of_isEnded {t : Tree} (h : t.isEnded) :
    ∃ q, t.precedence? = some q := by
  cases t with
  | binary _ op => exact ⟨op.binaryPrecedence, rfl⟩
  | _ => exact absurd h Bool.false_ne_true

/-- Climbing goes wrong exactly where it slips. -/
theorem Climbs.respectsPrecedence_iff {t : Tree} (h : t.Climbs) :
    t.RespectsPrecedence ↔ ¬ t.Slips := by
  cases t with
  | binary p op l r =>
    obtain ⟨-, hleft, hright⟩ := h
    constructor
    · rintro ⟨hl, -⟩ ⟨-, q, hq, hlt⟩
      have := hl q hq
      omega
    · intro hslips
      refine ⟨fun q hq => ?_, hright⟩
      rcases hleft q hq with hle | hended
      · exact hle
      · rcases Nat.lt_or_ge q op.binaryPrecedence with hlt | hge
        · exact absurd ⟨hended, q, hq, hlt⟩ hslips
        · exact hge
  | unary p op t => exact ⟨fun _ hslips => hslips, fun _ => h⟩
  | trailing p op t =>
    constructor
    · intro hnone hended
      obtain ⟨q, hq⟩ := exists_precedence?_of_isEnded hended
      rw [show t.precedence? = none from hnone] at hq
      exact nomatch hq
    · intro hslips
      exact h.resolve_right hslips
  | _ => exact ⟨fun _ hslips => hslips, fun _ => trivial⟩

/-- The operator of an operation that is built by climbing stands between two
operands. -/
theorem Climbs.exists_isBinary {t : Tree} {q : Nat} (h : t.Climbs)
    (hq : t.precedence? = some q) : ∃ op : TokenKind, op.IsBinary ∧ op.binaryPrecedence = q := by
  cases t with
  | binary p op l r => exact ⟨op, h.1, Option.some.inj hq⟩
  | _ => exact nomatch hq

/-- All parts of a tree are as climbing builds them. -/
def ClimbsThroughout (t : Tree) : Prop :=
  ∀ u : Tree, u.Within t → u.Climbs

theorem climbsThroughout_iff {t : Tree} :
    t.ClimbsThroughout ↔ t.Climbs ∧ ∀ v ∈ t.children, v.ClimbsThroughout :=
  forall_within_iff

theorem ClimbsThroughout.climbs {t : Tree} (h : t.ClimbsThroughout) : t.Climbs :=
  h t .self

/-- Trees around a single operand, other than operators, are as their operand
is. -/
theorem climbsThroughout_of_children {t v : Tree} (ht : t.Climbs) (hchildren : t.children = [v])
    (hv : v.ClimbsThroughout) : t.ClimbsThroughout := by
  refine climbsThroughout_iff.2 ⟨ht, fun u hu => ?_⟩
  rw [hchildren, List.mem_singleton] at hu
  rw [hu]
  exact hv

theorem climbsThroughout_binary {p : Span} {op : TokenKind} {l r : Tree}
    (h : (binary p op l r).Climbs) (hl : l.ClimbsThroughout) (hr : r.ClimbsThroughout) :
    (binary p op l r).ClimbsThroughout := by
  refine climbsThroughout_iff.2 ⟨h, fun u hu => ?_⟩
  rcases List.mem_cons.1 hu with rfl | hu
  · exact hl
  · rw [List.mem_singleton.1 hu]
    exact hr

end Tree

open ScriptSyntax.Tree

/-! ### Readings -/

/-- What a loop over operators that bind tighter than `least` may hand on: an
operation in it binds tighter than `least`, and what follows is no operator for
this loop unless the tree ends in an operator after its operand. -/
structure Closed (least : Nat) (t : Tree) (r : Input) : Prop where
  throughout : t.ClimbsThroughout
  tighter : ∀ q, t.precedence? = some q → least < q
  follows : t.isTrailing ∨ r.current.kind.binaryPrecedence ≤ least

/-- The invariant of climbing, phrase by phrase. -/
def Phrase.Climbs : Phrase → Input → Input → Prop
  | operand _ t, _, _ => t.ClimbsThroughout ∧ t.precedence? = none
  | operators least left t, s, r =>
    left.ClimbsThroughout →
      (∀ q, left.precedence? = some q →
        least < q ∧ (s.current.kind.binaryPrecedence ≤ q ∨ left.isEnded)) →
      Closed least t r
  | expression least t, _, r => Closed least t r
  | simple _ t, _, _ | statement _ t, _, _ => t.ClimbsThroughout
  | statements _ _ ts, _, _ => ∀ t ∈ ts, t.ClimbsThroughout

/-- No operation between two operands binds as tight as an operator before an
operand. -/
theorem Closed.precedence?_eq_none {k : TokenKind} {t : Tree} {r : Input} (hk : k.IsUnary)
    (h : Closed k.unaryPrecedence t r) : t.precedence? = none := by
  cases hq : t.precedence? with
  | none => rfl
  | some q =>
    obtain ⟨op, hop, rfl⟩ := h.throughout.climbs.exists_isBinary hq
    have h₁ := h.tighter _ hq
    have h₂ := TokenKind.binaryPrecedence_lt_unaryPrecedence hop.2 hk
    omega

/-- Every reading climbs. -/
theorem Reads.climbs {n : Nat} {ph : Phrase} {s r : Input} (h : Reads n ph s r) :
    ph.Climbs s r := by
  induction h with
  | literal => exact ⟨climbsThroughout_iff.2 ⟨trivial, fun _ h => nomatch h⟩, rfl⟩
  | group _ _ _ ih => exact ⟨climbsThroughout_of_children trivial rfl ih, rfl⟩
  | unary hoperator _ _ ih =>
    exact ⟨climbsThroughout_of_children (ih.precedence?_eq_none hoperator) rfl ih.throughout, rfl⟩
  | done hleast =>
    intro hleft hq
    exact ⟨hleft, fun q h => (hq q h).1, .inr hleast⟩
  | @trailing _ _ s left hoperator hleast =>
    intro hleft hq
    -- The operator binds tighter than any operation, so only an ended one is its operand.
    have hoperand : left.precedence? = none ∨ left.isEnded := by
      cases hp : left.precedence? with
      | none => exact .inl rfl
      | some q =>
        obtain ⟨op, hop, rfl⟩ := hleft.climbs.exists_isBinary hp
        have hlt := TokenKind.binaryPrecedence_lt_postfix hop
        exact .inr ((hq _ hp).2.resolve_left (by omega))
    exact ⟨climbsThroughout_of_children hoperand rfl hleft, fun q h => (nomatch h), .inl rfl⟩
  | @binary _ _ s s' r left right _ hoperator hleast _ _ ihright ihrest =>
    intro hleft hq
    have hclimbs : (Tree.binary s.current.span s.current.kind left right).Climbs :=
      ⟨hoperator, fun q h => (hq q h).2, ihright.tighter⟩
    refine ihrest (climbsThroughout_binary hclimbs hleft ihright.throughout) fun q h => ?_
    obtain rfl := Option.some.inj h
    -- The operation ends where its right operand does, and as that does.
    exact ⟨hleast, ihright.follows.symm⟩
  | expression _ _ ihfirst ihrest =>
    obtain ⟨hfirst, hnone⟩ := ihfirst
    refine ihrest hfirst fun q h => ?_
    rw [hnone] at h
    exact nomatch h
  | convert _ _ _ _ ih | returnValue _ _ _ _ ih => exact climbsThroughout_of_children trivial rfl ih
  | breakLoop | continueLoop => exact climbsThroughout_iff.2 ⟨trivial, fun _ h => nomatch h⟩
  | value _ ih => exact ih.throughout
  | block _ _ ih => exact climbsThroughout_iff.2 ⟨trivial, ih⟩
  | unseparated _ _ ih | separated _ _ _ ih => exact ih
  | last => exact fun _ h => nomatch h
  | more _ _ ihfirst ihrest =>
    intro t ht
    rcases List.mem_cons.1 ht with rfl | ht
    · exact ihfirst
    · exact ihrest t ht

/-- Every part of every tree is as climbing builds it. -/
theorem climbsThroughout_parseTokens (o : ParseOptions) (ts : List Token) :
    (parseTokens o ts).ClimbsThroughout := by
  cases hbad : (parseTokens o ts).isBad with
  | false =>
    obtain ⟨ss, hss⟩ := exists_parseTokens_eq_compound hbad
    obtain ⟨r, hreads⟩ := parseTokens_eq_compound_iff.1 hss
    rw [hss]
    exact climbsThroughout_iff.2 ⟨trivial, hreads.climbs⟩
  | true =>
    cases ht : parseTokens o ts with
    | bad p => exact climbsThroughout_iff.2 ⟨trivial, fun _ h => nomatch h⟩
    | _ =>
      rw [ht] at hbad
      exact absurd hbad Bool.false_ne_true

/-- **Where precedence is respected.**  In every tree that is parsed, the right
operand of an operation binds tighter than its operator and the operand of an
operator before it is no operation between two operands, and the operands on
the left are as they should be as well, except exactly where an operator after
an operand has ended an operation too early. -/
theorem respectsPrecedence_iff_of_within (o : ParseOptions) (ts : List Token) {u : Tree}
    (h : u.Within (parseTokens o ts)) : u.Climbs ∧ (u.RespectsPrecedence ↔ ¬ u.Slips) := by
  have hclimbs := climbsThroughout_parseTokens o ts u h
  exact ⟨hclimbs, hclimbs.respectsPrecedence_iff⟩

/-- The tokens of `1 + 2++ * 3`. -/
def sumTimes : List Token :=
  [⟨.integer, "1", ⟨1, 1⟩⟩, ⟨.plus, "+", ⟨1, 3⟩⟩, ⟨.integer, "2", ⟨1, 5⟩⟩,
    ⟨.increment, "++", ⟨1, 6⟩⟩, ⟨.star, "*", ⟨1, 9⟩⟩, ⟨.integer, "3", ⟨1, 11⟩⟩,
    .endAt ⟨1, 12⟩]

/-- The product that `1 + 2++ * 3` is read as. -/
def productOfSum : Tree :=
  .binary ⟨1, 9⟩ .star
    (.binary ⟨1, 3⟩ .plus (.literal ⟨1, 1⟩ (.integer "1"))
      (.trailing ⟨1, 6⟩ .increment (.literal ⟨1, 5⟩ (.integer "2"))))
    (.literal ⟨1, 11⟩ (.integer "3"))

theorem parseTokens_sumTimes : parseTokens {} sumTimes = .compound .nowhere [productOfSum] := by
  decide

theorem within_sumTimes : productOfSum.Within (parseTokens {} sumTimes) := by
  rw [parseTokens_sumTimes]
  exact .child (List.mem_singleton.2 rfl) .self

/-- The product in `1 + 2++ * 3` is one of the exceptions. -/
theorem slips_productOfSum :
    productOfSum.Within (parseTokens {} sumTimes) ∧ productOfSum.Slips ∧
      ¬ productOfSum.RespectsPrecedence := by
  have hslips : productOfSum.Slips := ⟨rfl, 12, rfl, by decide⟩
  have hiff := (respectsPrecedence_iff_of_within {} sumTimes within_sumTimes).2
  exact ⟨within_sumTimes, hslips, fun h => hiff.1 h hslips⟩

/-- Not all trees that are parsed respect precedence. -/
theorem not_forall_respectsPrecedence :
    ¬ ∀ (o : ParseOptions) (ts : List Token) (u : Tree),
      u.Within (parseTokens o ts) → u.RespectsPrecedence := by
  intro h
  have hleft := (h {} sumTimes productOfSum within_sumTimes).1 12 rfl
  exact absurd hleft (by decide)

end ScriptSyntax
