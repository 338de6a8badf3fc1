/-
How high trees are.

Levels of nesting are limited, and within a level right operands bind tighter and
tighter.  So only chains of infix operations, each the left operand of the next, can make
a tree high:

* `heightWith_parseTokens_le` — if a chain counts as one tree, no tree is higher than
  `heightBound` says;
* `not_exists_height_le` — otherwise there is no bound, since a sum of many numbers is
  read as a sum of its last number and of all others.

Design notes: what climbing hands on is at most two trees higher than what it began with
for every precedence that it passes, one for the right operand and one for an operator
after it.  An expression is therefore measured against the precedence that it stands
behind, and everything else against its level only.  A chain begins with an operand, and
this is one tree below it.
-/
import ScriptSyntax.Proofs.Parser.Building
import ScriptSyntax.Proofs.Tree.Depth

namespace ScriptSyntax

/-- The greatest precedence of an operator between two operands. -/
def TokenKind.tightest : Nat := 13

theorem TokenKind.IsBinary.binaryPrecedence_le {k : TokenKind} (h : k.IsBinary) :
    k.binaryPrecedence ≤ tightest := by
  cases k <;> first | decide | exact absurd h (by decide)

/-! ### Bounds -/

/-- The height of operands with `n` levels left. -/
def operandHeight (n : Nat) : Nat :=
  (2 * TokenKind.tightest + 2) * n + 1

theorem operandHeight_succ (n : Nat) :
    operandHeight (n + 1) = operandHeight n + 2 * TokenKind.tightest + 2 := by
  rw [operandHeight, operandHeight, Nat.mul_succ]
  omega

/-- The height of expressions behind an operator of precedence `least`, but for an operator
after the last operand. -/
def climbHeight (n least : Nat) : Nat :=
  operandHeight n + 2 * (TokenKind.tightest - least)

theorem operandHeight_le_climbHeight (n least : Nat) : operandHeight n ≤ climbHeight n least :=
  Nat.le_add_right _ _

/-- Behind a tighter operator expressions are less high. -/
theorem climbHeight_add_two_le {n least : Nat} {k : TokenKind} (h : k.IsBinary)
    (hleast : least < k.binaryPrecedence) :
    climbHeight n k.binaryPrecedence + 2 ≤ climbHeight n least := by
  have := h.binaryPrecedence_le
  unfold climbHeight
  omega

theorem climbHeight_le (n least : Nat) :
    climbHeight n least ≤ operandHeight n + 2 * TokenKind.tightest := by
  unfold climbHeight
  omega

/-- The height of statements of some mode.  The value after `return` is as high as any
other statement, but contains no `return` itself. -/
def statementHeight (n : Nat) (mode : StatementMode) : Nat :=
  operandHeight n + 2 * TokenKind.tightest + 1 + if mode.functionControl then 1 else 0

theorem statementHeight_expression (n : Nat) :
    statementHeight n .expression = operandHeight n + 2 * TokenKind.tightest + 1 := rfl

theorem le_statementHeight (n : Nat) (mode : StatementMode) :
    operandHeight n + 2 * TokenKind.tightest + 1 ≤ statementHeight n mode :=
  Nat.le_add_right _ _

/-! ### What is read -/

/-- What climbing goes on with: an operand, or a chain that is not too high. -/
structure ChainWithin (n least : Nat) (left : Tree) : Prop where
  height : left.heightWith 0 ≤ climbHeight n least
  first : left.isInfix = false → left.heightWith 0 ≤ operandHeight n

/-- The first operand of a chain is below it, and any other chain goes on. -/
theorem ChainWithin.left_le {n least : Nat} {left : Tree} {k : TokenKind}
    (h : ChainWithin n least left) (hk : k.IsBinary) (hleast : least < k.binaryPrecedence) :
    (left.heightWith 0 + if left.isInfix then 0 else 1) ≤ climbHeight n least := by
  cases hinfix : left.isInfix with
  | true => exact h.height
  | false =>
    have hfirst := h.first hinfix
    have hclimb := climbHeight_add_two_le (n := n) hk hleast
    have hoperand := operandHeight_le_climbHeight n k.binaryPrecedence
    show left.heightWith 0 + 1 ≤ _
    omega

/-- The trees of a phrase are as high as its level allows, if those are that it goes on
with. -/
def Phrase.HeightWithin (n : Nat) : Phrase → Prop
  | operand _ t => t.heightWith 0 ≤ operandHeight n
  | operators least left t =>
    ChainWithin n least left → t.heightWith 0 ≤ climbHeight n least + 1
  | expression least t => t.heightWith 0 ≤ climbHeight n least + 1
  | simple mode t | statement mode t => t.heightWith 0 ≤ statementHeight n mode
  | statements _ mode ts => Tree.heightAllWith 0 ts ≤ statementHeight n mode

/-- What is read is as high as its level allows. -/
theorem Reads.heightWithin {n : Nat} {ph : Phrase} {s r : Input} (h : Reads n ph s r) :
    ph.HeightWithin n := by
  induction h with
  | literal => exact Nat.le_add_left _ _
  | @group n _ _ _ _ _ _ _ ih =>
    have ih : Tree.heightWith 0 _ ≤ _ := ih
    rw [statementHeight_expression] at ih
    show Tree.heightWith 0 _ + 1 ≤ operandHeight (n + 1)
    rw [operandHeight_succ]
    omega
  | @unary n _ s _ _ _ _ _ ih =>
    have ih : Tree.heightWith 0 _ ≤ _ := ih
    have := climbHeight_le n s.current.kind.unaryPrecedence
    show Tree.heightWith 0 _ + 1 ≤ operandHeight (n + 1)
    rw [operandHeight_succ]
    omega
  | done => exact fun hleft => Nat.le_succ_of_le hleft.height
  | trailing => exact fun hleft => Nat.succ_le_succ hleft.height
  | @binary n least _ _ _ left right _ hoperator hleast _ _ ihright ihrest =>
    intro hleft
    have hright : right.heightWith 0 ≤ _ := ihright
    have := climbHeight_add_two_le (n := n) hoperator hleast
    refine ihrest ⟨Nat.max_le.2 ⟨hleft.left_le hoperator hleast, ?_⟩, nofun⟩
    omega
  | @expression n least _ _ _ first _ _ _ ihfirst ihrest =>
    have hfirst : first.heightWith 0 ≤ operandHeight n := ihfirst
    exact ihrest ⟨Nat.le_trans hfirst (operandHeight_le_climbHeight n least), fun _ => hfirst⟩
  | @convert n mode _ _ _ _ _ _ _ _ ih =>
    have ih : Tree.heightWith 0 _ ≤ _ := ih
    have := le_statementHeight (n + 1) mode
    rw [statementHeight_expression] at ih
    rw [operandHeight_succ] at this
    show Tree.heightWith 0 _ + 1 ≤ _
    omega
  | @breakLoop n mode | @continueLoop n mode =>
    have := le_statementHeight n mode
    show 1 ≤ statementHeight n mode
    omega
  | @returnValue n mode _ _ _ hmode _ _ _ ih =>
    show Tree.heightWith 0 _ + 1 ≤ statementHeight n mode
    rw [statementHeight, if_pos hmode]
    exact Nat.succ_le_succ ih
  | @value n mode _ _ t _ ih =>
    have ih : t.heightWith 0 ≤ climbHeight n 0 + 1 := ih
    have := climbHeight_le n 0
    have := le_statementHeight n mode
    show t.heightWith 0 ≤ statementHeight n mode
    omega
  | @block n mode _ _ ts _ _ ih =>
    have ih : Tree.heightAllWith 0 ts ≤ statementHeight n mode := ih
    show Tree.heightAllWith 0 ts + 1 ≤ statementHeight (n + 1) mode
    unfold statementHeight at ih ⊢
    rw [operandHeight_succ]
    omega
  | unseparated _ _ ih | separated _ _ _ ih => exact ih
  | last => exact Nat.zero_le _
  | more _ _ ihfirst ihrest => exact Nat.max_le.2 ⟨ihfirst, ihrest⟩

/-! ### Programs -/

/-- The height of programs with some levels of nesting, where operators between operands
have precedences up to some `precedence`. -/
def heightBound (levels precedence : Nat) : Nat :=
  (2 * precedence + 2) * (levels + 1) + 2

/-- **Only chains of infix operations make trees high.**  If an infix operation is not counted
where it is the left operand of another, the height of a tree that is read is bounded in terms
of the limit of nesting and of the precedences. -/
theorem heightWith_parseTokens_le (o : ParseOptions) (ts : List Token) :
    (parseTokens o ts).heightWith 0 ≤ heightBound maxNesting TokenKind.tightest := by
  rcases parseTokens_bad_or_reads o ts with ⟨d, hd⟩ | ⟨ss, r, hss, hreads⟩
  · rw [hd]
    exact Nat.le_add_left _ _
  · have hheight : Tree.heightAllWith 0 ss ≤ statementHeight maxNesting o.statementMode :=
      hreads.heightWithin
    have hmode : statementHeight maxNesting o.statementMode ≤
        operandHeight maxNesting + 2 * TokenKind.tightest + 2 := by
      unfold statementHeight
      split <;> omega
    rw [hss]
    calc Tree.heightAllWith 0 ss + 1
        ≤ operandHeight maxNesting + 2 * TokenKind.tightest + 2 + 1 :=
          Nat.succ_le_succ (Nat.le_trans hheight hmode)
      _ = heightBound maxNesting TokenKind.tightest := rfl

/-! ### Sums -/

/-- The token `1`. -/
def oneToken : Token :=
  ⟨.integer, "1", .start⟩

/-- The tokens of `+ 1`, some number of times. -/
def plusOnes : Nat → List Token
  | 0 => []
  | k + 1 => ⟨.plus, "+", .start⟩ :: oneToken :: plusOnes k

/-- The literal `1`. -/
def Tree.one : Tree :=
  .literal .start (.integer "1")

/-- A sum to which ones have been added, some number of times. -/
def Tree.addOnes (left : Tree) : Nat → Tree
  | 0 => left
  | k + 1 => addOnes (.binary .start .plus left one) k

theorem Tree.heightWith_pos (k : Nat) (t : Tree) : 0 < t.heightWith k := by
  cases t with
  | binary p op l r => exact Nat.lt_of_lt_of_le (Nat.succ_pos _) (Nat.le_max_right _ _)
  | _ => exact Nat.succ_pos _

/-- Every one that is added makes the sum higher. -/
theorem Tree.height_addOnes (left : Tree) (k : Nat) :
    (left.addOnes k).height = left.height + k := by
  induction k generalizing left with
  | zero => rfl
  | succ k ih =>
    have hpos : 1 ≤ left.height := left.heightWith_pos 1
    have hsum : (Tree.binary .start .plus left one).height = left.height + 1 := by
      rw [height_binary]
      exact Nat.max_eq_left (Nat.succ_le_succ hpos)
    rw [addOnes, ih, hsum]
    omega

theorem reads_one {n : Nat} (least k : Nat) (e : Input) :
    Reads n (.operand least .one) (e.joined false (oneToken :: plusOnes k))
      (e.joined false (plusOnes k)) :=
  .literal (s := e.joined false (oneToken :: plusOnes k)) (v := .integer "1") rfl

/-- Ones are added to what stands to the left of them. -/
theorem reads_plusOnes {n : Nat} {e : Input} (he : e.current.kind.binaryPrecedence = 0)
    (left : Tree) (k : Nat) :
    Reads n (.operators 0 left (left.addOnes k)) (e.joined false (plusOnes k)) e := by
  induction k generalizing left with
  | zero => exact .done (Nat.le_of_eq he)
  | succ k ih =>
    -- What follows a one is another sign or no operator, and not in its operand.
    have hnext : (e.joined false (plusOnes k)).current.kind.binaryPrecedence ≤ 12 := by
      cases k with
      | zero =>
        rw [show e.joined false (plusOnes 0) = e from rfl, he]
        exact Nat.zero_le _
      | succ k => exact Nat.le_refl _
    exact .binary (s := e.joined false (plusOnes (k + 1))) (by decide : TokenKind.plus.IsBinary)
      (by decide : 0 < TokenKind.plus.binaryPrecedence)
      (.expression (reads_one 12 k e) (.done hnext)) (ih _)

/-- A sum of ones is read from the left. -/
theorem parseTokens_plusOnes (o : ParseOptions) (k : Nat) :
    parseTokens o (oneToken :: plusOnes k) = .compound .nowhere [Tree.one.addOnes k] := by
  have hkinds : ∀ t ∈ oneToken :: plusOnes k, t.kind ≠ .endOfInput := by
    refine List.forall_mem_cons.2 ⟨nofun, ?_⟩
    induction k with
    | zero => exact nofun
    | succ k ih => exact List.forall_mem_cons.2 ⟨nofun, List.forall_mem_cons.2 ⟨nofun, ih⟩⟩
  obtain ⟨last, hlast, hinput⟩ := Input.exists_ofTokens_eq hkinds
  have hend : (⟨[], last⟩ : Input).current.kind = .endOfInput := hlast
  have hsum := reads_plusOnes (n := maxNesting) (e := ⟨[], last⟩) (by rw [hend]; rfl) .one k
  have hseparator : Parser.SeparatorAt (⟨[], last⟩ : Input) ⟨[], last⟩ :=
    .inr ⟨by rw [hend]; decide, .inl hend, rfl⟩
  refine parseTokens_eq_compound_iff.2 ⟨⟨[], last⟩, ?_⟩
  rw [hinput]
  exact .more (.separated rfl (.value (.expression (reads_one 0 k _) hsum)) hseparator) (.last hend)

/-- **Trees can be as high as one likes.** -/
theorem not_exists_height_le :
    ¬ ∃ bound, ∀ (o : ParseOptions) (ts : List Token), (parseTokens o ts).height ≤ bound := by
  rintro ⟨bound, hbound⟩
  have hsum := hbound {} (oneToken :: plusOnes bound)
  have hheight : (Tree.compound .nowhere [Tree.one.addOnes bound]).height = bound + 2 := by
    show max (Tree.height _) 0 + 1 = bound + 2
    rw [Tree.height_addOnes, Nat.max_zero]
    show 1 + bound + 1 = bound + 2
    omega
  rw [parseTokens_plusOnes, hheight] at hsum
  omega

end ScriptSyntax
