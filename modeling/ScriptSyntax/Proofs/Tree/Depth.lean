/-
Ways down a tree, and how long they are.

* `Tree.LeadsDown` says of some trees that each is a child of the one before it;
* `Tree.countP_opensLevel_le` — a way down passes no more levels of nesting than
  the tree that it begins with has;
* `Tree.height` is the length of the longest way down, and `Tree.heightWith` that
  length with the steps along a chain of infix operations counted in some other way.
-/
import Mathlib.Data.List.Chain
import ScriptSyntax.Proofs.Tree.WellFormed

namespace ScriptSyntax

namespace Tree

/-! ### Ways down -/

/-- Each of the trees is a child of the one before it. -/
def LeadsDown (p : List Tree) : Prop :=
  p.IsChain fun t u => u ∈ t.children

instance : DecidablePred LeadsDown := fun p =>
  inferInstanceAs (Decidable (p.IsChain fun t u => u ∈ t.children))

theorem leadsDown_cons_cons {t u : Tree} {p : List Tree} :
    LeadsDown (t :: u :: p) ↔ u ∈ t.children ∧ LeadsDown (u :: p) :=
  List.isChain_cons_cons

/-- Where a way down ends is a part of the tree that it begins with. -/
theorem LeadsDown.within {t u : Tree} {p : List Tree} (h : LeadsDown (t :: (p ++ [u]))) :
    u.Within t := by
  induction p generalizing t with
  | nil => exact .child (leadsDown_cons_cons.1 h).1 .self
  | cons v p ih =>
    obtain ⟨hchild, hrest⟩ := leadsDown_cons_cons.1 h
    exact .child hchild (ih hrest)

/-! ### Levels of nesting -/

/-- Whether a tree is a level of nesting for what stands in it. -/
def opensLevel : Tree → Bool
  | compound .. | group .. | convert .. | unary .. => true
  | _ => false

theorem nesting_le_nestingAll {t : Tree} {ss : List Tree} (h : t ∈ ss) :
    t.nesting ≤ nestingAll ss := by
  induction ss with
  | nil => exact absurd h List.not_mem_nil
  | cons s ss ih =>
    rw [nestingAll]
    rcases List.mem_cons.1 h with rfl | h
    · exact Nat.le_max_left _ _
    · exact Nat.le_trans (ih h) (Nat.le_max_right _ _)

/-- A child has a level less below it than a tree that is a level. -/
theorem nesting_add_le {t u : Tree} (h : u ∈ t.children) :
    u.nesting + (if t.opensLevel then 1 else 0) ≤ t.nesting := by
  cases t with
  | compound p ss => exact Nat.succ_le_succ (nesting_le_nestingAll h)
  | group p t | convert p target t | unary p op t | trailing p op t | returnValue p t =>
    obtain rfl := List.mem_singleton.1 h
    exact Nat.le_refl _
  | binary p op l r =>
    rw [nesting]
    rcases List.mem_cons.1 h with rfl | h
    · exact Nat.le_max_left _ _
    · obtain rfl := List.mem_singleton.1 h
      exact Nat.le_max_right _ _
  | bad | literal | breakLoop | continueLoop => exact absurd h List.not_mem_nil

theorem opensLevel_le_nesting (t : Tree) : (if t.opensLevel then 1 else 0) ≤ t.nesting := by
  cases t with
  | compound | group | convert | unary => exact Nat.succ_le_succ (Nat.zero_le _)
  | _ => exact Nat.zero_le _

/-- No way down passes more levels than its first tree has. -/
theorem countP_opensLevel_le {t : Tree} {p : List Tree} (h : LeadsDown (t :: p)) :
    (t :: p).countP opensLevel ≤ t.nesting := by
  induction p generalizing t with
  | nil =>
    rw [List.countP_cons, List.countP_nil, Nat.zero_add]
    exact opensLevel_le_nesting t
  | cons u p ih =>
    obtain ⟨hchild, hrest⟩ := leadsDown_cons_cons.1 h
    calc (t :: u :: p).countP opensLevel
        = (u :: p).countP opensLevel + if t.opensLevel then 1 else 0 := List.countP_cons
      _ ≤ u.nesting + if t.opensLevel then 1 else 0 := Nat.add_le_add_right (ih hrest) _
      _ ≤ t.nesting := nesting_add_le hchild

/-! ### Height -/

/-- Whether a tree is an operation with two operands. -/
def isInfix : Tree → Bool
  | binary .. => true
  | _ => false

mutual

/-- The greatest number of trees on a way down, where an infix operation that is
the left operand of another counts `k` and every other tree counts one. -/
def heightWith (k : Nat) : Tree → Nat
  | compound _ ss => heightAllWith k ss + 1
  | group _ t | convert _ _ t | unary _ _ t | trailing _ _ t | returnValue _ t =>
    heightWith k t + 1
  | binary _ _ l r => max (heightWith k l + if l.isInfix then k else 1) (heightWith k r + 1)
  | bad _ | literal .. | breakLoop _ | continueLoop _ => 1

/-- That number for the highest of some trees. -/
def heightAllWith (k : Nat) : List Tree → Nat
  | [] => 0
  | t :: ts => max (heightWith k t) (heightAllWith k ts)

end

/-- The greatest number of trees on a way down. -/
def height (t : Tree) : Nat :=
  t.heightWith 1

theorem height_binary (p : Span) (op : TokenKind) (l r : Tree) :
    (binary p op l r).height = max (l.height + 1) (r.height + 1) := by
  rw [height, heightWith, ite_self]
  rfl

end Tree

end ScriptSyntax
