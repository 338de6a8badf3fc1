/-
Trees put together from parts that may be errors.

An error is never a part of what is put together: the first one takes the place of the whole.
A tree is read here as a plan, errors in it included, and built from its leaves up.

* `Tree.leaves` — the trees at the ends of a tree, from left to right;
* `Tree.assembled` — what comes out if every node of a tree is made by its builder;
* `Tree.assembled_eq` — the first leaf that is an error, or else the tree as it was;
* `Tree.first_error_or_same` — the same in full, and that no error is nested in another tree.

Design notes: an error is looked for among the leaves, but a block looks for it among statements
that have been built.  Both find the same one (`Tree.find?_assembledAll`), since a statement that
has been built is an error only if it is one of its own leaves.
-/
import ScriptSyntax.Proofs.Tree.WellFormed

namespace ScriptSyntax

namespace Tree

/-! ### Plans -/

mutual

/-- The trees at the ends of a tree, from left to right. -/
def leaves : Tree → List Tree
  | compound _ ss => leavesAll ss
  | group _ t | convert _ _ t | unary _ _ t | trailing _ _ t | returnValue _ t => leaves t
  | binary _ _ l r => leaves l ++ leaves r
  | bad d => [bad d]
  | literal p v => [literal p v]
  | breakLoop p => [breakLoop p]
  | continueLoop p => [continueLoop p]

/-- The trees at the ends of some trees. -/
def leavesAll : List Tree → List Tree
  | [] => []
  | t :: ts => leaves t ++ leavesAll ts

end

mutual

/-- A tree with every node made by its builder.  Leaves are what they are. -/
def assembled : Tree → Tree
  | compound p ss => compoundOf p (assembledAll ss)
  | group p t => groupOf p (assembled t)
  | convert p target t => convertOf p target (assembled t)
  | unary p op t => unaryOf p op (assembled t)
  | binary p op l r => binaryOf p op (assembled l) (some (assembled r))
  | trailing p op t => binaryOf p op (assembled t) none
  | returnValue p t => returnOf p (assembled t)
  | bad d => bad d
  | literal p v => literal p v
  | breakLoop p => breakLoop p
  | continueLoop p => continueLoop p

/-- Some trees with every node made by its builder. -/
def assembledAll : List Tree → List Tree
  | [] => []
  | t :: ts => assembled t :: assembledAll ts

end

/-! ### The first error -/

/-- A tree without errors at its ends is none. -/
theorem isBad_of_find?_leaves {t : Tree} (h : t.leaves.find? isBad = none) : t.isBad = false := by
  cases t with
  | bad d => exact nomatch h
  | _ => rfl

theorem unlessBad_of_isBad {t : Tree} (h : t.isBad) (build : Tree → Tree) :
    t.unlessBad build = t :=
  if_pos h

theorem unlessBad_of_not_isBad {t : Tree} (h : t.isBad = false) (build : Tree → Tree) :
    t.unlessBad build = build t :=
  if_neg (Bool.eq_false_iff.1 h)

/-- A builder of one part puts the first error in the place of what it would build. -/
theorem unlessBad_getD (t : Tree) (build : Tree → Tree) :
    ((t.leaves.find? isBad).getD t).unlessBad build = (t.leaves.find? isBad).getD (build t) := by
  cases h : t.leaves.find? isBad with
  | none => exact unlessBad_of_not_isBad (isBad_of_find?_leaves h) build
  | some b => exact unlessBad_of_isBad (List.find?_some h) build

/-- The statements of a block have the first error of their leaves as theirs, and they are what
they were if there is none. -/
theorem find?_assembledAll {ss : List Tree}
    (h : ∀ t ∈ ss, t.assembled = (t.leaves.find? isBad).getD t) :
    (assembledAll ss).find? isBad = (leavesAll ss).find? isBad ∧
      ((leavesAll ss).find? isBad = none → assembledAll ss = ss) := by
  induction ss with
  | nil => exact ⟨rfl, fun _ => rfl⟩
  | cons t ss ih =>
    obtain ⟨ht, hss⟩ := List.forall_mem_cons.1 h
    obtain ⟨hfirst, hsame⟩ := ih hss
    rw [assembledAll, leavesAll, List.find?_append, ht]
    cases hleaves : t.leaves.find? isBad with
    | none =>
      have hgood : ¬ t.isBad := Bool.eq_false_iff.1 (isBad_of_find?_leaves hleaves)
      rw [Option.none_or, Option.getD_none, List.find?_cons_of_neg hgood]
      exact ⟨hfirst, fun hnone => congrArg (t :: ·) (hsame hnone)⟩
    | some b =>
      rw [Option.some_or, Option.getD_some, List.find?_cons_of_pos (List.find?_some hleaves)]
      exact ⟨rfl, nofun⟩

/-- What is built from a plan is its first error, or the plan itself. -/
theorem assembled_eq (t : Tree) : t.assembled = (t.leaves.find? isBad).getD t := by
  induction t with
  | compound p ss ih =>
    obtain ⟨hfirst, hsame⟩ := find?_assembledAll ih
    rw [assembled, compoundOf, leaves, hfirst]
    cases hnone : (leavesAll ss).find? isBad with
    | none => exact congrArg (compound p) (hsame hnone)
    | some b => rfl
  | group p t ih => rw [assembled, groupOf, ih, unlessBad_getD, leaves]
  | convert p target t ih => rw [assembled, convertOf, ih, unlessBad_getD, leaves]
  | unary p op t ih => rw [assembled, unaryOf, ih, unlessBad_getD, leaves]
  | trailing p op t ih => rw [assembled, binaryOf, ih, unlessBad_getD, leaves]
  | returnValue p t ih => rw [assembled, returnOf, ih, unlessBad_getD, leaves]
  | binary p op l r ihl ihr =>
    -- An error on the left comes before the right operand is looked at.
    show l.assembled.unlessBad (fun m => r.assembled.unlessBad (binary p op m)) = _
    rw [ihl, unlessBad_getD, ihr, unlessBad_getD, leaves, List.find?_append]
    cases l.leaves.find? isBad with
    | none => rfl
    | some b => rfl
  | bad d => rfl
  | literal | breakLoop | continueLoop => rfl

example (p : Span) (d e : Diagnostic) (t : Tree) :
    (compound p [binary p .plus (group p (bad d)) (bad e), t]).assembled = bad d := rfl

/-! ### Errors are not nested -/

theorem leaves_subset_leavesAll {t : Tree} {ss : List Tree} (h : t ∈ ss) :
    t.leaves ⊆ leavesAll ss := by
  induction ss with
  | nil => exact absurd h List.not_mem_nil
  | cons s ss ih =>
    rw [leavesAll]
    rcases List.mem_cons.1 h with rfl | h
    · exact List.subset_append_left _ _
    · exact List.subset_append_of_subset_right _ (ih h)

theorem leaves_subset_of_mem_children {t u : Tree} (h : u ∈ t.children) :
    u.leaves ⊆ t.leaves := by
  cases t with
  | compound p ss => exact leaves_subset_leavesAll h
  | group p t | convert p target t | unary p op t | trailing p op t | returnValue p t =>
    obtain rfl := List.mem_singleton.1 h
    exact List.Subset.refl _
  | binary p op l r =>
    rw [leaves]
    rcases List.mem_cons.1 h with rfl | h
    · exact List.subset_append_left _ _
    · obtain rfl := List.mem_singleton.1 h
      exact List.subset_append_right _ _
  | bad | literal | breakLoop | continueLoop => exact absurd h List.not_mem_nil

/-- An error is at an end of every tree that it is a part of. -/
theorem mem_leaves_of_isBad {t u : Tree} (hu : u.Within t) (hbad : u.isBad) : u ∈ t.leaves := by
  induction hu with
  | self =>
    cases u with
    | bad d => exact List.mem_singleton_self _
    | _ => exact nomatch hbad
  | child hchild _ ih => exact leaves_subset_of_mem_children hchild ih

/-- **The first error wins.**  What is built from a plan is an error exactly if one of its leaves
is.  It is then the leftmost of these, as it was, and nothing else is left of the plan.
Otherwise it is the plan as it was, with all parts in their order, and no part is an error. -/
theorem first_error_or_same (t : Tree) :
    (t.assembled.isBad ↔ ∃ u ∈ t.leaves, u.isBad) ∧
      ((∃ before b behind, t.leaves = before ++ b :: behind ∧
          (∀ u ∈ before, u.isBad = false) ∧ b.isBad ∧ t.assembled = b) ∨
        ((∀ u ∈ t.leaves, u.isBad = false) ∧ t.assembled = t ∧
          ∀ u : Tree, u.Within t.assembled → u.isBad = false)) := by
  rw [assembled_eq]
  cases hfirst : t.leaves.find? isBad with
  | some b =>
    obtain ⟨hbad, before, behind, hleaves, hbefore⟩ := List.find?_eq_some_iff_append.1 hfirst
    have hmem : b ∈ t.leaves := List.mem_of_find?_eq_some hfirst
    refine ⟨iff_of_true hbad ⟨b, hmem, hbad⟩, .inl ⟨before, b, behind, hleaves, ?_, hbad, rfl⟩⟩
    exact fun u hu => by simpa using hbefore u hu
  | none =>
    have hgood : ∀ u ∈ t.leaves, u.isBad = false := fun u hu =>
      Bool.eq_false_iff.2 (List.find?_eq_none.1 hfirst u hu)
    have hparts : ∀ u : Tree, u.Within t → u.isBad = false := fun u hu =>
      Bool.eq_false_iff.2 fun hbad =>
        Bool.eq_false_iff.1 (hgood u (mem_leaves_of_isBad hu hbad)) hbad
    refine ⟨iff_of_false (Bool.eq_false_iff.1 (hparts t .self)) ?_, .inr ⟨hgood, rfl, hparts⟩⟩
    rintro ⟨u, hu, hbad⟩
    exact Bool.eq_false_iff.1 (hgood u hu) hbad

end Tree

end ScriptSyntax
