/-
Where control statements stand.

What a statement may be is passed on by blocks, and by nothing else.  So a control
statement that is read is one that the options allow, and around it stand blocks only:

* `Tree.Controlled` says so of a tree, and `Reads.controlled` that what is read is so;
* `allowed_of_leadsDown` — on every way down a program to a control statement.

Design notes: a tree without control statements is `Tree.IsFree`.  In a mode that allows
none statements are free (`Tree.Controlled.isFree`), which is why brackets and `return`
give nothing back to the blocks in them.
-/
import ScriptSyntax.Proofs.Parser.Building
import ScriptSyntax.Proofs.Tree.Depth

namespace ScriptSyntax

/-! ### Trees -/

namespace Tree

/-- What allows a control statement. -/
def permission? : Tree → Option (ParseOptions → Bool)
  | breakLoop _ | continueLoop _ => some (·.loopControl)
  | returnValue .. => some (·.functionControl)
  | _ => none

/-- No part of the tree is a control statement. -/
def IsFree (t : Tree) : Prop :=
  ∀ u : Tree, u.Within t → u.permission? = none

theorem isFree_iff {t : Tree} :
    t.IsFree ↔ t.permission? = none ∧ ∀ v ∈ t.children, v.IsFree :=
  forall_within_iff

/-- The control statements in the tree are allowed, and stand in blocks only. -/
inductive Controlled (o : ParseOptions) : Tree → Prop where
  | free {t : Tree} (h : t.IsFree) : Controlled o t
  | block {p : Span} {ss : List Tree} (h : ∀ t ∈ ss, Controlled o t) :
      Controlled o (.compound p ss)
  | breakLoop {p : Span} (hallowed : o.loopControl) : Controlled o (.breakLoop p)
  | continueLoop {p : Span} (hallowed : o.loopControl) : Controlled o (.continueLoop p)
  | returnValue {p : Span} {t : Tree} (hallowed : o.functionControl) (hvalue : t.IsFree) :
      Controlled o (.returnValue p t)

namespace Controlled

variable {o : ParseOptions} {t u : Tree} {allows : ParseOptions → Bool}

/-- Where nothing is allowed there are no control statements. -/
theorem isFree (h : t.Controlled {}) : t.IsFree := by
  induction h with
  | free h => exact h
  | block _ ih => exact isFree_iff.2 ⟨rfl, ih⟩
  | breakLoop hallowed | continueLoop hallowed | returnValue hallowed =>
    exact absurd hallowed Bool.false_ne_true

theorem allows_of_permission? (h : t.Controlled o) (ht : t.permission? = some allows) :
    allows o := by
  cases h with
  | free h =>
    rw [h t .self] at ht
    exact nomatch ht
  | block => exact nomatch ht
  | breakLoop hallowed | continueLoop hallowed | returnValue hallowed =>
    obtain rfl := Option.some.inj ht
    exact hallowed

/-- A tree with a control statement below it is a block, which allows it in its children. -/
theorem child {v : Tree} (h : t.Controlled o) (hchild : v ∈ t.children) (hwithin : u.Within v)
    (hu : u.permission? = some allows) : t.isBlock ∧ v.Controlled o := by
  have hnone : ∀ {w : Tree}, w.IsFree → ¬ u.Within w := fun hfree hw => by
    rw [hfree u hw] at hu
    exact nomatch hu
  cases h with
  | free h => exact absurd (.child hchild hwithin) (hnone h)
  | block h => exact ⟨rfl, h v hchild⟩
  | breakLoop | continueLoop => exact absurd hchild List.not_mem_nil
  | returnValue _ hvalue =>
    obtain rfl := List.mem_singleton.1 hchild
    exact absurd hwithin (hnone hvalue)

/-- On the way down to a control statement there are blocks only. -/
theorem of_leadsDown {p : List Tree} (h : t.Controlled o) (hway : LeadsDown (t :: (p ++ [u])))
    (hu : u.permission? = some allows) : allows o ∧ ∀ v ∈ t :: p, v.isBlock := by
  induction p generalizing t with
  | nil =>
    obtain ⟨hblock, hallowed⟩ := h.child (leadsDown_cons_cons.1 hway).1 .self hu
    exact ⟨hallowed.allows_of_permission? hu, List.forall_mem_singleton.2 hblock⟩
  | cons v p ih =>
    obtain ⟨hchild, hrest⟩ := leadsDown_cons_cons.1 hway
    obtain ⟨hblock, hv⟩ := h.child hchild hrest.within hu
    obtain ⟨hallowed, hblocks⟩ := ih hv hrest
    exact ⟨hallowed, List.forall_mem_cons.2 ⟨hblock, hblocks⟩⟩

end Controlled

/-- Trees around a single free tree, other than `return`, are free. -/
theorem isFree_of_children {t v : Tree} (ht : t.permission? = none) (hchildren : t.children = [v])
    (hv : v.IsFree) : t.IsFree := by
  refine isFree_iff.2 ⟨ht, fun u hu => ?_⟩
  rw [hchildren, List.mem_singleton] at hu
  rw [hu]
  exact hv

end Tree

/-! ### What is read -/

/-- What a mode allows, whatever it asks for behind a statement. -/
def StatementMode.options (m : StatementMode) : ParseOptions where
  loopControl := m.loopControl
  functionControl := m.functionControl

/-- Control statements are where the mode allows them, if they are so in what the phrase
goes on with. -/
def Phrase.Controlled : Phrase → Prop
  | operand _ t | expression _ t => t.IsFree
  | operators _ left t => left.IsFree → t.IsFree
  | simple mode t | statement mode t => t.Controlled mode.options
  | statements _ mode ts => ∀ t ∈ ts, t.Controlled mode.options

/-- Control statements are read where the mode allows them. -/
theorem Reads.controlled {n : Nat} {ph : Phrase} {s r : Input} (h : Reads n ph s r) :
    ph.Controlled := by
  induction h with
  | literal => exact Tree.isFree_iff.2 ⟨rfl, nofun⟩
  | group _ _ _ ih => exact Tree.isFree_of_children rfl rfl ih.isFree
  | unary _ _ _ ih => exact Tree.isFree_of_children rfl rfl ih
  | done => exact id
  | trailing => exact Tree.isFree_of_children rfl rfl
  | binary _ _ _ _ ihright ihrest =>
    intro hleft
    exact ihrest (Tree.isFree_iff.2 ⟨rfl, List.forall_mem_cons.2
      ⟨hleft, List.forall_mem_singleton.2 ihright⟩⟩)
  | expression _ _ ihfirst ihrest => exact ihrest ihfirst
  | convert _ _ _ _ ih => exact .free (Tree.isFree_of_children rfl rfl ih.isFree)
  | breakLoop hmode => exact .breakLoop hmode
  | continueLoop hmode => exact .continueLoop hmode
  | returnValue hmode _ _ _ ih => exact .returnValue hmode ih.isFree
  | value _ ih => exact .free ih
  | block _ _ ih => exact .block ih
  | unseparated _ _ ih | separated _ _ _ ih => exact ih
  | last => exact nofun
  | more _ _ ihfirst ihrest => exact List.forall_mem_cons.2 ⟨ihfirst, ihrest⟩

/-! ### Programs -/

/-- Control statements are where the options allow them, in a program or an error. -/
theorem controlled_parseTokens (o : ParseOptions) (ts : List Token) :
    (parseTokens o ts).Controlled o := by
  rcases parseTokens_bad_or_reads o ts with ⟨d, hd⟩ | ⟨ss, r, hss, hreads⟩
  · rw [hd]
    exact .free (Tree.isFree_iff.2 ⟨rfl, nofun⟩)
  · rw [hss]
    exact .block hreads.controlled

/-- **Control statements stand only where they are allowed.**  On a way down a program
to a `break`, a `continue` or a `return`, the options allow it, and all trees that it
stands in are blocks. -/
theorem allowed_of_leadsDown {o : ParseOptions} {ts : List Token} {p : List Tree} {u : Tree}
    {allows : ParseOptions → Bool} (hway : Tree.LeadsDown (parseTokens o ts :: (p ++ [u])))
    (hu : u.permission? = some allows) : allows o ∧ ∀ v ∈ parseTokens o ts :: p, v.isBlock :=
  (controlled_parseTokens o ts).of_leadsDown hway hu

/-- The tokens of a `break` in two blocks. -/
def breakInBlocks : List Token :=
  [⟨.leftBrace, "\x7b", ⟨1, 1⟩⟩, ⟨.leftBrace, "\x7b", ⟨1, 2⟩⟩, ⟨.controller, "break", ⟨1, 3⟩⟩,
    ⟨.semicolon, ";", ⟨1, 8⟩⟩, ⟨.rightBrace, "\x7d", ⟨1, 9⟩⟩, ⟨.rightBrace, "\x7d", ⟨1, 10⟩⟩]

/-- The two blocks. -/
def blocksAroundBreak : List Tree :=
  [.compound ⟨1, 1⟩ [.compound ⟨1, 2⟩ [.breakLoop ⟨1, 3⟩]], .compound ⟨1, 2⟩ [.breakLoop ⟨1, 3⟩]]

/-- In a loop, a `break` may stand in two blocks. -/
theorem allowed_breakInBlocks :
    let o : ParseOptions := { loopControl := true }
    Tree.LeadsDown (parseTokens o breakInBlocks :: (blocksAroundBreak ++ [.breakLoop ⟨1, 3⟩])) ∧
      (Tree.breakLoop ⟨1, 3⟩).permission? = some (·.loopControl) ∧
      o.loopControl ∧ ∀ v ∈ parseTokens o breakInBlocks :: blocksAroundBreak, v.isBlock := by
  intro o
  have hway : Tree.LeadsDown (parseTokens o breakInBlocks ::
      (blocksAroundBreak ++ [.breakLoop ⟨1, 3⟩])) := by decide
  exact ⟨hway, rfl, allowed_of_leadsDown hway rfl⟩

end ScriptSyntax
