/-
How trees are laid out in tokens.

Walked from left to right, a tree names the tokens it was read from.  Of most
of them it keeps the kind and the place, of some the text, and of closing
brackets the kind alone; a `Mark` is what it keeps of one token.  Between the
marks stand the places where a statement of a program or a block ends.

* `Tree.layout` is the walk, and `Tree.layoutAll` the walk over statements;
* `Laid ps ts` says that the pieces `ps` lie in the tokens `ts`: every mark on
  a token of its own, in order, and at the end of every statement a semicolon,
  a line break or the end of the tokens;
* `Laid.forall₂_marks` — without line breaks and semicolons the tokens are the
  marks, one by one.

Design notes: a line break that ends a statement stays where it is, since it
may stand there in any case.  The end of the tokens can end no statement of a
block, because the brace that closes the block is still to come.
-/
import Mathlib.Data.List.Forall2
import ScriptSyntax.Proofs.Tree.WellFormed

namespace ScriptSyntax

/-! ### Marks -/

/-- What a tree says of one token. -/
structure Mark where
  kind : TokenKind
  /-- The text as it is usually written. -/
  text : String
  /-- Whether the tree keeps the text. -/
  kept : Bool
  /-- The place, if the token names a node. -/
  span? : Option Span
  deriving DecidableEq, Repr

namespace Mark

/-- A mark whose text is the spelling of its kind. -/
def sign (kind : TokenKind) (span? : Option Span) : Mark :=
  ⟨kind, kind.spelling, false, span?⟩

/-- A word that names a node. -/
def word (kind : TokenKind) (text : String) (span : Span) : Mark :=
  ⟨kind, text, true, some span⟩

/-- A token is as a tree says. -/
structure Fits (m : Mark) (t : Token) : Prop where
  kind : t.kind = m.kind
  text : m.kept → t.text = m.text
  span : ∀ p, m.span? = some p → t.span = p

/-- A token is as a tree says, and has the usual text as well. -/
structure Writes (m : Mark) (t : Token) : Prop extends m.Fits t where
  usual : t.text = m.text

end Mark

namespace Literal

/-- The kind of the tokens that carry a literal. -/
def kind : Literal → TokenKind
  | integer _ => .integer
  | longInteger _ => .longInteger
  | decimal _ => .decimal
  | longDecimal _ => .longDecimal
  | hexadecimal _ => .hexadecimal
  | octal _ => .octal
  | binary _ => .binary
  | char _ => .char
  | string _ => .string
  | boolean _ => .boolean
  | null => .null

/-- The text of a token that carries a literal. -/
def text : Literal → String
  | integer text | longInteger text | decimal text | longDecimal text | hexadecimal text
  | octal text | binary text | char text | string text => text
  | boolean value => if value then "true" else "false"
  | null => "null"

/-- Whether a literal keeps the text of its token as it is. -/
def keepsText : Literal → Bool
  | boolean _ | null => false
  | _ => true

/-- The mark of a literal. -/
def mark (v : Literal) (p : Span) : Mark :=
  ⟨v.kind, v.text, v.keepsText, some p⟩

theorem fits_mark {t : Token} {v : Literal} (h : ofToken? t = some v) :
    (v.mark t.span).Fits t := by
  unfold ofToken? at h
  split at h
  -- The last case is that of all kinds that carry no literal.
  case h_12 => exact nomatch h
  all_goals
    next hk =>
    obtain rfl := Option.some.inj h
    refine ⟨hk, ?_, fun p hp => Option.some.inj hp⟩
    simp [mark, keepsText, text]

/-- A token with the usual text carries the literal. -/
theorem ofToken?_of_writes {t : Token} {v : Literal} {p : Span} (h : (v.mark p).Writes t) :
    ofToken? t = some v := by
  have hk : t.kind = v.kind := h.kind
  have ht : t.text = v.text := h.usual
  cases v with
  | boolean value => cases value <;> simp [ofToken?, hk, ht, kind, text]
  | _ => simp [ofToken?, hk, ht, kind, text]

end Literal

/-! ### The walk over a tree -/

/-- A part of the layout of a tree. -/
inductive Piece where
  /-- A token. -/
  | token (m : Mark)
  /-- The end of a statement. -/
  | stop
  deriving DecidableEq, Repr

namespace Tree

/-- What stands after a statement of a program or a block: no more than a
block needs. -/
def ending (t : Tree) : List Piece :=
  if t.isBlock then [] else [.stop]

mutual

/-- The pieces of a tree from left to right. -/
def layout : Tree → List Piece
  | compound p ss =>
    .token (.sign .leftBrace p) :: (layoutAll ss ++ [.token (.sign .rightBrace none)])
  | bad _ => []
  | literal p v => [.token (v.mark p)]
  | group p t =>
    .token (.sign .leftParen p) :: (layout t ++ [.token (.sign .rightParen none)])
  | convert p target t =>
    .token (.word .word target.keyword p) :: .token (.sign .leftParen none) ::
      (layout t ++ [.token (.sign .rightParen none)])
  | unary p op t => .token (.sign op p) :: layout t
  | binary p op l r => layout l ++ .token (.sign op p) :: layout r
  | trailing p op t => layout t ++ [.token (.sign op p)]
  | returnValue p t => .token (.word .word "return" p) :: layout t
  | breakLoop p => [.token (.word .controller "break" p)]
  | continueLoop p => [.token (.word .controller "continue" p)]

/-- The pieces of the statements of a program or a block. -/
def layoutAll : List Tree → List Piece
  | [] => []
  | t :: ts => layout t ++ ending t ++ layoutAll ts

end

end Tree

/-- The marks among some pieces. -/
def Piece.marks (ps : List Piece) : List Mark :=
  ps.filterMap fun
    | .token m => some m
    | .stop => none

@[simp] theorem Piece.marks_token (m : Mark) (ps : List Piece) :
    marks (.token m :: ps) = m :: marks ps := rfl

/-! ### Layout in tokens -/

/-- Pieces that lie in a list of tokens. -/
inductive Laid : List Piece → List Token → Prop where
  | nil : Laid [] []
  /-- A line break may stand anywhere. -/
  | skip {ps : List Piece} {t : Token} {ts : List Token} (hkind : t.kind = .newLine)
      (hrest : Laid ps ts) : Laid ps (t :: ts)
  | token {m : Mark} {ps : List Piece} {t : Token} {ts : List Token} (hfits : m.Fits t)
      (hkind : t.kind.isSubstantial) (hrest : Laid ps ts) : Laid (.token m :: ps) (t :: ts)
  | semicolon {ps : List Piece} {t : Token} {ts : List Token} (hkind : t.kind = .semicolon)
      (hrest : Laid ps ts) : Laid (.stop :: ps) (t :: ts)
  | lineBreak {ps : List Piece} {t : Token} {ts : List Token} (hkind : t.kind = .newLine)
      (hrest : Laid ps (t :: ts)) : Laid (.stop :: ps) (t :: ts)
  | ending {ps : List Piece} (hrest : Laid ps []) : Laid (.stop :: ps) []

namespace Laid

/-- Line breaks may stand before everything else. -/
theorem skip_all {ps : List Piece} {breaks ts : List Token}
    (hkinds : ∀ t ∈ breaks, t.kind = .newLine) (h : Laid ps ts) : Laid ps (breaks ++ ts) := by
  induction breaks with
  | nil => exact h
  | cons t breaks ih =>
    exact .skip (hkinds t List.mem_cons_self)
      (ih fun u hu => hkinds u (List.mem_cons_of_mem t hu))

/-- The tokens that are part of a tree are its marks. -/
theorem forall₂_marks {ps : List Piece} {ts : List Token} (h : Laid ps ts) :
    List.Forall₂ Mark.Fits (Piece.marks ps) (ts.filter (·.kind.isSubstantial)) := by
  induction h with
  | nil => exact .nil
  | skip hkind _ ih =>
    rw [List.filter_cons_of_neg (by rw [hkind]; decide)]
    exact ih
  | token hfits hkind _ ih =>
    rw [Piece.marks_token, List.filter_cons, if_pos hkind]
    exact .cons hfits ih
  | semicolon hkind _ ih =>
    rw [List.filter_cons_of_neg (by rw [hkind]; decide)]
    exact ih
  | lineBreak _ _ ih => exact ih
  | ending _ ih => exact ih

end Laid

end ScriptSyntax
