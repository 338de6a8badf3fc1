/-
Trees as nested lists.

The text of a tree is that of a nested list, from which the tree can be told up to
its places:

* `Tree.toNested` is the nested list, and `Tree.write_eq` says that it is what is
  written;
* `NestedList.tree?` is the tree that a nested list stands for, without places;
* `Literal.tree?_toNested` and the rules for `NestedList.ofForm?` — every form of a
  tree is told from the others.

Design notes: a list whose name is the spelling of an operator is an operation, before
an operand or between two, which the number of its parts tells.  No other name is such
a spelling.  A word is a numeral or one of a few words, and base mark or suffix tell
which numeral it is.
-/
import ScriptSyntax.Proofs.Lexical.LiteralTexts
import ScriptSyntax.Proofs.Text.NestedList
import ScriptSyntax.Proofs.Token.Operators
import ScriptSyntax.Tree.Dump

namespace ScriptSyntax

/-! ### The text of a tree -/

/-- The nested list that is the text of a literal. -/
def Literal.toNested : Literal → NestedList
  | char text => .quoted '\'' text.toList
  | string text => .quoted '"' text.toList
  | v => .bare v.dump

namespace Tree

mutual

/-- The nested list that is the text of a tree. -/
def toNested : Tree → NestedList
  | compound _ ss => .form "block".toList (toNestedAll ss)
  | bad d =>
    .form "error".toList [.quoted '"' d.message.toList, .bare ('@' :: d.span.text.toList)]
  | literal _ v => v.toNested
  | group _ t => .form "group".toList [toNested t]
  | convert _ target t => .form "convert".toList [.bare target.keyword.toList, toNested t]
  | unary _ op t => .form op.spelling.toList [toNested t]
  | binary _ op l r => .form op.spelling.toList [toNested l, toNested r]
  | trailing _ op t => .form "postfix".toList [.bare op.spelling.toList, toNested t]
  | returnValue _ t => .form "return".toList [toNested t]
  | breakLoop _ => .bare "break".toList
  | continueLoop _ => .bare "continue".toList

/-- The nested lists that are the texts of some trees. -/
def toNestedAll : List Tree → List NestedList
  | [] => []
  | t :: ts => toNested t :: toNestedAll ts

end

theorem toNestedAll_eq_map (ss : List Tree) : toNestedAll ss = ss.map toNested := by
  induction ss with
  | nil => rfl
  | cons t ss ih => rw [toNestedAll, ih, List.map_cons]

theorem writeAll_eq {ss : List Tree} (h : ∀ t ∈ ss, ∀ tail, t.write tail = t.toNested.write tail)
    (tail : List Char) : writeAll ss tail = NestedList.writeAll (ss.map toNested) tail := by
  induction ss with
  | nil => rfl
  | cons t ss ih =>
    rw [writeAll, List.map_cons, NestedList.writeAll, h t List.mem_cons_self,
      ih fun u hu => h u (List.mem_cons_of_mem t hu)]

/-- A tree is written as a nested list. -/
theorem write_eq (t : Tree) (tail : List Char) : t.write tail = t.toNested.write tail := by
  induction t generalizing tail with
  | compound p ss ih =>
    rw [write, toNested, toNestedAll_eq_map, NestedList.write, writeAll_eq ih]
    rfl
  | bad d =>
    rw [write, toNested]
    simp [form, word, NestedList.write, NestedList.writeAll, Literal.quoted, Text.plainQuote]
  | literal p v => cases v <;> rfl
  | breakLoop | continueLoop => rfl
  | group p t ih | returnValue p t ih | unary p op t ih | convert p target t ih
  | trailing p op t ih =>
    rw [write, toNested, NestedList.write, ih]
    rfl
  | binary p op l r ihl ihr =>
    rw [write, toNested, NestedList.write, ihl, ihr]
    rfl

end Tree

/-! ### Operators -/

namespace TokenKind

/-- An operator, wherever it stands. -/
def IsOperator (k : TokenKind) : Prop :=
  k.unaryPrecedence ≠ 0 ∨ k.binaryPrecedence ≠ 0

instance (k : TokenKind) : Decidable k.IsOperator :=
  inferInstanceAs (Decidable (_ ∨ _))

/-- The mark or word that is spelled so. -/
def ofSpelling? (cs : List Char) : Option TokenKind :=
  (isIn :: isType :: marks).find? fun k => k.spelling.toList = cs

namespace IsOperator

variable {k : TokenKind}

theorem ofSpelling? (h : k.IsOperator) : TokenKind.ofSpelling? k.spelling.toList = some k := by
  have hall : (isIn :: isType :: marks).all fun k =>
      TokenKind.ofSpelling? k.spelling.toList = some k := by
    decide +kernel
  have hk : k ∈ isIn :: isType :: marks := by
    cases k <;> first | decide | exact absurd h (by decide)
  simpa using List.all_eq_true.1 hall k hk

theorem isWord (h : k.IsOperator) : NestedList.IsWord k.spelling.toList := by
  cases k <;> first | decide | exact absurd h (by decide)

end IsOperator

end TokenKind

theorem ValueType.isWord_keyword (t : ValueType) : NestedList.IsWord t.keyword.toList := by
  cases t <;> decide

/-! ### The tree of a text -/

namespace Literal

/-- The numeral with a base mark that a word is. -/
def marked? : List Char → Option Literal
  | '0' :: 'x' :: ds => some (hexadecimal (.ofList ds))
  | '0' :: 'o' :: ds => some (octal (.ofList ds))
  | '0' :: 'b' :: ds => some (binary (.ofList ds))
  | _ => none

/-- The numeral that a word is. -/
def ofWord? (cs : List Char) : Option Literal :=
  -- A suffix is looked for first, since the digits before it may be those of any numeral.
  if cs.getLast? = some 'L' then some (longInteger (.ofList cs.dropLast))
  else if cs.getLast? = some 'D' then some (longDecimal (.ofList cs.dropLast))
  else if cs.all Char.isDigit then some (integer (.ofList cs))
  else if cs.all Numeral.isTextChar then some (decimal (.ofList cs))
  else marked? cs

end Literal

namespace NestedList

/-- The words that are no numerals, and what they stand for. -/
def words : List (String × Tree) :=
  [("true", .literal .nowhere (.boolean true)), ("false", .literal .nowhere (.boolean false)),
    ("null", .literal .nowhere .null), ("break", .breakLoop .nowhere),
    ("continue", .continueLoop .nowhere)]

/-- The tree that a word stands for. -/
def ofWord? (cs : List Char) : Option Tree :=
  match Literal.ofWord? cs with
  | some v => some (.literal .nowhere v)
  | none => words.lookup (.ofList cs)

/-- The tree that a list stands for, given its parts and the trees that they stand for. -/
def ofForm? (name : List Char) (parts : List NestedList) (ts : List (Option Tree)) :
    Option Tree :=
  match TokenKind.ofSpelling? name with
  | some op =>
    -- `-` and others can stand before an operand and between two.
    match ts with
    | [some t] => some (.unary .nowhere op t)
    | [some l, some r] => some (.binary .nowhere op l r)
    | _ => none
  | none =>
    if name = "block".toList then some (.compound .nowhere (ts.filterMap id))
    else
      match parts, ts with
      | [_], [some t] =>
        if name = "group".toList then some (.group .nowhere t)
        else some (.returnValue .nowhere t)
      | [bare word, _], [_, some t] =>
        if name = "convert".toList then
          (ValueType.ofKeyword? (.ofList word)).map fun target => .convert .nowhere target t
        else (TokenKind.ofSpelling? word).map fun op => .trailing .nowhere op t
      | _, _ => none

mutual

/-- The tree that a nested list stands for, without places. -/
def tree? : NestedList → Option Tree
  | bare word => ofWord? word
  | quoted mark text =>
    some (.literal .nowhere (if mark = '"' then .string (.ofList text) else .char (.ofList text)))
  | form name parts => ofForm? name parts (trees? parts)

/-- The trees that some nested lists stand for. -/
def trees? : List NestedList → List (Option Tree)
  | [] => []
  | x :: xs => tree? x :: trees? xs

end

theorem trees?_eq_map (xs : List NestedList) : trees? xs = xs.map tree? := by
  induction xs with
  | nil => rfl
  | cons x xs ih => rw [trees?, ih, List.map_cons]

/-! ### Lists -/

section Forms

variable {op : TokenKind} {x y : NestedList} {t u : Tree}

theorem ofForm?_unary (h : op.IsOperator) :
    ofForm? op.spelling.toList [x] [some t] = some (.unary .nowhere op t) := by
  unfold ofForm?
  rw [h.ofSpelling?]

theorem ofForm?_binary (h : op.IsOperator) :
    ofForm? op.spelling.toList [x, y] [some t, some u] = some (.binary .nowhere op t u) := by
  unfold ofForm?
  rw [h.ofSpelling?]

theorem ofForm?_trailing {ot : Option Tree} (h : op.IsOperator) :
    ofForm? "postfix".toList [bare op.spelling.toList, x] [ot, some t] =
      some (.trailing .nowhere op t) := by
  show (TokenKind.ofSpelling? _).map _ = _
  rw [h.ofSpelling?]
  rfl

theorem ofForm?_convert {ot : Option Tree} {target : ValueType} :
    ofForm? "convert".toList [bare target.keyword.toList, x] [ot, some t] =
      some (.convert .nowhere target t) := by
  show (ValueType.ofKeyword? _).map _ = _
  rw [String.ofList_toList, ValueType.ofKeyword?_keyword]
  rfl

theorem ofForm?_group : ofForm? "group".toList [x] [some t] = some (.group .nowhere t) := rfl

theorem ofForm?_return :
    ofForm? "return".toList [x] [some t] = some (.returnValue .nowhere t) := rfl

theorem ofForm?_block {xs : List NestedList} {ts : List (Option Tree)} :
    ofForm? "block".toList xs ts = some (.compound .nowhere (ts.filterMap id)) := rfl

/-- An error is no part of a tree. -/
theorem ofForm?_error {mark : Char} {text : List Char} {ts : List (Option Tree)} :
    ofForm? "error".toList [quoted mark text, x] ts = none := rfl

end Forms

end NestedList

/-! ### Literals -/

/-- No character of a text is one that lacks what all of them have. -/
theorem getLast?_ne_of_all {p : Char → Bool} {cs : List Char} (h : cs.all p) {c : Char}
    (hc : p c = false) : cs.getLast? ≠ some c := by
  intro hlast
  rw [List.all_eq_true.1 h c (List.mem_of_getLast? hlast)] at hc
  exact Bool.noConfusion hc

namespace Numeral

theorem isTextChar_of_all {cs : List Char} (h : cs.all Char.isDigit) : cs.all isTextChar := by
  refine List.all_eq_true.2 fun c hc => ?_
  rw [isTextChar, List.all_eq_true.1 h c hc]
  rfl

/-- Nothing in a numeral separates words. -/
theorem separates_of_all {cs : List Char} (h : cs.all isTextChar) :
    cs.all (!NestedList.separates ·) := by
  refine List.all_eq_true.2 fun c hc => ?_
  have hchar := List.all_eq_true.1 h c hc
  simp only [isTextChar, isSign, Bool.or_eq_true, beq_iff_eq] at hchar
  rcases hchar with ((hdigit | rfl) | rfl) | rfl | rfl
  · have hne : ∀ d : Char, d.isDigit = false → (c == d) = false :=
      fun d hd => beq_false_of_ne (ne_of_isDigit hdigit hd)
    simp [NestedList.separates, hne]
  all_goals decide

end Numeral

namespace Literal

variable {v : Literal}

/-- A numeral that ends in no suffix. -/
theorem ofWord?_of_all {p : Char → Bool} {cs : List Char} (h : cs.all p) (hlong : p 'L' = false)
    (hdouble : p 'D' = false) :
    ofWord? cs = if cs.all Char.isDigit then some (integer (.ofList cs))
      else if cs.all Numeral.isTextChar then some (decimal (.ofList cs)) else marked? cs := by
  rw [ofWord?, if_neg (getLast?_ne_of_all h hlong), if_neg (getLast?_ne_of_all h hdouble)]

/-- Numerals with a base mark are no other numerals. -/
theorem ofWord?_marked {mark : Char} {ds : List Char} (hmark : mark ∈ ['x', 'o', 'b'])
    (hds : ds.all Char.isDigit) : ofWord? ('0' :: mark :: ds) = marked? ('0' :: mark :: ds) := by
  have hchar : Numeral.isTextChar mark = false ∧ mark.isDigit = false ∧ 'L' ≠ mark ∧ 'D' ≠ mark := by
    simp only [List.mem_cons, List.not_mem_nil, or_false] at hmark
    rcases hmark with rfl | rfl | rfl <;> decide
  obtain ⟨hchar, hdigit, hlong, hdouble⟩ := hchar
  have hall : ('0' :: mark :: ds).all fun c => c.isDigit || c == mark := by
    simp only [List.all_cons, beq_self_eq_true, Bool.or_true, Bool.true_and]
    exact List.all_eq_true.2 fun c hc => by rw [List.all_eq_true.1 hds c hc]; rfl
  rw [ofWord?_of_all hall (by simp [hlong]) (by simp [hdouble]), if_neg (by simp [hdigit]),
    if_neg (by simp [hchar])]

/-- A legible literal is told from its text. -/
theorem tree?_toNested (h : v.Legible) : v.toNested.tree? = some (.literal .nowhere v) := by
  have hword : ∀ {cs : List Char}, ofWord? cs = some v →
      (NestedList.bare cs).tree? = some (.literal .nowhere v) := by
    intro cs hcs
    rw [NestedList.tree?, NestedList.ofWord?, hcs]
  cases v with
  | integer text =>
    refine hword ((ofWord?_of_all h.2 rfl rfl).trans ?_)
    show (if text.toList.all _ then some (integer (.ofList text.toList)) else _) = _
    rw [if_pos h.2, String.ofList_toList]
  | decimal text =>
    refine hword ((ofWord?_of_all h.1 rfl rfl).trans ?_)
    show (if text.toList.all _ then _ else if text.toList.all _ then
      some (decimal (.ofList text.toList)) else _) = _
    rw [if_neg (Bool.eq_false_iff.1 h.2), if_pos h.1, String.ofList_toList]
  | longInteger text =>
    refine hword ?_
    rw [dump, ofWord?, if_pos List.getLast?_concat, List.dropLast_concat, String.ofList_toList]
  | longDecimal text =>
    refine hword ?_
    rw [dump, ofWord?, List.getLast?_concat, if_neg (by decide), if_pos rfl, List.dropLast_concat,
      String.ofList_toList]
  | hexadecimal text | octal text | binary text =>
    refine hword ((ofWord?_marked (by decide) h.2).trans ?_)
    rw [marked?, String.ofList_toList]
  | string text | char text =>
    rw [toNested, NestedList.tree?]
    simp
  | boolean value => cases value <;> rfl
  | null => rfl

/-- The word that is the text of a legible literal is one indeed. -/
theorem proper_toNested (h : v.Legible) : v.toNested.Proper := by
  have hdigits : ∀ {cs : List Char}, cs.all Char.isDigit → cs.all (!NestedList.separates ·) :=
    fun hcs => Numeral.separates_of_all (Numeral.isTextChar_of_all hcs)
  cases v with
  | integer text => exact .bare ⟨h.1, hdigits h.2⟩
  | decimal text =>
    refine .bare ⟨?_, Numeral.separates_of_all h.1⟩
    intro hnil
    have hfraction : text.toList.all Char.isDigit = false := h.2
    rw [show text.toList = [] from hnil] at hfraction
    exact Bool.noConfusion hfraction
  | longInteger text =>
    refine .bare ⟨List.append_ne_nil_of_right_ne_nil _ (List.cons_ne_nil _ _), ?_⟩
    rw [dump, List.all_append, hdigits h.2]
    rfl
  | longDecimal text =>
    refine .bare ⟨List.append_ne_nil_of_right_ne_nil _ (List.cons_ne_nil _ _), ?_⟩
    rw [dump, List.all_append, Numeral.separates_of_all h.2]
    rfl
  | hexadecimal text | octal text | binary text =>
    have hall := hdigits h.2
    exact .bare ⟨List.cons_ne_nil _ _, hall⟩
  | string text => exact .quoted (.inl rfl)
  | char text => exact .quoted (.inr rfl)
  | boolean value => cases value <;> exact .bare (by decide)
  | null => exact .bare (by decide)

end Literal

end ScriptSyntax
