/-
The parser does not look at places.

Two inputs are alike if they differ in the places of their tokens only.  What is
read from them is alike again: trees that differ in places only, or failures of
the same cause.

* `Tree.unplaced` is a tree without its places;
* `Parser.Alike` says of two parsers that they read alike from alike inputs, and
  every way of putting parsers together keeps it;
* `unplaced_parseTokens` — so the tree of a list of tokens is, up to places, made
  of kinds and texts;
* `blank_insignificant` — and blank space between tokens changes no tree.

Design notes: `Alike` takes two parsers, since a parser that has read a token
knows its place, and goes on differently in the two runs.
-/
import ScriptSyntax.Proofs.Lexical.Respacing
import ScriptSyntax.Proofs.Parser.Success

namespace ScriptSyntax

/-! ### Trees without places -/

namespace Tree

mutual

/-- A tree with all its places forgotten. -/
def unplaced : Tree → Tree
  | compound _ ss => compound .nowhere (unplacedAll ss)
  | bad d => bad (d.moveTo .nowhere)
  | literal _ v => literal .nowhere v
  | group _ t => group .nowhere (unplaced t)
  | convert _ target t => convert .nowhere target (unplaced t)
  | unary _ op t => unary .nowhere op (unplaced t)
  | binary _ op l r => binary .nowhere op (unplaced l) (unplaced r)
  | trailing _ op t => trailing .nowhere op (unplaced t)
  | returnValue _ t => returnValue .nowhere (unplaced t)
  | breakLoop _ => breakLoop .nowhere
  | continueLoop _ => continueLoop .nowhere

/-- Trees with all their places forgotten. -/
def unplacedAll : List Tree → List Tree
  | [] => []
  | t :: ts => unplaced t :: unplacedAll ts

end

theorem unplacedAll_eq_map (ss : List Tree) : unplacedAll ss = ss.map unplaced := by
  induction ss with
  | nil => rfl
  | cons t ss ih => rw [unplacedAll, ih, List.map_cons]

/-- Trees that differ in places only. -/
def Alike (t u : Tree) : Prop :=
  t.unplaced = u.unplaced

/-- Lists of trees that differ in places only. -/
def AllAlike (ts us : List Tree) : Prop :=
  unplacedAll ts = unplacedAll us

end Tree

/-! ### Tokens and inputs -/

namespace Token

/-- Tokens that differ in their places only. -/
def Alike (t u : Token) : Prop :=
  t.content = u.content

theorem Alike.kind_eq {t u : Token} (h : t.Alike u) : t.kind = u.kind :=
  congrArg Prod.fst h

theorem Alike.text_eq {t u : Token} (h : t.Alike u) : t.text = u.text :=
  congrArg Prod.snd h

theorem Alike.ofToken?_eq {t u : Token} (h : t.Alike u) :
    Literal.ofToken? t = Literal.ofToken? u := by
  rw [Literal.ofToken?, Literal.ofToken?, h.kind_eq, h.text_eq]

theorem Alike.typeOf?_eq {t u : Token} (h : t.Alike u) : Parser.typeOf? t = Parser.typeOf? u := by
  rw [Parser.typeOf?, Parser.typeOf?, h.kind_eq, h.text_eq]

end Token

/-- An item without its place. -/
def Item.content (x : Item) : (TokenKind × String) × Bool :=
  (x.token.content, x.afterBreak)

namespace Input

/-- Inputs that differ in the places of their tokens only. -/
structure Alike (s t : Input) : Prop where
  items : s.items.map Item.content = t.items.map Item.content
  final : s.final.Alike t.final

namespace Alike

variable {s t : Input}

theorem length_eq (h : s.Alike t) : s.items.length = t.items.length := by
  have := congrArg List.length h.items
  rwa [List.length_map, List.length_map] at this

theorem advance (h : s.Alike t) : s.advance.Alike t.advance := by
  refine ⟨?_, h.final⟩
  show s.items.tail.map _ = t.items.tail.map _
  rw [List.map_tail, List.map_tail, h.items]

theorem current (h : s.Alike t) : s.current.Alike t.current := by
  obtain ⟨hitems, hfinal⟩ := h
  unfold Input.current
  rcases hs : s.items with _ | ⟨x, xs⟩ <;> rcases ht : t.items with _ | ⟨y, ys⟩
  · exact hfinal
  · simp [hs, ht] at hitems
  · simp [hs, ht] at hitems
  · rw [hs, ht] at hitems
    exact congrArg Prod.fst (List.cons.inj hitems).1

theorem afterBreak_eq (h : s.Alike t) : s.afterBreak = t.afterBreak := by
  obtain ⟨hitems, -⟩ := h
  unfold Input.afterBreak
  rcases hs : s.items with _ | ⟨x, xs⟩ <;> rcases ht : t.items with _ | ⟨y, ys⟩
  · rfl
  · simp [hs, ht] at hitems
  · simp [hs, ht] at hitems
  · rw [hs, ht] at hitems
    exact congrArg Prod.snd (List.cons.inj hitems).1

theorem followedBy_eq (h : s.Alike t) (k : TokenKind) : s.followedBy k = t.followedBy k := by
  rw [followedBy, followedBy, h.advance.afterBreak_eq, h.advance.current.kind_eq]

end Alike

theorem map_content_itemsFrom {ts us : List Token} (broken : Bool)
    (h : ts.map Token.content = us.map Token.content) :
    (itemsFrom broken ts).map Item.content = (itemsFrom broken us).map Item.content := by
  induction ts generalizing us broken with
  | nil =>
    obtain rfl := List.map_eq_nil_iff.1 h.symm
    rfl
  | cons t ts ih =>
    cases us with
    | nil => exact nomatch h
    | cons u us =>
      obtain ⟨hhead, htail⟩ := List.cons.inj h
      have hkind : t.kind = u.kind := Token.Alike.kind_eq hhead
      by_cases hbreak : t.kind = .newLine
      · rw [itemsFrom, itemsFrom, if_pos hbreak, if_pos (hkind ▸ hbreak)]
        exact ih true htail
      · rw [itemsFrom, itemsFrom, if_neg hbreak, if_neg (hkind ▸ hbreak), List.map_cons,
          List.map_cons, ih false htail]
        show (t.content, broken) :: _ = (u.content, broken) :: _
        rw [hhead]

theorem alike_ofTokens {ts us : List Token} (h : ts.map Token.content = us.map Token.content) :
    (ofTokens ts).Alike (ofTokens us) := by
  have hlast : ts.getLast?.map Token.content = us.getLast?.map Token.content := by
    rw [← List.getLast?_map, ← List.getLast?_map, h]
  have hinit : ts.dropLast.map Token.content = us.dropLast.map Token.content := by
    rw [List.map_dropLast, List.map_dropLast, h]
  unfold ofTokens
  rcases ht : ts.getLast? with _ | t <;> rcases hu : us.getLast? with _ | u
  · exact ⟨rfl, rfl⟩
  · simp [ht, hu] at hlast
  · simp [ht, hu] at hlast
  · rw [ht, hu] at hlast
    have hlast : t.Alike u := Option.some.inj hlast
    dsimp only
    by_cases hend : t.kind = .endOfInput
    · rw [if_pos hend, if_pos (hlast.kind_eq ▸ hend)]
      exact ⟨map_content_itemsFrom false hinit, hlast⟩
    · rw [if_neg hend, if_neg (hlast.kind_eq ▸ hend)]
      exact ⟨map_content_itemsFrom false h, rfl⟩

end Input

/-! ### Parsers -/

namespace Parser

variable {α β : Type}

/-- What has come of two runs: values that stand in a relation, or failures of
one cause. -/
inductive Results (R : α → α → Prop) : Except Failure α → Except Failure α → Prop where
  | ok {a b : α} (h : R a b) : Results R (.ok a) (.ok b)
  | error {e f : Failure} (h : e.cause = f.cause) : Results R (.error e) (.error f)

theorem Results.map {R : α → α → Prop} {S : β → β → Prop} {x y : Except Failure α}
    {f g : α → β} (h : Results R x y) (hfg : ∀ a b, R a b → S (f a) (g b)) :
    Results S (x.map f) (y.map g) := by
  cases h with
  | ok hab => exact .ok (hfg _ _ hab)
  | error he => exact .error he

/-- From alike inputs both parsers read alike. -/
def Alike (R : α → α → Prop) (p q : Parser α) : Prop :=
  ∀ s t : Input, s.Alike t → Results R (p s).result (q t).result ∧ (p s).rest.Alike (q t).rest

namespace Alike

variable {R : α → α → Prop} {S : β → β → Prop}

theorem pure {a b : α} (h : R a b) : Alike R (Pure.pure a) (Pure.pure b) :=
  fun _ _ hst => ⟨.ok h, hst⟩

theorem fail (cause : ParseError) (p q : Span) :
    Alike R (Parser.fail cause p) (Parser.fail cause q) :=
  fun _ _ hst => ⟨.error rfl, hst⟩

theorem bind {p q : Parser α} {f g : α → Parser β} (h : Alike R p q)
    (hfg : ∀ a b, R a b → Alike S (f a) (g b)) : Alike S (p >>= f) (q >>= g) := by
  intro s t hst
  obtain ⟨hresult, hrest⟩ := h s t hst
  rcases hp : p s with ⟨x, u, l⟩
  rcases hq : q t with ⟨y, v, m⟩
  rw [hp, hq] at hresult hrest
  cases hresult with
  | ok hab =>
    rw [bind_ok hp, bind_ok hq]
    exact hfg _ _ hab u v hrest
  | error he =>
    rw [bind_error hp, bind_error hq]
    exact ⟨.error he, hrest⟩

theorem map {p q : Parser α} {f g : α → β} (h : Alike R p q)
    (hfg : ∀ a b, R a b → S (f a) (g b)) : Alike S (f <$> p) (g <$> q) := by
  intro s t hst
  obtain ⟨hresult, hrest⟩ := h s t hst
  exact ⟨hresult.map hfg, hrest⟩

theorem ite {c d : Prop} [Decidable c] [Decidable d] {p p' q q' : Parser α} (hcd : c ↔ d)
    (hpos : c → Alike R p q) (hneg : ¬ c → Alike R p' q') :
    Alike R (if c then p else p') (if d then q else q') := by
  by_cases hc : c
  · rw [if_pos hc, if_pos (hcd.1 hc)]
    exact hpos hc
  · rw [if_neg hc, if_neg (fun hd => hc (hcd.2 hd))]
    exact hneg hc

end Alike

/-! What reads a token or the input reads alike. -/

theorem alike_peek : Alike Token.Alike peek peek :=
  fun _ _ hst => ⟨.ok hst.current, hst⟩

theorem alike_advance : Alike Token.Alike advance advance :=
  fun _ _ hst => ⟨.ok hst.current, hst.advance⟩

theorem alike_input : Alike Input.Alike input input :=
  fun _ _ hst => ⟨.ok hst, hst⟩

theorem alike_note (e f : Event) : Alike Eq (note e) (note f) :=
  fun _ _ hst => ⟨.ok rfl, hst⟩

theorem alike_expect (k : TokenKind) : Alike Token.Alike (expect k) (expect k) := by
  refine alike_advance.bind fun t u htu => ?_
  refine .ite (by rw [htu.kind_eq]) (fun _ => .pure htu) fun _ => ?_
  rw [htu.text_eq]
  exact .fail _ _ _

theorem alike_statementsWithin {ends : TokenKind → Bool} {p q : Parser Tree}
    (h : Alike Tree.Alike p q) {xs ys : List Item} (hlength : xs.length = ys.length) :
    Alike Tree.AllAlike (statementsWithin ends p xs) (statementsWithin ends q ys) := by
  induction xs generalizing ys with
  | nil =>
    obtain rfl := List.length_eq_zero_iff.1 hlength.symm
    exact .pure rfl
  | cons x xs ih =>
    cases ys with
    | nil => exact nomatch hlength
    | cons y ys =>
      rw [statementsWithin, statementsWithin]
      refine alike_peek.bind fun t u htu => ?_
      refine .ite (by rw [htu.kind_eq]) (fun _ => .pure rfl) fun _ => ?_
      refine h.bind fun a b hab => (ih (Nat.succ.inj hlength)).map fun as bs habs => ?_
      show Tree.unplaced a :: Tree.unplacedAll as = Tree.unplaced b :: Tree.unplacedAll bs
      rw [hab, habs]

theorem alike_statements {ends : TokenKind → Bool} {p q : Parser Tree}
    (h : Alike Tree.Alike p q) :
    Alike Tree.AllAlike (statements ends p) (statements ends q) :=
  alike_input.bind fun _ _ hst => alike_statementsWithin h hst.length_eq

end Parser

/-! ### Grammars -/

/-- A grammar that reads alike from alike inputs. -/
structure Grammar.Steady (g : Grammar) : Prop where
  statement : ∀ mode, Parser.Alike Tree.Alike (g.statement mode) (g.statement mode)
  expression : ∀ least, Parser.Alike Tree.Alike (g.expression least) (g.expression least)

namespace Parser

theorem alike_nested {below : Option Grammar} (h : ∀ g, below = some g → g.Steady) (p q : Span)
    {read : Grammar → Parser Tree}
    (hread : ∀ g : Grammar, g.Steady → Alike Tree.Alike (read g) (read g)) :
    Alike Tree.Alike (nested below p read) (nested below q read) := by
  cases below with
  | none => exact .fail _ _ _
  | some g => exact hread g (h g rfl)

theorem alike_separator : Alike Eq separator separator := by
  refine alike_input.bind fun s t hst => ?_
  have hkind := hst.current.kind_eq
  refine .ite (by rw [hkind]) (fun _ => alike_advance.bind fun _ _ _ => .pure rfl) fun _ => ?_
  refine .ite (by rw [hkind, hst.afterBreak_eq]) (fun _ => .pure rfl) fun _ => .fail _ _ _

theorem alike_operatorsWithin {operand : Nat → Parser Tree}
    (hoperand : ∀ least, Alike Tree.Alike (operand least) (operand least)) {xs ys : List Item}
    (hlength : xs.length = ys.length) (least : Nat) {left left' : Tree}
    (hleft : left.Alike left') :
    Alike Tree.Alike (operatorsWithin operand xs least left)
      (operatorsWithin operand ys least left') := by
  induction xs generalizing ys least left left' with
  | nil =>
    obtain rfl := List.length_eq_zero_iff.1 hlength.symm
    exact .pure hleft
  | cons x xs ih =>
    cases ys with
    | nil => exact nomatch hlength
    | cons y ys =>
      have hlength := Nat.succ.inj hlength
      rw [operatorsWithin, operatorsWithin]
      refine alike_peek.bind fun t u htu => ?_
      dsimp only
      rw [htu.kind_eq]
      refine .ite Iff.rfl (fun _ => .pure hleft) fun _ => alike_advance.bind fun _ _ _ => ?_
      refine .ite Iff.rfl (fun _ => .pure ?_) fun _ => ?_
      · show Tree.trailing _ _ _ = Tree.trailing _ _ _
        rw [hleft]
      · refine (hoperand _).bind fun first first' hfirst => ?_
        refine (ih hlength _ hfirst).bind fun right right' hright => ih hlength _ ?_
        show Tree.binary _ _ _ _ = Tree.binary _ _ _ _
        rw [hleft, hright]

/-- Control statements are read alike where values and other statements are. -/
theorem alike_controlled (mode : StatementMode) {value otherwise : Parser Tree}
    (hvalue : Alike Tree.Alike value value) (hotherwise : Alike Tree.Alike otherwise otherwise) :
    Alike Tree.Alike (controlled mode value otherwise) (controlled mode value otherwise) := by
  refine alike_peek.bind fun t u htu => ?_
  have hkind := htu.kind_eq
  have htext := htu.text_eq
  refine .ite (by rw [hkind, htext]) (fun _ => alike_advance.bind fun _ _ _ => .pure rfl)
    fun _ => ?_
  refine .ite (by rw [hkind, htext]) (fun _ => alike_advance.bind fun _ _ _ => .pure rfl)
    fun _ => ?_
  refine .ite (by rw [hkind, htext]) (fun _ => ?_) fun _ => hotherwise
  refine alike_advance.bind fun _ _ _ => hvalue.bind fun a b hab => .pure ?_
  show Tree.returnValue _ _ = Tree.returnValue _ _
  rw [hab]

theorem alike_block {g : Grammar} (hg : g.Steady) (mode : StatementMode) :
    Alike Tree.Alike (block g mode) (block g mode) := by
  refine alike_advance.bind fun _ _ _ => ?_
  refine (alike_statements (hg.statement _)).bind fun ss ts hts => ?_
  refine (alike_expect _).bind fun _ _ _ => .pure ?_
  show Tree.compound _ _ = Tree.compound _ _
  rw [hts]

section

variable {below : Option Grammar} (h : ∀ g, below = some g → g.Steady)
include h

theorem alike_group (p q : Span) : Alike Tree.Alike (group below p) (group below q) := by
  refine (alike_nested h p q fun g hg => hg.statement _).bind fun t u htu => ?_
  refine (alike_expect _).bind fun _ _ _ => .pure ?_
  show Tree.group _ _ = Tree.group _ _
  rw [htu]

theorem alike_primary : Alike Tree.Alike (primary below) (primary below) := by
  refine alike_advance.bind fun t u htu => ?_
  rw [htu.kind_eq, htu.ofToken?_eq, htu.text_eq]
  split
  · exact alike_group h _ _
  · exact .fail _ _ _
  · split
    · exact .pure rfl
    · exact .fail _ _ _

theorem alike_operand (least : Nat) :
    Alike Tree.Alike (operand below least) (operand below least) := by
  refine alike_peek.bind fun t u htu => ?_
  dsimp only
  rw [htu.kind_eq]
  refine .ite Iff.rfl (fun _ => alike_primary h) fun _ => .ite Iff.rfl (fun _ => ?_) fun _ => ?_
  · exact (alike_note _ _).bind fun _ _ _ => alike_advance.bind fun _ _ _ => .fail _ _ _
  · refine alike_advance.bind fun _ _ _ => ?_
    refine (alike_nested h _ _ fun g hg => hg.expression _).bind fun a b hab => .pure ?_
    show Tree.unary _ _ _ = Tree.unary _ _ _
    rw [hab]

theorem alike_expression (least : Nat) :
    Alike Tree.Alike (expression below least) (expression below least) := by
  refine (alike_operand h least).bind fun _ _ hleft => ?_
  refine alike_input.bind fun _ _ hst => ?_
  exact alike_operatorsWithin (alike_operand h) hst.length_eq _ hleft

theorem alike_conversion (target : ValueType) :
    Alike Tree.Alike (conversion below target) (conversion below target) := by
  refine alike_advance.bind fun _ _ _ => (alike_expect _).bind fun _ _ _ => ?_
  refine (alike_nested h _ _ fun g hg => hg.statement _).bind fun a b hab => ?_
  refine (alike_expect _).bind fun _ _ _ => .pure ?_
  show Tree.convert _ _ _ = Tree.convert _ _ _
  rw [hab]

theorem alike_simple {control : Parser Tree → Parser Tree}
    (hcontrol : Alike Tree.Alike (control (expression below 0)) (control (expression below 0))) :
    Alike Tree.Alike (simple below control) (simple below control) := by
  refine alike_input.bind fun s t hst => ?_
  rw [hst.current.typeOf?_eq]
  split
  · refine .ite (by rw [hst.followedBy_eq]) (fun _ => alike_conversion h _) fun _ => ?_
    exact (alike_note _ _).bind fun _ _ _ => hcontrol
  · exact hcontrol

theorem alike_statementWith {control : Parser Tree → Parser Tree}
    (hcontrol : Alike Tree.Alike (control (expression below 0)) (control (expression below 0)))
    (mode : StatementMode) :
    Alike Tree.Alike (statementWith below control mode) (statementWith below control mode) := by
  refine alike_peek.bind fun t u htu => ?_
  refine .ite (by rw [htu.kind_eq]) (fun _ => .fail _ _ _) fun _ => ?_
  refine .ite (by rw [htu.kind_eq]) (fun _ => alike_nested h _ _ fun g hg => alike_block hg _)
    fun _ => ?_
  refine (alike_simple h hcontrol).bind fun a b hab => ?_
  have hnoted : Alike Tree.Alike (do note (.statement a.name a.span); return a)
      (do note (.statement b.name b.span); return b) :=
    (alike_note _ _).bind fun _ _ _ => .pure hab
  split
  · exact alike_separator.bind fun _ _ _ => hnoted
  · exact hnoted

theorem alike_statement (mode : StatementMode) :
    Alike Tree.Alike (statement below mode) (statement below mode) := by
  have hexpression := alike_expression h 0
  have hinner : Alike Tree.Alike (inner below) (inner below) := alike_statementWith h hexpression _
  exact alike_statementWith h (alike_controlled mode hinner hexpression) mode

theorem steady_above : (Grammar.above below).Steady :=
  ⟨alike_statement h, alike_expression h⟩

end

/-- No level of the grammar looks at places. -/
theorem steady_grammar (n : Nat) : (grammar n).Steady := by
  -- Each level is built from the level below it, of which only this is used.
  induction n with
  | zero => exact steady_above fun g hg => nomatch hg
  | succ n ih =>
    refine steady_above fun g hg => ?_
    obtain rfl := Option.some.inj hg
    exact ih

theorem alike_program (o : ParseOptions) : Alike Tree.Alike (program o) (program o) := by
  refine (alike_statements ((steady_grammar _).statement _)).bind fun ss ts hts => .pure ?_
  show Tree.compound _ _ = Tree.compound _ _
  rw [hts]

end Parser

/-! ### Programs -/

/-- The tree of a list of tokens is, up to places, made of kinds and texts. -/
theorem unplaced_parseTokens (o : ParseOptions) {ts us : List Token}
    (h : ts.map Token.content = us.map Token.content) :
    (parseTokens o ts).unplaced = (parseTokens o us).unplaced := by
  obtain ⟨hresult, -⟩ := Parser.alike_program o _ _ (Input.alike_ofTokens h)
  unfold parseTokens parse
  rcases hs : Parser.program o (.ofTokens ts) with ⟨x, r, l⟩
  rcases ht : Parser.program o (.ofTokens us) with ⟨y, r', l'⟩
  rw [hs, ht] at hresult
  cases hresult with
  | ok hab => exact hab
  | error he =>
    show Tree.bad _ = Tree.bad _
    rw [Failure.diagnostic, Failure.diagnostic, he]
    rfl

/-- **Blank space between tokens is insignificant.**  Wherever a lexer stands
between two tokens of a text, at its beginning or at its end, blank space may be
put: kinds and texts of the tokens are the same, and so are, up to places, the
tree or the error that any options give. -/
theorem blank_insignificant {p s w : List Char} {k : Nat}
    (h : ((Lexer.ofText (String.ofList (p ++ s))).calls k).2.unread = s) (hw : Gap.Blank w) :
    (tokenize (String.ofList (p ++ w ++ s))).map Token.content =
        (tokenize (String.ofList (p ++ s))).map Token.content ∧
      ∀ o, (parseTokens o (tokenize (String.ofList (p ++ w ++ s)))).unplaced =
        (parseTokens o (tokenize (String.ofList (p ++ s)))).unplaced := by
  have hcontents := map_content_tokenize_blank h hw
  exact ⟨hcontents, fun o => unplaced_parseTokens o hcontents⟩

/-- Blank space between the two marks that `+++` is read as. -/
theorem blank_insignificant_signs :
    let p := ['1', '+', '+']
    let s := ['+', '2']
    (tokenize (String.ofList (p ++ ['\t', ' '] ++ s))).map Token.content =
        (tokenize (String.ofList (p ++ s))).map Token.content ∧
      ∀ o, (parseTokens o (tokenize (String.ofList (p ++ ['\t', ' '] ++ s)))).unplaced =
        (parseTokens o (tokenize (String.ofList (p ++ s)))).unplaced := by
  intro p s
  have hstands : ((Lexer.ofText (String.ofList (p ++ s))).calls 2).2.unread = s := by
    decide +kernel
  have hblank : Gap.Blank ['\t', ' '] :=
    List.forall_mem_cons.2 ⟨rfl, List.forall_mem_singleton.2 rfl⟩
  exact blank_insignificant hstands hblank

end ScriptSyntax
