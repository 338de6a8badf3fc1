/-
What trees are built from.

* `Tree.BuiltFrom ts t` says that the literals in `t` are carried by some of the
  tokens `ts`, that its operators are in places where operators of their sort may
  stand, and that no part of it is an error;
* `Reads.builtFrom` — what is read is built from the tokens of the input;
* `parse_cases` — reading a program gives a tree that is built so, or an error at
  one of the tokens;
* `parseTokens_bad_or_reads` — the tree of some tokens is an error, or the rules
  derive its statements.
-/
import ScriptSyntax.Proofs.Parser.Failure
import ScriptSyntax.Proofs.Tree.WellFormed

namespace ScriptSyntax

/-! ### Trees -/

/-- The tree is built from some tokens. -/
inductive Tree.BuiltFrom (ts : List Token) : Tree → Prop where
  | literal {p : Span} {u : Token} {v : Literal} (htoken : u ∈ ts)
      (hvalue : Literal.ofToken? u = some v) : BuiltFrom ts (.literal p v)
  | group {p : Span} {t : Tree} (h : BuiltFrom ts t) : BuiltFrom ts (.group p t)
  | convert {p : Span} {target : ValueType} {t : Tree} (h : BuiltFrom ts t) :
      BuiltFrom ts (.convert p target t)
  | unary {p : Span} {op : TokenKind} {t : Tree} (hoperator : op.IsUnary) (h : BuiltFrom ts t) :
      BuiltFrom ts (.unary p op t)
  | binary {p : Span} {op : TokenKind} {l r : Tree} (hoperator : op.IsBinary)
      (hleft : BuiltFrom ts l) (hright : BuiltFrom ts r) : BuiltFrom ts (.binary p op l r)
  | trailing {p : Span} {op : TokenKind} {t : Tree}
      (hoperator : op.binaryPrecedence = TokenKind.postfixPrecedence) (h : BuiltFrom ts t) :
      BuiltFrom ts (.trailing p op t)
  | returnValue {p : Span} {t : Tree} (h : BuiltFrom ts t) : BuiltFrom ts (.returnValue p t)
  | breakLoop {p : Span} : BuiltFrom ts (.breakLoop p)
  | continueLoop {p : Span} : BuiltFrom ts (.continueLoop p)
  | compound {p : Span} {ss : List Tree} (h : ∀ t ∈ ss, BuiltFrom ts t) :
      BuiltFrom ts (.compound p ss)

/-- No part of a tree that is built from tokens is an error. -/
theorem Tree.BuiltFrom.isBad_eq_false {ts : List Token} {t u : Tree} (h : t.BuiltFrom ts)
    (hu : u.Within t) : u.isBad = false := by
  induction hu with
  | self => cases h <;> rfl
  | child hchild _ ih =>
    refine ih ?_
    cases h with
    | literal | breakLoop | continueLoop => exact absurd hchild List.not_mem_nil
    | group h | convert h | unary _ h | trailing _ h | returnValue h =>
      obtain rfl := List.mem_singleton.1 hchild
      exact h
    | binary _ hleft hright =>
      rcases List.mem_cons.1 hchild with rfl | hchild
      · exact hleft
      · obtain rfl := List.mem_singleton.1 hchild
        exact hright
    | compound h => exact h _ hchild

/-! ### Inputs -/

namespace Input

/-- The tokens of an input are some of the tokens `ts`. -/
structure TakenFrom (ts : List Token) (s : Input) : Prop where
  items : ∀ x ∈ s.items, x.token ∈ ts
  final : s.final ∈ ts

variable {ts : List Token} {s r : Input}

theorem TakenFrom.current_mem (h : s.TakenFrom ts) : s.current ∈ ts := by
  rcases s with ⟨_ | ⟨x, xs⟩, final⟩
  · exact h.final
  · exact h.items x List.mem_cons_self

theorem TakenFrom.of_ahead (h : s.TakenFrom ts) (hr : r.Ahead s) : r.TakenFrom ts := by
  obtain ⟨xs, hitems, hfinal⟩ := hr
  refine ⟨fun x hx => h.items x ?_, hfinal ▸ h.final⟩
  rw [hitems]
  exact List.mem_append_right _ hx

theorem TakenFrom.advance (h : s.TakenFrom ts) : s.advance.TakenFrom ts :=
  h.of_ahead (.advance s)

theorem mem_of_mem_itemsFrom {broken : Bool} {x : Item} (hx : x ∈ itemsFrom broken ts) :
    x.token ∈ ts := by
  induction ts generalizing broken with
  | nil => exact absurd hx List.not_mem_nil
  | cons t ts ih =>
    rw [itemsFrom] at hx
    split at hx
    · exact List.mem_cons_of_mem _ (ih hx)
    · rcases List.mem_cons.1 hx with rfl | hx
      · exact List.mem_cons_self
      · exact List.mem_cons_of_mem _ (ih hx)

theorem takenFrom_itemsFrom (broken : Bool) (ts : List Token) (last : Token) :
    (⟨itemsFrom broken ts, last⟩ : Input).TakenFrom (ts ++ [last]) :=
  ⟨fun _ hx => List.mem_append_left _ (mem_of_mem_itemsFrom hx), by simp⟩

end Input

/-! ### What is read -/

/-- The trees of a phrase are built from some tokens, if those are that it goes on
with. -/
def Phrase.BuiltFrom (ts : List Token) : Phrase → Prop
  | operand _ t | expression _ t | simple _ t | statement _ t => t.BuiltFrom ts
  | operators _ left t => left.BuiltFrom ts → t.BuiltFrom ts
  | statements _ _ us => ∀ u ∈ us, u.BuiltFrom ts

/-- What is read is built from the tokens of the input. -/
theorem Reads.builtFrom {n : Nat} {ph : Phrase} {s r : Input} {ts : List Token}
    (h : Reads n ph s r) (hs : s.TakenFrom ts) : ph.BuiltFrom ts := by
  induction h with
  | literal hvalue => exact .literal hs.current_mem hvalue
  | group _ _ _ ih => exact .group (ih hs.advance)
  | unary hoperator _ _ ih => exact .unary hoperator (ih hs.advance)
  | done => exact id
  | trailing hoperator _ => exact .trailing hoperator
  | binary hoperator _ hright _ ihright ihrest =>
    intro hleft
    exact ihrest (hs.advance.of_ahead hright.ahead) (.binary hoperator hleft (ihright hs.advance))
  | expression hfirst _ ihfirst ihrest => exact ihrest (hs.of_ahead hfirst.ahead) (ihfirst hs)
  | convert _ _ _ _ ih => exact .convert (ih hs.advance.advance)
  | breakLoop => exact .breakLoop
  | continueLoop => exact .continueLoop
  | returnValue _ _ _ _ ih => exact .returnValue (ih hs.advance)
  | value _ ih | unseparated _ _ ih | separated _ _ _ ih => exact ih hs
  | block _ _ ih => exact .compound (ih hs.advance)
  | last => exact fun _ hu => absurd hu List.not_mem_nil
  | more hfirst _ ihfirst ihrest =>
    exact List.forall_mem_cons.2 ⟨ihfirst hs, ihrest (hs.of_ahead hfirst.ahead)⟩

/-- Reading a program gives statements that are built from the tokens, or a syntax
error at one of these. -/
theorem parse_cases {o : ParseOptions} {s : Input} {ts : List Token} (hs : s.TakenFrom ts)
    (hfinal : s.final.kind = .endOfInput) :
    (∃ ss, (parse o s).root = .compound .nowhere ss ∧ ∀ t ∈ ss, t.BuiltFrom ts) ∨
      ∃ (e : ParseError) (t : Token), (parse o s).root = .bad (e.diagnostic t.span) ∧ t ∈ ts := by
  by_cases hbad : (parse o s).root.isBad
  · right
    obtain ⟨d, hd⟩ : ∃ d, (parse o s).root = .bad d := by
      rcases hroot : (parse o s).root with _ | d | _ | _ | _ | _ | _ | _ | _ | _ | _
      case bad => exact ⟨d, rfl⟩
      all_goals
        rw [hroot] at hbad
        exact nomatch hbad
    obtain ⟨f, hf, rfl⟩ := Parser.fails_of_parse hfinal hd
    obtain ⟨e, hfront, hspan⟩ := Parser.frontAt_program hfinal hf
    refine ⟨f.cause, e.current, ?_, (hs.of_ahead hfront.ahead).current_mem⟩
    rw [hd, ← hspan]
    rfl
  · left
    obtain ⟨ss, hss, hroot⟩ := (Parser.gives_program_iff hfinal).1
      (Parser.gives_program_of_parse (Bool.eq_false_iff.2 hbad))
    exact ⟨ss, hroot, hss.builtFrom hs⟩

/-- The tree of some tokens is an error, or a program that has been read. -/
theorem parseTokens_bad_or_reads (o : ParseOptions) (ts : List Token) :
    (∃ d, parseTokens o ts = .bad d) ∨
      ∃ ss r, parseTokens o ts = .compound .nowhere ss ∧
        Reads maxNesting (.statements .endOfInput o.statementMode ss) (.ofTokens ts) r := by
  cases hroot : parseTokens o ts with
  | bad d => exact .inl ⟨d, rfl⟩
  | _ =>
    have hgood : (parseTokens o ts).isBad = false := by rw [hroot]; rfl
    obtain ⟨ss, hss⟩ := exists_parseTokens_eq_compound hgood
    obtain ⟨r, hreads⟩ := parseTokens_eq_compound_iff.1 hss
    exact .inr ⟨ss, r, hroot ▸ hss, hreads⟩

/-- What stands below the root is one of the statements that have been read. -/
theorem exists_reads_of_mem_children {o : ParseOptions} {ts : List Token} {t : Tree}
    (h : t ∈ (parseTokens o ts).children) :
    ∃ ss r, parseTokens o ts = .compound .nowhere ss ∧ t ∈ ss ∧
      Reads maxNesting (.statements .endOfInput o.statementMode ss) (.ofTokens ts) r := by
  rcases parseTokens_bad_or_reads o ts with ⟨d, hd⟩ | ⟨ss, r, hss, hreads⟩
  · rw [hd] at h
    exact absurd h List.not_mem_nil
  · rw [hss] at h
    exact ⟨ss, r, hss, h, hreads⟩

end ScriptSyntax
