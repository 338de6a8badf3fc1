/-
Trees written as tokens and read back.

`Tree.Renders ss ts` says that the tokens `ts` are the statements `ss` written
one after the other in the usual way: every piece of their layout is one token,
there is no line break, every statement other than a block is followed by one
semicolon, and at the end stands one end token.

* `Tree.WellFormed.roundTrips` — a well-formed tree that is not nested too deep
  is read from its tokens, whatever stands behind it as long as that cannot go
  on with it;
* `parseTokens_renders` — a well-formed program is what is read from its
  tokens.

Design notes: an expression is read back in front of a loop over operators that
goes on with it, so that its operands need no induction of their own.  What can
stand to its left is the operator that binds tighter than `least`, and what can
stand to its right is the next token.
-/
import ScriptSyntax.Proofs.Parser.Agreement
import ScriptSyntax.Proofs.Tree.Layout
import ScriptSyntax.Proofs.Tree.WellFormed

namespace ScriptSyntax

/-! ### Written pieces -/

/-- A token is a piece as it is usually written. -/
def Piece.WrittenAs : Piece → Token → Prop
  | .token m, t => m.Writes t
  | .stop, t => t.kind = .semicolon ∧ t.text = TokenKind.semicolon.spelling

/-- The kind of the token of a piece. -/
def Piece.kind : Piece → TokenKind
  | .token m => m.kind
  | .stop => .semicolon

theorem Piece.WrittenAs.kind_eq {p : Piece} {t : Token} (h : p.WrittenAs t) : t.kind = p.kind := by
  cases p with
  | token m => exact h.kind
  | stop => exact h.1

/-- A way to write a piece. -/
def Piece.write : Piece → Token
  | .token m => ⟨m.kind, m.text, m.span?.getD .nowhere⟩
  | .stop => ⟨.semicolon, TokenKind.semicolon.spelling, .nowhere⟩

theorem Piece.writtenAs_write (p : Piece) : p.WrittenAs p.write := by
  cases p with
  | token m =>
    refine ⟨⟨rfl, fun _ => rfl, fun p hp => ?_⟩, rfl⟩
    show m.span?.getD .nowhere = p
    rw [hp]
    rfl
  | stop => exact ⟨rfl, rfl⟩

/-- Tokens are some pieces, one by one. -/
abbrev Written (ps : List Piece) (ts : List Token) : Prop :=
  List.Forall₂ Piece.WrittenAs ps ts

namespace Written

theorem eq_nil {ts : List Token} (h : Written [] ts) : ts = [] :=
  List.forall₂_nil_left_iff.1 h

theorem token {m : Mark} {ps : List Piece} {ts : List Token} (h : Written (.token m :: ps) ts) :
    ∃ t us, ts = t :: us ∧ m.Writes t ∧ Written ps us := by
  obtain ⟨t, us, ht, hus, rfl⟩ := List.forall₂_cons_left_iff.1 h
  exact ⟨t, us, rfl, ht, hus⟩

theorem stop {ts : List Token} (h : Written [.stop] ts) : ∃ t, ts = [t] ∧ t.kind = .semicolon := by
  obtain ⟨t, us, ht, hus, rfl⟩ := List.forall₂_cons_left_iff.1 h
  exact ⟨t, by rw [eq_nil hus], ht.1⟩

theorem append {ps qs : List Piece} {ts : List Token} (h : Written (ps ++ qs) ts) :
    ∃ us vs, ts = us ++ vs ∧ Written ps us ∧ Written qs vs := by
  induction ps generalizing ts with
  | nil => exact ⟨[], ts, rfl, .nil, h⟩
  | cons p ps ih =>
    obtain ⟨t, ts', ht, hts', rfl⟩ := List.forall₂_cons_left_iff.1 h
    obtain ⟨us, vs, rfl, hus, hvs⟩ := ih hts'
    exact ⟨t :: us, vs, rfl, .cons ht hus, hvs⟩

theorem kind_ne_newLine {ps : List Piece} {ts : List Token} (h : Written ps ts)
    (hkinds : ∀ p ∈ ps, p.kind ≠ .newLine) : ∀ t ∈ ts, t.kind ≠ .newLine := by
  induction h with
  | nil => exact fun _ ht => absurd ht List.not_mem_nil
  | cons hp _ ih =>
    obtain ⟨hkind, hkinds⟩ := List.forall_mem_cons.1 hkinds
    refine List.forall_mem_cons.2 ⟨?_, ih hkinds⟩
    rw [hp.kind_eq]
    exact hkind

end Written

/-! ### Inputs -/

namespace Input

/-- The input that has some tokens, all on one line, in front of it. -/
def behind (ts : List Token) (s : Input) : Input :=
  ⟨ts.map (⟨·, false⟩) ++ s.items, s.final⟩

@[simp] theorem current_behind_cons (t : Token) (ts : List Token) (s : Input) :
    (s.behind (t :: ts)).current = t := rfl

theorem behind_append (ts us : List Token) (s : Input) :
    s.behind (ts ++ us) = (s.behind us).behind ts := by
  simp [behind]

/-- The input of tokens without line breaks, up to the end token. -/
theorem ofTokens_append_end {ts : List Token} {e : Token} (h : ∀ t ∈ ts, t.kind ≠ .newLine)
    (he : e.kind = .endOfInput) : ofTokens (ts ++ [e]) = behind ts ⟨[], e⟩ := by
  have hitems : itemsFrom false ts = ts.map (⟨·, false⟩) := by
    induction ts with
    | nil => rfl
    | cons t ts ih =>
      obtain ⟨ht, hts⟩ := List.forall_mem_cons.1 h
      rw [itemsFrom, if_neg ht, ih hts]
      rfl
  simp [ofTokens, behind, he, hitems]

theorem followedBy_behind {t u : Token} {ts : List Token} {s : Input} {k : TokenKind}
    (h : u.kind = k) : (s.behind (t :: u :: ts)).followedBy k := by
  simp [followedBy, behind, advance, current, afterBreak, h]

end Input

/-! ### Trees between tokens -/

namespace Tree

/-- An expression can stand behind an operator that binds tighter than `least`,
and before the next token of `s`. -/
structure Between (least : Nat) (t : Tree) (s : Input) : Prop where
  /-- An operation binds tighter than what is before it, and as tight as what
  follows. -/
  tight : ∀ q, t.precedence? = some q → least < q ∧ s.current.kind.binaryPrecedence ≤ q
  unary : ∀ q, t.unaryPrecedence? = some q → least ≤ q
  follows : s.current.kind.binaryPrecedence ≠ TokenKind.postfixPrecedence

/-- Where a tree of some role stands, it is read back from its tokens. -/
def RoundTrips : Role → Tree → Prop
  | .expression, t => ∀ (n least : Nat) (ts : List Token) (s r : Input) (u : Tree),
    t.nesting ≤ n → Written t.layout ts → t.Between least s →
      Reads n (.operators least t u) s r → Reads n (.expression least u) (s.behind ts) r
  | .statement o, t => ∀ (n : Nat) (ts : List Token) (mode : StatementMode) (s : Input),
    t.nesting ≤ n → Written t.layout ts → mode.loopControl = o.loopControl →
      mode.functionControl = o.functionControl →
        (t.isBlock → Reads n (.statement mode t) (s.behind ts) s) ∧
          (t.isBlock = false → s.current.kind.binaryPrecedence = 0 →
            Reads n (.simple mode t) (s.behind ts) s)

/-- What stands in brackets or behind `return`. -/
theorem RoundTrips.inner {t : Tree} (h : RoundTrips (.statement {}) t) {n : Nat}
    {ts : List Token} {s : Input} (hnesting : t.nesting ≤ n) (hwritten : Written t.layout ts)
    (hnext : s.current.kind.binaryPrecedence = 0) :
    Reads n (.statement .expression t) (s.behind ts) s := by
  obtain ⟨hblock, hsimple⟩ := h n ts .expression s hnesting hwritten rfl rfl
  cases hb : t.isBlock with
  | true => exact hblock hb
  | false => exact .unseparated rfl (hsimple hb hnext)

/-- What stands in brackets that are closed. -/
theorem RoundTrips.closed {t : Tree} (h : RoundTrips (.statement {}) t) {n : Nat}
    {ts : List Token} {s : Input} (hnesting : t.nesting ≤ n)
    (hwritten : Written (t.layout ++ [.token (.sign .rightParen none)]) ts) :
    ∃ closing, closing.kind = .rightParen ∧
      Reads n (.statement .expression t) (s.behind ts) (s.behind [closing]) := by
  obtain ⟨us, vs, rfl, hus, hvs⟩ := hwritten.append
  obtain ⟨closing, vs, rfl, hclosing, hnil⟩ := hvs.token
  obtain rfl := hnil.eq_nil
  have hclose : closing.kind = .rightParen := hclosing.kind
  rw [Input.behind_append]
  refine ⟨closing, hclose, h.inner hnesting hus ?_⟩
  rw [Input.current_behind_cons, hclose]
  rfl

/-- A statement of a program or a block. -/
theorem RoundTrips.ended {o : ParseOptions} {t : Tree} (h : RoundTrips (.statement o) t) {n : Nat}
    {ts : List Token} {s : Input} (hnesting : t.nesting ≤ n)
    (hwritten : Written (t.layout ++ t.ending) ts) :
    Reads n (.statement o.statementMode t) (s.behind ts) s := by
  obtain ⟨us, vs, rfl, hus, hvs⟩ := hwritten.append
  rw [Input.behind_append]
  obtain ⟨hblock, hsimple⟩ := h n us o.statementMode (s.behind vs) hnesting hus rfl rfl
  unfold ending at hvs
  cases hb : t.isBlock with
  | true =>
    rw [if_pos hb] at hvs
    obtain rfl := hvs.eq_nil
    exact hblock hb
  | false =>
    rw [if_neg (by rw [hb]; decide)] at hvs
    obtain ⟨semicolon, rfl, hkind⟩ := hvs.stop
    have hnext : (s.behind [semicolon]).current.kind = .semicolon := hkind
    refine .separated rfl (hsimple hb ?_) (.inl ⟨hnext, rfl⟩)
    rw [hnext]
    rfl

/-- The statements of a program or a block. -/
theorem reads_statements {o : ParseOptions} {ss : List Tree}
    (h : ∀ t ∈ ss, RoundTrips (.statement o) t) {n : Nat} {ts : List Token} {s : Input}
    (hnesting : nestingAll ss ≤ n) (hwritten : Written (layoutAll ss) ts) :
    Reads n (.statements s.current.kind o.statementMode ss) (s.behind ts) s := by
  induction ss generalizing ts with
  | nil =>
    obtain rfl := hwritten.eq_nil
    exact .last rfl
  | cons t ss ih =>
    rw [nestingAll] at hnesting
    obtain ⟨us, vs, rfl, hus, hvs⟩ := hwritten.append
    have hfirst := (h t List.mem_cons_self).ended (s := s.behind vs) (n := n) (by omega) hus
    have hrest := ih (fun u hu => h u (List.mem_cons_of_mem t hu)) (by omega) hvs
    rw [Input.behind_append]
    exact .more hfirst hrest

/-! ### The round trip, constructor by constructor -/

namespace RoundTrips

/-- What stands in brackets has a level less. -/
theorem exists_level {k n : Nat} (h : k + 1 ≤ n) : ∃ m, n = m + 1 ∧ k ≤ m :=
  ⟨n - 1, by omega, by omega⟩

theorem literal (p : Span) (v : Literal) : RoundTrips .expression (.literal p v) := by
  intro n least ts s r u _ hwritten _ hrest
  obtain ⟨t, ts, rfl, ht, hnil⟩ := hwritten.token
  obtain rfl := hnil.eq_nil
  obtain rfl : t.span = p := ht.span p rfl
  exact .expression (.literal (s := s.behind [t]) (Literal.ofToken?_of_writes ht)) hrest

theorem group (p : Span) {t : Tree} (h : RoundTrips (.statement {}) t) :
    RoundTrips .expression (.group p t) := by
  intro n least ts s r u hnesting hall _ hrest
  obtain ⟨opening, ts, rfl, hopening, hwritten⟩ := hall.token
  obtain rfl : opening.span = p := hopening.span p rfl
  obtain ⟨m, rfl, hm⟩ := exists_level hnesting
  obtain ⟨closing, hclose, hinner⟩ := h.closed (s := s) hm hwritten
  exact .expression (.group (s := s.behind (opening :: ts)) (r := s.behind [closing])
    hopening.kind hinner hclose) hrest

theorem unary (p : Span) {op : TokenKind} {t : Tree} (hoperator : op.IsUnary)
    (hrespects : (Tree.unary p op t).RespectsPrecedence)
    (hunary : ∀ q, t.unaryPrecedence? = some q → op.unaryPrecedence ≤ q)
    (h : RoundTrips .expression t) : RoundTrips .expression (.unary p op t) := by
  intro n least ts s r u hnesting hwritten hbetween hrest
  obtain ⟨operator, ts, rfl, hwrites, hts⟩ := hwritten.token
  obtain rfl : operator.span = p := hwrites.span p rfl
  obtain rfl : operator.kind = op := hwrites.kind
  obtain ⟨m, rfl, hm⟩ := exists_level hnesting
  -- Nothing that follows the operand is an operator for it.
  have hlt := TokenKind.binaryPrecedence_lt_unaryPrecedence hbetween.follows hoperator
  have hoperand : t.Between operator.kind.unaryPrecedence s := by
    refine ⟨fun q hq => ?_, hunary, hbetween.follows⟩
    rw [show t.precedence? = none from hrespects] at hq
    exact absurd hq (by simp)
  have hinner := h m _ ts s s t hm hts hoperand (.done (Nat.le_of_lt hlt))
  exact .expression (.unary (s := s.behind (operator :: ts)) hoperator
    (hbetween.unary _ rfl) hinner) hrest

theorem binary (p : Span) {op : TokenKind} {left right : Tree} (hoperator : op.IsBinary)
    (hrespects : (Tree.binary p op left right).RespectsPrecedence)
    (hleft : WellFormed .expression left) (hright : WellFormed .expression right)
    (ihleft : RoundTrips .expression left) (ihright : RoundTrips .expression right) :
    RoundTrips .expression (.binary p op left right) := by
  intro n least ts s r u hnesting hwritten hbetween hrest
  obtain ⟨ls, ts, rfl, hls, hwritten⟩ := hwritten.append
  obtain ⟨operator, rs, rfl, hwrites, hrs⟩ := hwritten.token
  obtain rfl : operator.span = p := hwrites.span p rfl
  obtain rfl : operator.kind = op := hwrites.kind
  obtain ⟨hdepthleft, hdepthright⟩ := Nat.max_le.1 hnesting
  obtain ⟨hleast, hnext⟩ := hbetween.tight _ rfl
  obtain ⟨htightleft, htightright⟩ := hrespects
  -- The right operand is read behind the operator, and ends where the operation does.
  have hbetweenright : right.Between operator.kind.binaryPrecedence s := by
    refine ⟨fun q hq => ?_, fun q hq => ?_, hbetween.follows⟩
    · have := htightright q hq
      omega
    · exact Nat.le_of_lt (hright.lt_unaryPrecedence? hoperator hq)
  have hsecond := ihright n _ rs s s right hdepthright hrs hbetweenright (.done hnext)
  have hoperators : Reads n (.operators least left u) (s.behind (operator :: rs)) r :=
    .binary (s := s.behind (operator :: rs)) hoperator hleast hsecond hrest
  -- The left operand is read first, and the loop over operators goes on with the operation.
  have hbetweenleft : left.Between least (s.behind (operator :: rs)) := by
    refine ⟨fun q hq => ?_, fun q hq => ?_, hoperator.2⟩
    · have := htightleft q hq
      exact ⟨by omega, this⟩
    · have := hleft.lt_unaryPrecedence? hoperator hq
      omega
  rw [Input.behind_append]
  exact ihleft n least ls _ r u hdepthleft hls hbetweenleft hoperators

/-- An expression as a statement: what follows is no operator at all. -/
theorem value (o : ParseOptions) {t : Tree} (hvalue : WellFormed .expression t)
    (h : RoundTrips .expression t) : RoundTrips (.statement o) t := by
  intro n ts mode s hnesting hwritten _ _
  refine ⟨fun hblock => ?_, fun _ hnext => .value ?_⟩
  · rw [hvalue.isBlock_eq_false] at hblock
    exact absurd hblock Bool.false_ne_true
  · have hbetween : t.Between 0 s := by
      refine ⟨fun q hq => ?_, fun _ _ => Nat.zero_le _, ?_⟩
      · have := hvalue.precedence?_pos hq
        omega
      · rw [hnext]
        decide
    exact h n 0 ts s s t hnesting hwritten hbetween (.done (Nat.le_of_eq hnext))

theorem convert (o : ParseOptions) (p : Span) (target : ValueType) {t : Tree}
    (h : RoundTrips (.statement {}) t) : RoundTrips (.statement o) (.convert p target t) := by
  intro n ts mode s hnesting hall _ _
  obtain ⟨word, ts, rfl, hword, hbracket⟩ := hall.token
  obtain ⟨opening, ts, rfl, hopening, hwritten⟩ := hbracket.token
  obtain rfl : word.span = p := hword.span p rfl
  obtain ⟨m, rfl, hm⟩ := exists_level hnesting
  obtain ⟨closing, hclose, hinner⟩ := h.closed (s := s) hm hwritten
  have hkind : word.kind = .word := hword.kind
  have htext : word.text = target.keyword := hword.usual
  have htarget : Parser.typeOf? word = some target := by
    rw [Parser.typeOf?, if_pos hkind, htext]
    exact target.ofKeyword?_keyword
  refine ⟨fun hblock => absurd hblock Bool.false_ne_true, fun _ _ => ?_⟩
  exact .convert (s := s.behind (word :: opening :: ts)) (r := s.behind [closing]) htarget
    (Input.followedBy_behind hopening.kind) hinner hclose

theorem block {o : ParseOptions} (p : Span) {ss : List Tree}
    (h : ∀ t ∈ ss, RoundTrips (.statement o) t) : RoundTrips (.statement o) (.compound p ss) := by
  intro n ts mode s hnesting hall hloop hfunction
  obtain ⟨opening, ts, rfl, hopening, hwritten⟩ := hall.token
  obtain rfl : opening.span = p := hopening.span p rfl
  obtain ⟨m, rfl, hm⟩ := exists_level hnesting
  obtain ⟨ts, ends, rfl, hts, hends⟩ := hwritten.append
  obtain ⟨closing, ends, rfl, hclosing, hnil⟩ := hends.token
  obtain rfl := hnil.eq_nil
  -- The block passes on what its own mode allows.
  have hmode : mode.withSeparator = o.statementMode := by
    rw [StatementMode.withSeparator, ParseOptions.statementMode, hloop, hfunction]
  have hinner := reads_statements h (s := s.behind [closing]) hm hts
  rw [Input.current_behind_cons, show closing.kind = .rightBrace from hclosing.kind, ← hmode,
    ← Input.behind_append] at hinner
  refine ⟨fun _ => ?_, fun hblock => absurd hblock.symm Bool.false_ne_true⟩
  exact .block (s := s.behind (opening :: (ts ++ [closing]))) hopening.kind hinner

theorem breakLoop {o : ParseOptions} (p : Span) (hallowed : o.loopControl) :
    RoundTrips (.statement o) (.breakLoop p) := by
  intro n ts mode s _ hwritten hloop _
  obtain ⟨word, ts, rfl, hword, hnil⟩ := hwritten.token
  obtain rfl := hnil.eq_nil
  obtain rfl : word.span = p := hword.span p rfl
  refine ⟨fun hblock => absurd hblock Bool.false_ne_true, fun _ _ => ?_⟩
  exact .breakLoop (s := s.behind [word]) (hloop.trans hallowed) hword.kind hword.usual

theorem continueLoop {o : ParseOptions} (p : Span) (hallowed : o.loopControl) :
    RoundTrips (.statement o) (.continueLoop p) := by
  intro n ts mode s _ hwritten hloop _
  obtain ⟨word, ts, rfl, hword, hnil⟩ := hwritten.token
  obtain rfl := hnil.eq_nil
  obtain rfl : word.span = p := hword.span p rfl
  refine ⟨fun hblock => absurd hblock Bool.false_ne_true, fun _ _ => ?_⟩
  exact .continueLoop (s := s.behind [word]) (hloop.trans hallowed) hword.kind hword.usual

theorem returnValue {o : ParseOptions} (p : Span) {t : Tree} (hallowed : o.functionControl)
    (h : RoundTrips (.statement {}) t) : RoundTrips (.statement o) (.returnValue p t) := by
  intro n ts mode s hnesting hwritten _ hfunction
  obtain ⟨word, ts, rfl, hword, hts⟩ := hwritten.token
  obtain rfl : word.span = p := hword.span p rfl
  refine ⟨fun hblock => absurd hblock Bool.false_ne_true, fun _ hnext => ?_⟩
  exact .returnValue (s := s.behind (word :: ts)) (hfunction.trans hallowed) hword.kind
    hword.usual (h.inner hnesting hts hnext)

end RoundTrips

/-- **Well-formed trees are read back.** -/
theorem WellFormed.roundTrips {role : Role} {t : Tree} (h : WellFormed role t) :
    RoundTrips role t := by
  induction h with
  | literal => exact .literal _ _
  | group _ ih => exact .group _ ih
  | unary hoperator hrespects hunary _ ih => exact .unary _ hoperator hrespects hunary ih
  | binary hoperator hrespects hleft hright ihleft ihright =>
    exact .binary _ hoperator hrespects hleft hright ihleft ihright
  | value hvalue ih => exact .value _ hvalue ih
  | convert _ ih => exact .convert _ _ _ ih
  | block _ ih => exact .block _ ih
  | breakLoop hallowed => exact .breakLoop _ hallowed
  | continueLoop hallowed => exact .continueLoop _ hallowed
  | returnValue hallowed _ ih => exact .returnValue _ hallowed ih

/-! ### Programs -/

/-- Statements without line breaks in them have none between them. -/
theorem kind_ne_newLine_of_layoutAll {ss : List Tree}
    (h : ∀ t ∈ ss, ∀ p ∈ t.layout, p.kind ≠ .newLine) : ∀ p ∈ layoutAll ss, p.kind ≠ .newLine := by
  induction ss with
  | nil => exact fun _ hp => absurd hp List.not_mem_nil
  | cons t ss ih =>
    have hrest := ih fun u hu => h u (List.mem_cons_of_mem t hu)
    have hending : ∀ p ∈ t.ending, p.kind ≠ .newLine := by
      intro p hp
      unfold ending at hp
      split at hp
      · exact absurd hp List.not_mem_nil
      · rw [List.mem_singleton.1 hp]
        exact nofun
    exact List.forall_mem_append.2
      ⟨List.forall_mem_append.2 ⟨h t List.mem_cons_self, hending⟩, hrest⟩

/-- Nothing in a well-formed tree is a line break. -/
theorem WellFormed.kind_ne_newLine {role : Role} {t : Tree} (h : WellFormed role t) :
    ∀ p ∈ t.layout, p.kind ≠ .newLine := by
  induction h with
  | @literal _ v =>
    refine List.forall_mem_singleton.2 ?_
    show v.kind ≠ _
    cases v <;> exact nofun
  | group _ ih =>
    exact List.forall_mem_cons.2 ⟨nofun,
      List.forall_mem_append.2 ⟨ih, List.forall_mem_singleton.2 nofun⟩⟩
  | @unary _ op _ hoperator _ _ _ ih =>
    have hop : op ≠ .newLine := by
      rintro rfl
      exact absurd hoperator (by decide)
    exact List.forall_mem_cons.2 ⟨hop, ih⟩
  | @binary _ op _ _ hoperator _ _ _ ihleft ihright =>
    have hop : op ≠ .newLine := by
      rintro rfl
      exact absurd hoperator (by decide)
    exact List.forall_mem_append.2 ⟨ihleft, List.forall_mem_cons.2 ⟨hop, ihright⟩⟩
  | value _ ih => exact ih
  | convert _ ih =>
    exact List.forall_mem_cons.2 ⟨nofun, List.forall_mem_cons.2 ⟨nofun,
      List.forall_mem_append.2 ⟨ih, List.forall_mem_singleton.2 nofun⟩⟩⟩
  | block _ ih =>
    exact List.forall_mem_cons.2 ⟨nofun, List.forall_mem_append.2
      ⟨kind_ne_newLine_of_layoutAll ih, List.forall_mem_singleton.2 nofun⟩⟩
  | breakLoop | continueLoop => exact List.forall_mem_singleton.2 nofun
  | returnValue _ _ ih => exact List.forall_mem_cons.2 ⟨nofun, ih⟩

/-- Statements written as tokens: one token for every piece, and an end token
behind them. -/
def Renders (ss : List Tree) (ts : List Token) : Prop :=
  ∃ body e, ts = body ++ [e] ∧ e.kind = .endOfInput ∧ Written (layoutAll ss) body

/-- All statements can be written. -/
theorem exists_renders (ss : List Tree) : ∃ ts, Renders ss ts := by
  refine ⟨(layoutAll ss).map Piece.write ++ [.endAt .nowhere], _, _, rfl, rfl, ?_⟩
  exact List.forall₂_map_right_iff.2 (List.forall₂_same.2 fun p _ => p.writtenAs_write)

end Tree

/-- **Programs are read back.**  Well-formed statements that need no more levels
than there are can be written as tokens, and from all tokens that they can be
written as the same statements are read. -/
theorem parseTokens_of_renders (o : ParseOptions) (ss : List Tree)
    (hformed : ∀ t ∈ ss, Tree.WellFormed (.statement o) t)
    (hnesting : Tree.nestingAll ss ≤ maxNesting) :
    (∃ ts, Tree.Renders ss ts) ∧
      ∀ ts, Tree.Renders ss ts → parseTokens o ts = .compound .nowhere ss := by
  refine ⟨Tree.exists_renders ss, ?_⟩
  rintro _ ⟨body, e, rfl, he, hwritten⟩
  have hkinds : ∀ t ∈ body, t.kind ≠ .newLine :=
    hwritten.kind_ne_newLine
      (Tree.kind_ne_newLine_of_layoutAll fun t ht => (hformed t ht).kind_ne_newLine)
  have hreads := Tree.reads_statements (fun t ht => (hformed t ht).roundTrips)
    (s := ⟨[], e⟩) hnesting hwritten
  rw [show (⟨[], e⟩ : Input).current.kind = .endOfInput from he,
    ← Input.ofTokens_append_end hkinds he] at hreads
  exact parseTokens_eq_compound_iff.2 ⟨_, hreads⟩

/-- A block with `break` in it, and the return of a product. -/
def blockThenReturn : List Tree :=
  [.compound ⟨1, 1⟩ [.breakLoop ⟨1, 3⟩],
    .returnValue ⟨2, 1⟩ (.binary ⟨2, 17⟩ .star
      (.unary ⟨2, 8⟩ .minus (.group ⟨2, 9⟩ (.binary ⟨2, 12⟩ .plus
        (.literal ⟨2, 10⟩ (.integer "1")) (.literal ⟨2, 14⟩ (.integer "2")))))
      (.literal ⟨2, 19⟩ (.integer "3")))]

/-- These two statements are read back. -/
theorem parseTokens_blockThenReturn :
    (∀ t ∈ blockThenReturn, Tree.WellFormed (.statement ⟨true, true⟩) t) ∧
      Tree.nestingAll blockThenReturn ≤ maxNesting ∧ (∃ ts, Tree.Renders blockThenReturn ts) ∧
      ∀ ts, Tree.Renders blockThenReturn ts →
        parseTokens ⟨true, true⟩ ts = .compound .nowhere blockThenReturn := by
  have hblock : Tree.WellFormed (.statement ⟨true, true⟩) (.compound ⟨1, 1⟩ [.breakLoop ⟨1, 3⟩]) :=
    .block (List.forall_mem_singleton.2 (.breakLoop rfl))
  have hsum : Tree.WellFormed .expression (.binary ⟨2, 12⟩ .plus
      (.literal ⟨2, 10⟩ (.integer "1")) (.literal ⟨2, 14⟩ (.integer "2"))) :=
    .binary (by decide) ⟨nofun, nofun⟩ .literal .literal
  have hreturn : Tree.WellFormed (.statement ⟨true, true⟩) blockThenReturn[1] :=
    .returnValue rfl (.value (.binary (by decide) ⟨nofun, nofun⟩
      (.unary (by decide) rfl nofun (.group (.value hsum))) .literal))
  have hformed : ∀ t ∈ blockThenReturn, Tree.WellFormed (.statement ⟨true, true⟩) t :=
    List.forall_mem_cons.2 ⟨hblock, List.forall_mem_singleton.2 hreturn⟩
  have hnesting : Tree.nestingAll blockThenReturn ≤ maxNesting := by decide
  exact ⟨hformed, hnesting, parseTokens_of_renders _ _ hformed hnesting⟩

end ScriptSyntax
