/-
What a cursor shows, and how walks change it.

A cursor in a list that ends with an end token shows an input: the items from its
place on.  Every step of a walk does to the cursor what the parser's step does to
the input, and never moves the cursor back.

* `Cursor.Shows` and `Cursor.Ready` — what is seen from a cursor, where line breaks
  may be about to be passed, and where not;
* `Walk.Leads` says that a walk comes to an end with what a parser gives;
* `Leads.bind` and `leads_nested` — walks are put together as parsers are.

Design notes: a walk comes to an end if it does so with enough gas, and how much is
enough is not counted.  `Leads` has a place up to which the cursor has to get, from
which it follows that something is taken.
-/
import Mathlib.Data.List.Induction
import ScriptSyntax.Proofs.Cursor.Walk
import ScriptSyntax.Proofs.Parser.Success

namespace ScriptSyntax

/-- With enough gas, and with any more, there is a value, and it is `a`. -/
def Ends {α : Type} (f : Nat → Option α) (a : α) : Prop :=
  ∃ enough, ∀ gas, enough ≤ gas → f gas = some a

namespace Ends

variable {α β : Type}

theorem of_forall {f : Nat → Option α} {a : α} (h : ∀ gas, f gas = some a) : Ends f a :=
  ⟨0, fun gas _ => h gas⟩

/-- A call takes some gas. -/
theorem of_succ {f : Nat → Option α} {a : α} (h : Ends (fun gas => f (gas + 1)) a) : Ends f a := by
  obtain ⟨enough, henough⟩ := h
  refine ⟨enough + 1, fun gas hgas => ?_⟩
  obtain ⟨gas, rfl⟩ : ∃ k, gas = k + 1 := ⟨gas - 1, by omega⟩
  exact henough gas (by omega)

theorem map {f : Nat → Option α} {a : α} (h : Ends f a) (g : α → β) :
    Ends (fun gas => (f gas).map g) (g a) := by
  obtain ⟨enough, h⟩ := h
  refine ⟨enough, fun gas hgas => ?_⟩
  show (f gas).map g = _
  rw [h gas hgas, Option.map_some]

theorem bind {f : Nat → Option α} {g : Nat → α → Option β} {a : α} {b : β} (hf : Ends f a)
    (hg : Ends (fun gas => g gas a) b) : Ends (fun gas => (f gas).bind (g gas)) b := by
  obtain ⟨enough, hf⟩ := hf
  obtain ⟨enough', hg⟩ := hg
  refine ⟨max enough enough', fun gas hgas => ?_⟩
  show (f gas).bind (g gas) = _
  rw [hf gas (by omega), Option.bind_some]
  exact hg gas (by omega)

theorem unique {f : Nat → Option α} {a b : α} (ha : Ends f a) (hb : Ends f b) : a = b := by
  obtain ⟨enough, ha⟩ := ha
  obtain ⟨enough', hb⟩ := hb
  have h := ha (max enough enough') (by omega)
  rw [hb _ (by omega)] at h
  exact (Option.some.inj h).symm

end Ends

/-! ### What a cursor shows -/

/-- Whether some tokens end with a line break. -/
def endsLine (ts : List Token) : Bool :=
  ts.getLast?.any (·.kind = .newLine)

theorem endsLine_concat (ts : List Token) (t : Token) :
    endsLine (ts ++ [t]) = decide (t.kind = .newLine) := by
  simp [endsLine]

namespace Cursor

/-- The input that begins at a cursor, be it in front of the last token or behind
it. -/
inductive Shows : Cursor → Input → Prop where
  | before (read ahead : List Token) {last : Token} {depth : Nat}
      (hlast : last.kind = .endOfInput) :
      Shows ⟨read ++ (ahead ++ [last]), read.length, depth⟩
        ⟨Input.itemsFrom (endsLine read) ahead, last⟩
  | behind (read : List Token) {last : Token} {depth : Nat} (hlast : last.kind = .endOfInput) :
      Shows ⟨read ++ [last], read.length + 1, depth⟩ ⟨[], last⟩

/-- A cursor that shows an input and is not at a line break. -/
structure Ready (c : Cursor) (s : Input) : Prop where
  shows : c.Shows s
  ne_newLine : ∀ t, c.tokens[c.position]? = some t → t.kind ≠ .newLine

/-- The place behind the token at the cursor. -/
def beyond (c : Cursor) : Nat :=
  min (c.position + 1) c.tokens.length

/-- The second cursor comes from the first, and has not been moved back. -/
structure Passes (c c' : Cursor) : Prop where
  tokens : c'.tokens = c.tokens
  depth : c'.depth = c.depth
  position : c.position ≤ c'.position

theorem Passes.refl (c : Cursor) : c.Passes c :=
  ⟨rfl, rfl, Nat.le_refl _⟩

theorem Passes.trans {c c' c'' : Cursor} (h : c.Passes c') (h' : c'.Passes c'') : c.Passes c'' :=
  ⟨h'.tokens.trans h.tokens, h'.depth.trans h.depth, Nat.le_trans h.position h'.position⟩

variable {c : Cursor} {s : Input}

/-- The depth is not seen. -/
theorem Shows.withDepth (h : c.Shows s) (depth : Nat) : ({ c with depth } : Cursor).Shows s := by
  cases h with
  | before read ahead hlast => exact .before read ahead hlast
  | behind read hlast => exact .behind read hlast

theorem Ready.withDepth (h : c.Ready s) (depth : Nat) : ({ c with depth } : Cursor).Ready s :=
  ⟨h.shows.withDepth depth, h.ne_newLine⟩

theorem Shows.kind_final (h : c.Shows s) : s.final.kind = .endOfInput := by
  cases h with
  | before read ahead hlast | behind read hlast => exact hlast

theorem Shows.position_le (h : c.Shows s) : c.position ≤ c.tokens.length := by
  cases h with
  | before read ahead hlast => simp
  | behind read hlast => simp

/-- A cursor is in front of what it shows, of the last token, or behind it. -/
theorem Ready.cases {motive : Cursor → Input → Prop} (h : c.Ready s)
    (item : ∀ read t ahead last depth, last.kind = .endOfInput → t.kind ≠ .newLine →
      motive ⟨read ++ (t :: ahead ++ [last]), read.length, depth⟩
        ⟨⟨t, endsLine read⟩ :: Input.itemsFrom false ahead, last⟩)
    (last : ∀ read last depth, last.kind = .endOfInput →
      motive ⟨read ++ [last], read.length, depth⟩ ⟨[], last⟩)
    (behind : ∀ read last depth, last.kind = .endOfInput →
      motive ⟨read ++ [last], read.length + 1, depth⟩ ⟨[], last⟩) : motive c s := by
  obtain ⟨hshows, hne⟩ := h
  cases hshows with
  | @before read ahead l depth hlast =>
    cases ahead with
    | nil => exact last read l depth hlast
    | cons t ahead =>
      have ht : t.kind ≠ .newLine := hne t (by simp)
      rw [Input.itemsFrom, if_neg ht]
      exact item read t ahead l depth hlast ht
  | @behind read l depth hlast => exact behind read l depth hlast

end Cursor

namespace Walk

variable {α β : Type} {c c' : Cursor} {s : Input}

/-! ### Sequences -/

theorem bind_ok {m : Walk α} {f : α → Walk β} {a : α} (h : m c = some (.ok a, c')) :
    (m >>= f) c = f a c' := by
  show (ExceptT.bind m f : StateT Cursor Option _) c = _
  simp [ExceptT.bind, ExceptT.mk, StateT.bind, bind, ExceptT.bindCont, h]

theorem bind_error {m : Walk α} {f : α → Walk β} {e : Failure}
    (h : m c = some (.error e, c')) : (m >>= f) c = some (.error e, c') := by
  show (ExceptT.bind m f : StateT Cursor Option _) c = _
  simp [ExceptT.bind, ExceptT.mk, StateT.bind, bind, ExceptT.bindCont, h]
  rfl

theorem ends_bind_ok {m : Nat → Walk α} {f : Nat → α → Walk β} {a : α}
    {r : Except Failure β × Cursor} (hm : Ends (fun gas => m gas c) (.ok a, c'))
    (hf : Ends (fun gas => f gas a c') r) : Ends (fun gas => (m gas >>= f gas) c) r := by
  obtain ⟨enough, hm⟩ := hm
  obtain ⟨enough', hf⟩ := hf
  refine ⟨max enough enough', fun gas hgas => ?_⟩
  exact (bind_ok (hm gas (by omega))).trans (hf gas (by omega))

theorem ends_bind_error {m : Nat → Walk α} {f : Nat → α → Walk β} {e : Failure}
    (hm : Ends (fun gas => m gas c) (.error e, c')) :
    Ends (fun gas => (m gas >>= f gas) c) (.error e, c') := by
  obtain ⟨enough, hm⟩ := hm
  exact ⟨enough, fun gas hgas => bind_error (hm gas hgas)⟩

/-! ### Tokens -/

theorem peekAt_eq {distance : Nat} {t : Token}
    (h : c.tokens[min (c.position + distance) (c.tokens.length - 1)]? = some t) :
    peekAt distance c = some (.ok t, c) := by
  rw [peekAt, h]
  rfl

/-- The token at the cursor is the next one of the input. -/
theorem current_eq (h : c.Ready s) : current c = some (.ok s.current, c) := by
  refine h.cases (motive := fun c s => current c = some (.ok s.current, c)) ?_ ?_ ?_
  · intro read t ahead last depth hlast ht
    exact peekAt_eq (by simp [Input.current])
  · intro read last depth hlast
    exact peekAt_eq (by simp [Input.current])
  · intro read last depth hlast
    exact peekAt_eq (by simp [Input.current])

/-- Behind a line break the next item says so. -/
theorem afterBreak_of_broken (ts : List Token) (last : Token) :
    Input.itemsFrom true ts = [] ∨ (⟨Input.itemsFrom true ts, last⟩ : Input).afterBreak := by
  induction ts with
  | nil => exact .inl rfl
  | cons t ts ih =>
    by_cases ht : t.kind = .newLine
    · rw [Input.itemsFrom, if_pos ht]
      exact ih
    · rw [Input.itemsFrom, if_neg ht]
      exact .inr rfl

/-- The token behind the one at the cursor is the next but one of the input, if no line
break stands between the two. -/
theorem peekAt_one_eq {k : TokenKind} (h : c.Ready s) (hend : k ≠ .endOfInput)
    (hbreak : k ≠ .newLine) :
    ∃ t, peekAt 1 c = some (.ok t, c) ∧ (t.kind = k ↔ s.followedBy k) := by
  refine h.cases (motive := fun c s =>
    ∃ t, peekAt 1 c = some (.ok t, c) ∧ (t.kind = k ↔ s.followedBy k)) ?_ ?_ ?_
  · intro read t ahead last depth hlast ht
    cases ahead with
    | nil =>
      refine ⟨last, peekAt_eq (by simp), ?_⟩
      simp [Input.followedBy, Input.advance, Input.afterBreak, Input.current, Input.itemsFrom, hlast,
        Ne.symm hend]
    | cons u ahead =>
      refine ⟨u, peekAt_eq ?_, ?_⟩
      · rw [List.getElem?_append_right (by simp)]
        simp
      · rw [Input.itemsFrom]
        by_cases hu : u.kind = .newLine
        · rw [if_pos hu]
          have hfalse : (⟨⟨t, endsLine read⟩ :: Input.itemsFrom true ahead, last⟩ :
              Input).followedBy k = false := by
            rcases afterBreak_of_broken ahead last with hnil | hbroken
            · simp [Input.followedBy, Input.advance, Input.afterBreak, Input.current, hnil, hlast,
                Ne.symm hend]
            · rw [Input.followedBy, Input.advance, List.tail_cons, hbroken]
              rfl
          rw [hfalse, hu]
          simp [Ne.symm hbreak]
        · rw [if_neg hu]
          simp [Input.followedBy, Input.advance, Input.afterBreak, Input.current]
  · intro read last depth hlast
    refine ⟨last, peekAt_eq (by simp), ?_⟩
    simp [Input.followedBy, Input.advance, Input.afterBreak, Input.current, hlast, Ne.symm hend]
  · intro read last depth hlast
    have hmin : min (read.length + 1 + 1) ((read ++ [last]).length - 1) = read.length := by
      simp
      omega
    refine ⟨last, peekAt_eq (by rw [hmin]; simp), ?_⟩
    simp [Input.followedBy, Input.advance, Input.afterBreak, Input.current, hlast, Ne.symm hend]

theorem afterBreak_eq (h : c.Ready s) (hend : s.current.kind ≠ .endOfInput) :
    afterBreak c = some (.ok s.afterBreak, c) := by
  revert hend
  refine h.cases (motive := fun c s =>
    s.current.kind ≠ .endOfInput → afterBreak c = some (.ok s.afterBreak, c)) ?_ ?_ ?_
  · intro read t ahead last depth hlast ht _
    have hline : decide (read.length ≠ 0 ∧
        ((read ++ (t :: ahead ++ [last]))[read.length - 1]?).any (·.kind = .newLine)) =
          endsLine read := by
      induction read using List.reverseRecOn with
      | nil => rfl
      | append_singleton read u _ => simp [endsLine_concat]
    show some (Except.ok (decide _), _) = some (Except.ok (endsLine read), _)
    rw [hline]
  · intro read last depth hlast hend
    exact absurd hlast hend
  · intro read last depth hlast hend
    exact absurd hlast hend

/-! ### Line breaks -/

/-- Passing line breaks leads from the first cursor to the second. -/
structure Settles (c c' : Cursor) (s : Input) : Prop where
  ends : Ends (fun gas => skipBreaks gas c) (.ok ⟨⟩, c')
  ready : c'.Ready s
  passes : c.Passes c'
  /-- All that is passed are line breaks. -/
  breaks : ∃ bs, c.tokens.drop c.position = bs ++ c'.tokens.drop c'.position ∧
    c'.position = c.position + bs.length ∧ ∀ t ∈ bs, t.kind = .newLine

theorem skipBreaks_succ (gas : Nat) (h : c.Ready s) (hkind : s.current.kind ≠ .newLine) :
    skipBreaks (gas + 1) c = some (.ok ⟨⟩, c) := by
  rw [skipBreaks, bind_ok (current_eq h), if_neg hkind]
  rfl

/-- The next token of a cursor that is not at a line break is none. -/
theorem kind_current_ne (h : c.Ready s) : s.current.kind ≠ .newLine := by
  have hend : ∀ {last : Token}, last.kind = .endOfInput → last.kind ≠ .newLine := by
    intro last hlast
    rw [hlast]
    decide
  exact h.cases (motive := fun _ s => s.current.kind ≠ .newLine)
    (fun _ _ _ _ _ _ ht => ht) (fun _ _ _ hlast => hend hlast) fun _ _ _ hlast => hend hlast

theorem settles_self (h : c.Ready s) : Settles c c s where
  ends := Ends.of_succ (.of_forall fun gas => skipBreaks_succ gas h (kind_current_ne h))
  ready := h
  passes := .refl c
  breaks := ⟨[], rfl, rfl, List.forall_mem_nil _⟩

theorem Settles.of_newLine {t : Token} (ht : c.tokens[c.position]? = some t)
    (hkind : t.kind = .newLine) (h : Settles { c with position := c.position + 1 } c' s) :
    Settles c c' s := by
  obtain ⟨hlt, -⟩ := List.getElem?_eq_some_iff.1 ht
  have hcurrent : current c = some (.ok t, c) := by
    refine peekAt_eq ?_
    rw [Nat.add_zero, Nat.min_eq_left (by omega)]
    exact ht
  have hstep : ∀ gas, skipBreaks (gas + 1) c =
      skipBreaks gas { c with position := c.position + 1 } := by
    intro gas
    rw [skipBreaks, bind_ok hcurrent, if_pos hkind]
    rfl
  refine ⟨.of_succ ?_, h.ready, ?_, ?_⟩
  · simp only [hstep]
    exact h.ends
  · exact ⟨h.passes.tokens, h.passes.depth, Nat.le_trans (Nat.le_succ _) h.passes.position⟩
  · obtain ⟨bs, hbs, hposition, hbreaks⟩ := h.breaks
    refine ⟨t :: bs, ?_, ?_, List.forall_mem_cons.2 ⟨hkind, hbreaks⟩⟩
    · rw [List.cons_append, ← hbs, List.drop_eq_getElem_cons hlt,
        (List.getElem?_eq_some_iff.1 ht).2]
    · rw [hposition, List.length_cons, Nat.add_right_comm, Nat.add_assoc]

/-- Line breaks are passed, and nothing else. -/
theorem exists_settles (h : c.Shows s) : ∃ c', Settles c c' s := by
  cases h with
  | @before read ahead last depth hlast =>
    induction ahead generalizing read with
    | nil =>
      refine ⟨_, settles_self ⟨.before read [] hlast, fun t ht => ?_⟩⟩
      obtain rfl : last = t := by simpa using ht
      rw [hlast]
      decide
    | cons t ahead ih =>
      by_cases ht : t.kind = .newLine
      · obtain ⟨c', hc'⟩ := ih (read ++ [t])
        rw [List.length_append, List.append_assoc, endsLine_concat, decide_eq_true ht] at hc'
        rw [Input.itemsFrom, if_pos ht]
        exact ⟨c', .of_newLine (by simp) ht hc'⟩
      · refine ⟨_, settles_self ⟨.before read (t :: ahead) hlast, fun u hu => ?_⟩⟩
        obtain rfl : t = u := by simpa using hu
        exact ht
  | @behind read last depth hlast =>
    refine ⟨_, settles_self ⟨.behind read hlast, fun t ht => ?_⟩⟩
    exact absurd ht (by simp)

/-! ### One token -/

theorem advance_run {t : Token} (ht : current c = some (.ok t, c))
    (hle : c.position ≤ c.tokens.length) (gas : Nat) :
    advance gas c =
      (skipBreaks gas >>= fun _ => pure t : Walk Token) { c with position := c.beyond } := by
  have hget : (get : Walk Cursor) c = some (.ok c, c) := rfl
  rw [advance, bind_ok ht, bind_ok hget]
  by_cases hlt : c.position < c.tokens.length
  · have hmove : move c = some (.ok ⟨⟩, { c with position := c.beyond }) := by
      rw [Cursor.beyond, Nat.min_eq_left hlt]
      rfl
    rw [if_pos hlt, bind_ok hmove]
  · have hstay : c.beyond = c.position := by
      rw [Cursor.beyond]
      omega
    rw [if_neg hlt, hstay]

/-- Behind the next token stands what is left of the input. -/
theorem shows_beyond (h : c.Ready s) :
    ({ c with position := c.beyond } : Cursor).Shows s.advance := by
  refine h.cases (motive := fun c s =>
    ({ c with position := c.beyond } : Cursor).Shows s.advance) ?_ ?_ ?_
  · intro read t ahead last depth hlast ht
    have hshows : Cursor.Shows ⟨_, _, depth⟩ _ := .before (read ++ [t]) ahead hlast
    rw [endsLine_concat, decide_eq_false ht, List.append_assoc, List.length_append] at hshows
    have hbeyond : (⟨read ++ (t :: ahead ++ [last]), read.length, depth⟩ : Cursor).beyond =
        read.length + 1 := by
      simp [Cursor.beyond]
    rw [hbeyond]
    exact hshows
  · intro read last depth hlast
    have hbeyond : (⟨read ++ [last], read.length, depth⟩ : Cursor).beyond = read.length + 1 := by
      simp [Cursor.beyond]
    rw [hbeyond]
    exact .behind read hlast
  · intro read last depth hlast
    have hbeyond : (⟨read ++ [last], read.length + 1, depth⟩ : Cursor).beyond =
        read.length + 1 := by
      simp [Cursor.beyond]
    rw [hbeyond]
    exact .behind read hlast

/-- The next token is passed, and the line breaks that follow. -/
theorem ends_advance (h : c.Ready s) :
    ∃ c', Ends (fun gas => advance gas c) (.ok s.current, c') ∧ c'.Ready s.advance ∧ c.Passes c' ∧
      c.beyond ≤ c'.position := by
  obtain ⟨c', hends, hready, hpasses, -⟩ := exists_settles (shows_beyond h)
  have hle : c.position ≤ c.beyond := by
    have := h.shows.position_le
    rw [Cursor.beyond]
    omega
  refine ⟨c', ?_, hready, ?_, hpasses.position⟩
  · simp only [advance_run (current_eq h) h.shows.position_le]
    exact ends_bind_ok hends (.of_forall fun _ => rfl)
  · exact ⟨hpasses.tokens, hpasses.depth, Nat.le_trans hle hpasses.position⟩

/-! ### Walks and parsers -/

/-- The walk comes to an end with the outcome of a parser, at the place `least` or
behind it. -/
def Leads (m : Nat → Walk α) (c : Cursor) (least : Nat) (o : Outcome α) : Prop :=
  ∃ c', Ends (fun gas => m gas c) (o.result, c') ∧ c'.Ready o.rest ∧ c.Passes c' ∧
    least ≤ c'.position

namespace Leads

variable {m : Nat → Walk α} {least least' : Nat} {o : Outcome α}

theorem mono (h : Leads m c least o) (hle : least' ≤ least) : Leads m c least' o := by
  obtain ⟨c', hends, hready, hpasses, hleast⟩ := h
  exact ⟨c', hends, hready, hpasses, Nat.le_trans hle hleast⟩

/-- What a parser logs is not followed. -/
theorem congr {o' : Outcome α} (h : Leads m c least o) (hresult : o'.result = o.result)
    (hrest : o'.rest = o.rest) : Leads m c least o' := by
  obtain ⟨c', hends, hready, h⟩ := h
  rw [← hresult] at hends
  rw [← hrest] at hready
  exact ⟨c', hends, hready, h⟩

/-- A call takes some gas. -/
theorem of_succ (h : Leads (fun gas => m (gas + 1)) c least o) : Leads m c least o := by
  obtain ⟨c', hends, h⟩ := h
  exact ⟨c', .of_succ hends, h⟩

/-- A value without a step. -/
theorem pure (h : c.Ready s) (a : α) :
    Leads (fun _ => Pure.pure a) c 0 ((Pure.pure a : Parser α) s) :=
  ⟨c, .of_forall fun _ => rfl, h, .refl c, Nat.zero_le _⟩

/-- A failure without a step. -/
theorem fail (h : c.Ready s) (cause : ParseError) (p : Span) :
    Leads (fun _ => throw ⟨cause, p⟩) c 0 ((Parser.fail cause p : Parser α) s) :=
  ⟨c, .of_forall fun _ => rfl, h, .refl c, Nat.zero_le _⟩

/-- One walk after the other leads to what one parser after the other gives. -/
theorem bind {f : Nat → α → Walk β} {p : Parser α} {g : α → Parser β}
    (hm : Leads m c least (p s))
    (hf : ∀ a c' s', p.Gives s a s' → c'.Ready s' → c.Passes c' →
      Leads (fun gas => f gas a) c' 0 (g a s')) :
    Leads (fun gas => m gas >>= f gas) c least ((p >>= g) s) := by
  obtain ⟨c', hends, hready, hpasses, hleast⟩ := hm
  rcases hp : p s with ⟨e | a, rest, log⟩
  · rw [hp] at hends hready
    rw [Parser.bind_error hp]
    exact ⟨c', ends_bind_error hends, hready, hpasses, hleast⟩
  · rw [hp] at hends hready
    rw [Parser.bind_ok hp]
    obtain ⟨c'', hends', hready', hpasses', -⟩ := hf a c' rest ⟨by rw [hp], by rw [hp]⟩ hready hpasses
    exact ⟨c'', ends_bind_ok hends hends', hready', hpasses.trans hpasses',
      Nat.le_trans hleast hpasses'.position⟩

/-- What is given is changed. -/
theorem map {f : α → β} {p : Parser α} (hm : Leads m c least (p s)) :
    Leads (fun gas => m gas >>= fun a => Pure.pure (f a)) c least ((f <$> p) s) := by
  obtain ⟨c', hends, h⟩ := hm
  refine ⟨c', ?_, h⟩
  rw [Parser.map_run]
  rcases hresult : (p s).result with e | a
  · rw [hresult] at hends
    exact ends_bind_error hends
  · rw [hresult] at hends
    exact ends_bind_ok hends (.of_forall fun _ => rfl)

/-- Something is looked at first. -/
theorem look_bind {w : Walk β} {b : β} {f : Nat → β → Walk α} (hw : w c = some (.ok b, c))
    (hf : Leads (fun gas => f gas b) c least o) : Leads (fun gas => w >>= f gas) c least o := by
  obtain ⟨c', hends, hrest⟩ := hf
  exact ⟨c', ends_bind_ok (.of_forall fun _ => hw) hends, hrest⟩

/-- The next token is passed. -/
theorem advance_bind {f : Nat → Token → Walk α} {g : Token → Parser α} (h : c.Ready s)
    (hf : ∀ c', c'.Ready s.advance → c.Passes c' →
      Leads (fun gas => f gas s.current) c' 0 (g s.current s.advance)) :
    Leads (fun gas => advance gas >>= f gas) c c.beyond ((Parser.advance >>= g) s) := by
  obtain ⟨c', hends, hready, hpasses, hbeyond⟩ := ends_advance h
  obtain ⟨c'', hends', hready', hpasses', -⟩ := hf c' hready hpasses
  exact ⟨c'', ends_bind_ok hends hends', hready', hpasses.trans hpasses',
    Nat.le_trans hbeyond hpasses'.position⟩

/-- Line breaks are passed first. -/
theorem skipBreaks_bind {f : Nat → PUnit → Walk α} (h : Settles c c' s)
    (hf : Leads (fun gas => f gas ⟨⟩) c' least o) :
    Leads (fun gas => skipBreaks gas >>= f gas) c least o := by
  obtain ⟨c'', hends, hready, hpasses, hleast⟩ := hf
  exact ⟨c'', ends_bind_ok h.ends hends, hready, h.passes.trans hpasses, hleast⟩

end Leads

/-! ### Expected tokens, separators and levels -/

theorem leads_expect (h : c.Ready s) (k : TokenKind) :
    Leads (fun gas => expect gas k) c 0 (Parser.expect k s) := by
  refine Leads.mono ?_ (Nat.zero_le c.beyond)
  refine .advance_bind h fun c' hready _ => ?_
  by_cases hk : s.current.kind = k
  · simp only [if_pos hk]
    exact Leads.pure hready s.current
  · simp only [if_neg hk]
    exact Leads.fail hready _ _

theorem leads_separator (h : c.Ready s) :
    Leads (fun gas => separator gas) c 0 (Parser.separator s) := by
  simp only [separator]
  refine .look_bind (current_eq h) ?_
  show Leads _ c 0 ((if s.current.kind = .semicolon then _ else _ : Parser PUnit) s)
  by_cases hsemicolon : s.current.kind = .semicolon
  · simp only [if_pos hsemicolon]
    refine Leads.mono (.advance_bind h fun c' hready _ => ?_) (Nat.zero_le c.beyond)
    exact Leads.pure hready _
  · simp only [if_neg hsemicolon]
    by_cases hend : s.current.kind = .endOfInput
    · simp only [hend, true_or, if_true]
      exact Leads.pure h _
    · simp only [hend, if_false, false_or]
      refine .look_bind (afterBreak_eq h hend) ?_
      by_cases hbreak : s.afterBreak
      · simp only [hbreak, if_true]
        exact Leads.pure h _
      · simp only [hbreak]
        exact Leads.fail h _ _

/-- At the limit nothing is read. -/
theorem nested_of_le {p : Span} {read : Walk α} (h : maxNesting ≤ c.depth) :
    nested p read c = some (.error ⟨.tooDeeplyNested, p⟩, c) := by
  have hget : (get : Walk Cursor) c = some (.ok c, c) := rfl
  have henter : enter p c = some (.error ⟨.tooDeeplyNested, p⟩, c) := by
    rw [enter, bind_ok hget, if_pos h]
    rfl
  exact bind_error henter

/-- Whatever is read one level further down, the cursor comes back from there. -/
theorem nested_of_lt {p : Span} {read : Walk α} {r : Except Failure α} (h : c.depth < maxNesting)
    (hread : read { c with depth := c.depth + 1 } = some (r, c')) :
    nested p read c = some (r, { c' with depth := c'.depth - 1 }) := by
  have hget : (get : Walk Cursor) c = some (.ok c, c) := rfl
  have henter : enter p c = some (.ok ⟨⟩, { c with depth := c.depth + 1 }) := by
    rw [enter, bind_ok hget, if_neg (Nat.not_le_of_lt h)]
    rfl
  have hlift : (ExceptT.lift read.run : Walk (Except Failure α)) { c with depth := c.depth + 1 } =
      some (.ok r, c') := by
    show (StateT.map _ (read : StateT Cursor Option _) : StateT Cursor Option _) _ = _
    simp [StateT.map, hread]
  rw [nested, bind_ok henter, bind_ok hlift]
  cases r <;> rfl

theorem leads_nested {n least : Nat} {p : Span} {read : Nat → Walk α} {parse : Grammar → Parser α}
    (h : c.Ready s) (hdepth : c.depth + n = maxNesting) (hleast : n = 0 → least ≤ c.position)
    (hread : ∀ m c', n = m + 1 → c'.Ready s → c'.depth + m = maxNesting →
      c'.beyond = c.beyond → Leads read c' least (parse (.above (Parser.levels m)) s)) :
    Leads (fun gas => nested p (read gas)) c least (Parser.nested (Parser.levels n) p parse s) := by
  cases n with
  | zero =>
    refine ⟨c, .of_forall fun gas => ?_, h, .refl c, hleast rfl⟩
    exact nested_of_le (Nat.le_of_eq hdepth.symm)
  | succ m =>
    have hparse : Parser.nested (Parser.levels (m + 1)) p parse s =
        parse (.above (Parser.levels m)) s := by
      rw [← Parser.grammar_eq_above]
      rfl
    obtain ⟨c', ⟨enough, hends⟩, hready, hpasses, hposition⟩ := hread m
      { c with depth := c.depth + 1 } rfl (h.withDepth _) (by simp only; omega) rfl
    have hback : { c' with depth := c'.depth - 1 } = { c' with depth := c.depth } := by
      rw [hpasses.depth, Nat.add_sub_cancel]
    rw [hparse]
    refine ⟨{ c' with depth := c.depth }, ⟨enough, fun gas hgas => ?_⟩, hready.withDepth _,
      ⟨hpasses.tokens, rfl, hpasses.position⟩, hposition⟩
    exact (nested_of_lt (by omega) (hends gas hgas)).trans (by rw [hback])

end Walk

end ScriptSyntax
