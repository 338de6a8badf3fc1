/-
Parsers at work.

Whatever has been asked of a parser at work, its tokens end with an end token, its
cursor is among them or behind the last, and its depth is nought.  Reading the next
program comes to an end, and gives what a session gives.

* `Walker.WorksAs w s` — the walker `w` is where the session `s` is, and stays there
  (`WorksAs.serve`);
* `Walker.Sound` is what holds of every walker that comes up;
* `Walker.serveAll_sound` — it does hold.

Design notes: a program that is read moves the cursor, unless there is only the end
token to be seen.  So after finitely many programs there is, and all others are empty.
-/
import ScriptSyntax.Proofs.Cursor.Levels
import ScriptSyntax.Proofs.Parser.Building

namespace ScriptSyntax

/-! ### Cursors -/

namespace Cursor

variable {c : Cursor} {s : Input}

theorem Shows.takenFrom (h : c.Shows s) : s.TakenFrom c.tokens := by
  cases h with
  | before read ahead hlast =>
    obtain ⟨hitems, hfinal⟩ := Input.takenFrom_itemsFrom (endsLine read) ahead _
    exact ⟨fun x hx => List.mem_append_right _ (hitems x hx), List.mem_append_right _ hfinal⟩
  | behind read hlast => exact ⟨fun x hx => absurd hx List.not_mem_nil, by simp⟩

theorem Shows.exists_tokens_eq (h : c.Shows s) :
    ∃ ts last, c.tokens = ts ++ [last] ∧ last.kind = .endOfInput := by
  cases h with
  | before read ahead hlast => exact ⟨read ++ ahead, _, (List.append_assoc _ _ _).symm, hlast⟩
  | behind read hlast => exact ⟨read, _, rfl, hlast⟩

/-- Behind the last token only the end token is seen. -/
theorem Shows.position_lt (h : c.Shows s) (hkind : s.current.kind ≠ .endOfInput) :
    c.position < c.tokens.length := by
  cases h with
  | before read ahead hlast => simp
  | behind read hlast => exact absurd hlast hkind

/-- The token at the cursor is the next one. -/
theorem Ready.current_eq_of_drop {u : Token} {us : List Token} (h : c.Ready s)
    (hdrop : c.tokens.drop c.position = u :: us) : s.current = u := by
  revert hdrop
  refine h.cases (motive := fun c s => c.tokens.drop c.position = u :: us → s.current = u) ?_ ?_ ?_
  · intro read t ahead last depth _ _ hdrop
    rw [List.drop_left] at hdrop
    exact (List.cons.inj hdrop).1
  · intro read last depth _ hdrop
    rw [List.drop_left] at hdrop
    exact (List.cons.inj hdrop).1
  · intro read last depth _ hdrop
    simp at hdrop

theorem exists_terminated_eq (ts : List Token) :
    ∃ front last, terminated ts = front ++ [last] ∧ last.kind = .endOfInput ∧
      Input.ofTokens ts = ⟨Input.itemsFrom false front, last⟩ := by
  induction ts using List.reverseRecOn with
  | nil => exact ⟨[], .endAt .start, rfl, rfl, rfl⟩
  | append_singleton front t _ =>
    by_cases ht : t.kind = .endOfInput
    · refine ⟨front, t, ?_, ht, Input.ofTokens_concat front ht⟩
      simp [terminated, ht]
    · refine ⟨front ++ [t], .endAt t.span, ?_, rfl, ?_⟩
      · simp [terminated, ht]
      · simp [Input.ofTokens, ht]

/-- A cursor in front of some tokens shows their input. -/
theorem shows_ofTokens (ts : List Token) : (ofTokens ts).Shows (.ofTokens ts) := by
  obtain ⟨front, last, htokens, hlast, hinput⟩ := exists_terminated_eq ts
  rw [hinput, ofTokens, htokens]
  exact .before [] front hlast

/-- The tokens from the cursor on, up to the first end token. -/
def ahead (c : Cursor) : List Token :=
  (c.tokens.drop c.position).takeWhile (·.kind ≠ .endOfInput)

end Cursor

namespace Walker

/-! ### Walkers and sessions -/

/-- Does what is asked, one after the other. -/
def serveAll (gas : Nat) (w : Walker) (qs : List Session.Request) : Option Walker :=
  qs.foldlM (serve gas) w

/-- The walker is where the session is. -/
structure WorksAs (w : Walker) (s : Session) : Prop where
  shows : w.cursor.Shows s.input
  depth : w.cursor.depth = 0
  options : w.options = s.options
  imports : w.imports = s.imports

theorem worksAs_withImports (ts : List Token) (imports : Imports) :
    (withImports ts imports).WorksAs (.withImports ts imports) :=
  ⟨Cursor.shows_ofTokens ts, rfl, rfl, rfl⟩

variable {w w' : Walker} {s : Session}

theorem parse_eq (o : ParseOptions) (s : Input) :
    (ScriptSyntax.parse o s).root = rootOf (Parser.program o s).result ∧
      (ScriptSyntax.parse o s).rest = (Parser.program o s).rest := by
  unfold ScriptSyntax.parse
  rcases Parser.program o s with ⟨_ | _, _, _⟩ <;> exact ⟨rfl, rfl⟩

/-- Reading a program comes to an end with the tree that the session gives.  If the
next token is not the end token, it is passed. -/
theorem WorksAs.parse (h : w.WorksAs s) :
    ∃ w' c, Ends (fun gas => w.parse gas) (s.parse.1.root, w') ∧ w'.WorksAs s.parse.2 ∧
      w.cursor.Passes w'.cursor ∧ Walk.Settles w.cursor c s.input ∧
      (s.input.current.kind ≠ .endOfInput → c.beyond ≤ w'.cursor.position) := by
  obtain ⟨c, hc⟩ := Walk.exists_settles h.shows
  obtain ⟨c', hends, hready, hpasses, hleast⟩ :=
    Walk.leads_program (o := s.options) hc h.depth
  obtain ⟨hroot, hrest⟩ := parse_eq s.options s.input
  refine ⟨{ w with cursor := c' }, c, ?_, ⟨?_, ?_, h.options, h.imports⟩, hpasses, hc, ?_⟩
  · show Ends _ ((ScriptSyntax.parse s.options s.input).root, _)
    rw [hroot, ← h.options]
    rw [← h.options] at hends
    exact hends.map fun r => (rootOf r.1, { w with cursor := r.2 })
  · show c'.Shows (ScriptSyntax.parse s.options s.input).rest
    rw [hrest]
    exact hready.shows
  · exact hpasses.depth.trans h.depth
  · intro hkind
    rw [if_neg hkind] at hleast
    exact hleast

/-- Whatever is asked comes to an end. -/
theorem WorksAs.serve (h : w.WorksAs s) (q : Session.Request) :
    ∃ w', Ends (fun gas => w.serve gas q) w' ∧ w'.WorksAs (s.serve q) := by
  cases q with
  | parse =>
    obtain ⟨w', c, hends, hw', -⟩ := h.parse
    exact ⟨w', hends.map Prod.snd, hw'⟩
  | reuse ts => exact ⟨_, .of_forall fun _ => rfl, Cursor.shows_ofTokens ts, rfl, h.options, h.imports⟩
  | withOptions o => exact ⟨_, .of_forall fun _ => rfl, h.shows, h.depth, rfl, h.imports⟩
  | register name root =>
    cases root with
    | compound p ss =>
      refine ⟨_, .of_forall fun _ => rfl, h.shows, h.depth, h.options, ?_⟩
      show w.imports.insert name (.compound p ss) = s.imports.insert name (.compound p ss)
      rw [h.imports]
    | _ => exact ⟨w, .of_forall fun _ => rfl, h⟩

theorem ends_serveAll_cons {w'' : Walker} {q : Session.Request} {qs : List Session.Request}
    (hq : Ends (fun gas => w.serve gas q) w') (hqs : Ends (fun gas => w'.serveAll gas qs) w'') :
    Ends (fun gas => w.serveAll gas (q :: qs)) w'' := by
  show Ends (fun gas => (w.serve gas q).bind fun w' => w'.serveAll gas qs) w''
  exact hq.bind hqs

theorem WorksAs.serveAll (h : w.WorksAs s) (qs : List Session.Request) :
    ∃ w', Ends (fun gas => w.serveAll gas qs) w' ∧ w'.WorksAs (qs.foldl Session.serve s) := by
  induction qs generalizing w s with
  | nil => exact ⟨w, .of_forall fun _ => rfl, h⟩
  | cons q qs ih =>
    obtain ⟨w', hends, hw'⟩ := h.serve q
    obtain ⟨w'', hends', hw''⟩ := ih hw'
    exact ⟨w'', ends_serveAll_cons hends hends', hw''⟩

/-! ### One program after another -/

/-- At the end of its input a session reads empty programs. -/
theorem parse_eq_nil_of_kind {o : ParseOptions} {s : Input} (hfinal : s.final.kind = .endOfInput)
    (hkind : s.current.kind = .endOfInput) :
    (ScriptSyntax.parse o s).root = .compound .nowhere [] ∧ (ScriptSyntax.parse o s).rest = s :=
  Parser.parse_of_gives_program ((Parser.gives_program_iff hfinal).2 ⟨[], .last hkind, rfl⟩)

/-- At the end of its input a walker reads empty programs, and stays there. -/
theorem WorksAs.parse_of_kind (h : w.WorksAs s) (hkind : s.input.current.kind = .endOfInput) :
    ∃ w', Ends (fun gas => w.parse gas) (.compound .nowhere [], w') ∧ w'.WorksAs s := by
  obtain ⟨hroot, hrest⟩ :=
    parse_eq_nil_of_kind (o := s.options) h.shows.kind_final hkind
  obtain ⟨w', c, hends, hw', -⟩ := h.parse
  refine ⟨w', ?_, ?_⟩
  · rw [← hroot]
    exact hends
  · have hstays : s.parse.2 = s := by
      show { s with input := (ScriptSyntax.parse s.options s.input).rest } = s
      rw [hrest]
    rw [← hstays]
    exact hw'

theorem WorksAs.emptied_of_kind (h : w.WorksAs s) (hkind : s.input.current.kind = .endOfInput)
    (k : Nat) : ∃ w₁ w₂, Ends (fun gas => w.serveAll gas (List.replicate k .parse)) w₁ ∧
      Ends (fun gas => w₁.parse gas) (.compound .nowhere [], w₂) := by
  induction k generalizing w with
  | zero =>
    obtain ⟨w', hends, -⟩ := h.parse_of_kind hkind
    exact ⟨w, w', .of_forall fun _ => rfl, hends⟩
  | succ k ih =>
    obtain ⟨w', hends, hw'⟩ := h.parse_of_kind hkind
    obtain ⟨w₁, w₂, hends₁, hends₂⟩ := ih hw'
    exact ⟨w₁, w₂, ends_serveAll_cons (hends.map Prod.snd) hends₁, hends₂⟩

/-- From some program on all are empty. -/
theorem WorksAs.exists_emptied (h : w.WorksAs s) :
    ∃ count, ∀ k, count ≤ k → ∃ w₁ w₂,
      Ends (fun gas => w.serveAll gas (List.replicate k .parse)) w₁ ∧
        Ends (fun gas => w₁.parse gas) (.compound .nowhere [], w₂) := by
  -- Every program that does not find the end takes a token, so fewer are left.
  induction hleft : w.cursor.tokens.length - w.cursor.position using Nat.strongRecOn
    generalizing w s with
  | ind left ih =>
    by_cases hkind : s.input.current.kind = .endOfInput
    · exact ⟨0, fun k _ => h.emptied_of_kind hkind k⟩
    · obtain ⟨w', c, hends, hw', hpasses, hsettles, hbeyond⟩ := h.parse
      have hlt : w'.cursor.tokens.length - w'.cursor.position < left := by
        have hposition := h.shows.position_lt hkind
        have hready := hsettles.ready.shows.position_lt hkind
        have hpassed := hsettles.passes.position
        have htaken := hbeyond hkind
        rw [hsettles.passes.tokens] at hready
        rw [Cursor.beyond, hsettles.passes.tokens] at htaken
        rw [hpasses.tokens]
        omega
      obtain ⟨count, hcount⟩ := ih _ hlt hw' rfl
      refine ⟨count + 1, fun k hk => ?_⟩
      obtain ⟨k, rfl⟩ : ∃ j, k = j + 1 := ⟨k - 1, by omega⟩
      obtain ⟨w₁, w₂, hends₁, hends₂⟩ := hcount k (by omega)
      exact ⟨w₁, w₂, ends_serveAll_cons (hends.map Prod.snd) hends₁, hends₂⟩

/-! ### What holds of all walkers -/

/-- What reading a program gives and takes. -/
structure Reading (w : Walker) (root : Tree) (w' : Walker) : Prop where
  /-- A program in which nothing is an error, or a syntax error at a token. -/
  root : (∃ ss, root = .compound .nowhere ss ∧ ∀ t : Tree, t.Within root → t.isBad = false) ∨
    ∃ d t, root = .bad d ∧ d.name = "SyntaxError" ∧ t ∈ w.cursor.tokens ∧ d.span = t.span
  tokens : w'.cursor.tokens = w.cursor.tokens
  position : w.cursor.position ≤ w'.cursor.position
  /-- If a token other than a line break stands before the first end token, such a
  token is taken. -/
  taken : (∃ t ∈ w.cursor.ahead, t.kind ≠ .newLine) →
    ∃ t ∈ w.cursor.ahead.take (w'.cursor.position - w.cursor.position), t.kind ≠ .newLine

/-- What holds of a walker and of a session, whatever has been asked of both. -/
structure Sound (w : Walker) (s : Session) : Prop extends w.WorksAs s where
  ended : ∃ ts last, w.cursor.tokens = ts ++ [last] ∧ last.kind = .endOfInput
  position_le : w.cursor.position ≤ w.cursor.tokens.length
  /-- Reading the next program comes to an end, and gives what the session reads. -/
  parses : ∃ w', Ends (fun gas => w.parse gas) (s.parse.1.root, w') ∧
    w.Reading s.parse.1.root w'
  /-- Whatever is asked, short of other tokens, does not move the cursor back. -/
  forward : ∀ q w', Ends (fun gas => w.serve gas q) w' →
    (∃ ts, q = .reuse ts) ∨ w.cursor.Passes w'.cursor
  /-- Of the programs that are read one after the other all but finitely many are
  empty. -/
  emptied : ∃ count, ∀ k, count ≤ k → ∃ w₁ w₂,
    Ends (fun gas => w.serveAll gas (List.replicate k .parse)) w₁ ∧
      Ends (fun gas => w₁.parse gas) (.compound .nowhere [], w₂)

theorem WorksAs.root_cases (h : w.WorksAs s) :
    (∃ ss, s.parse.1.root = .compound .nowhere ss ∧
        ∀ t : Tree, t.Within s.parse.1.root → t.isBad = false) ∨
      ∃ d t, s.parse.1.root = .bad d ∧ d.name = "SyntaxError" ∧ t ∈ w.cursor.tokens ∧
        d.span = t.span := by
  rcases parse_cases (o := s.options) h.shows.takenFrom h.shows.kind_final with
    ⟨ss, hroot, hbuilt⟩ | ⟨e, t, hroot, ht⟩
  · refine .inl ⟨ss, hroot, fun t hwithin => ?_⟩
    have hbuilt' : (Tree.compound .nowhere ss).BuiltFrom w.cursor.tokens := .compound hbuilt
    exact hbuilt'.isBad_eq_false (hroot ▸ hwithin)
  · exact .inr ⟨e.diagnostic t.span, t, hroot, rfl, ht, rfl⟩

/-- A token in front of the first end token is taken, if the token behind the line
breaks is. -/
theorem exists_taken {c c' : Cursor} {s : Input} {position : Nat} (h : Walk.Settles c c' s)
    (hbeyond : s.current.kind ≠ .endOfInput → c'.beyond ≤ position)
    (hahead : ∃ t ∈ c.ahead, t.kind ≠ .newLine) :
    ∃ t ∈ c.ahead.take (position - c.position), t.kind ≠ .newLine := by
  obtain ⟨bs, hdrop, hposition, hbreaks⟩ := h.breaks
  have hsplit : c.ahead = bs ++ c'.ahead := by
    rw [Cursor.ahead, hdrop, List.takeWhile_append_of_pos]
    · rfl
    · intro t ht
      rw [hbreaks t ht]
      decide
  obtain ⟨t, ht, hkind⟩ := hahead
  rw [hsplit] at ht ⊢
  have ht' : t ∈ c'.ahead := (List.mem_append.1 ht).resolve_left fun h => hkind (hbreaks t h)
  -- The first token behind the line breaks is neither a line break nor an end token.
  rcases hu : c'.tokens.drop c'.position with _ | ⟨u, us⟩
  · rw [Cursor.ahead, hu] at ht'
    exact absurd ht' List.not_mem_nil
  · have hend : u.kind ≠ .endOfInput := by
      intro hend
      rw [Cursor.ahead, hu, List.takeWhile_cons_of_neg (by simp [hend])] at ht'
      exact absurd ht' List.not_mem_nil
    have hget : c'.tokens[c'.position]? = some u := by
      rw [← List.head?_drop, hu]
      rfl
    have hcurrent := h.ready.current_eq_of_drop hu
    have hbehind := hbeyond (by rw [hcurrent]; exact hend)
    have hlt := h.ready.shows.position_lt (by rw [hcurrent]; exact hend)
    rw [Cursor.beyond] at hbehind
    refine ⟨u, ?_, h.ready.ne_newLine u hget⟩
    rw [Cursor.ahead, hu, List.takeWhile_cons_of_pos (by simp [hend])]
    obtain ⟨k, hk⟩ : ∃ k, position - c.position = bs.length + (k + 1) :=
      ⟨position - c.position - bs.length - 1, by omega⟩
    rw [hk, List.take_length_add_append, List.take_succ_cons]
    exact List.mem_append_right _ List.mem_cons_self

/-- Only other tokens move the cursor back. -/
theorem WorksAs.passes (h : w.WorksAs s) {q : Session.Request}
    (hq : Ends (fun gas => w.serve gas q) w') :
    (∃ ts, q = .reuse ts) ∨ w.cursor.Passes w'.cursor := by
  cases q with
  | parse =>
    obtain ⟨w'', c, hends, -, hpasses, -⟩ := h.parse
    obtain rfl := hq.unique (hends.map Prod.snd)
    exact .inr hpasses
  | reuse ts => exact .inl ⟨ts, rfl⟩
  | withOptions o =>
    obtain rfl := hq.unique (.of_forall fun _ => rfl)
    exact .inr (.refl _)
  | register name root =>
    cases root with
    | _ =>
      obtain rfl := hq.unique (.of_forall fun _ => rfl)
      exact .inr (.refl _)

theorem WorksAs.sound (h : w.WorksAs s) : w.Sound s := by
  refine ⟨h, h.shows.exists_tokens_eq, h.shows.position_le, ?_, fun _ _ => h.passes,
    h.exists_emptied⟩
  obtain ⟨w', c, hends, -, hpasses, hsettles, hbeyond⟩ := h.parse
  exact ⟨w', hends, h.root_cases, hpasses.tokens, hpasses.position, exists_taken hsettles hbeyond⟩

/-- **Parsers at work stay sound.**  Whatever is asked of a parser over any tokens, it
comes to an end, and after it the parser is sound: its tokens end with an end token,
the cursor is not behind their end, and the depth is nought.  The next program can be
read, and it is the one that a session reads of which the same has been asked. -/
theorem serveAll_sound (ts : List Token) (imports : Imports) (qs : List Session.Request) :
    ∃ w, Ends (fun gas => (withImports ts imports).serveAll gas qs) w ∧
      w.Sound (qs.foldl Session.serve (.withImports ts imports)) := by
  obtain ⟨w, hends, hw⟩ := (worksAs_withImports ts imports).serveAll qs
  exact ⟨w, hends, hw.sound⟩

end Walker

end ScriptSyntax
