/-
Comments and text literals byte by byte.

What goes on to a closing mark of single bytes goes past all other characters, however many bytes
they have.  Only behind a backslash a cursor may come to stand in the middle of a character: a
string goes on from there and takes the other bytes one by one, and a character literal is not
closed there.

* `ByteCursor.passThrough_before` and `ByteCursor.passComment_before` — for comments;
* `ByteCursor.reads_readString` — for strings;
* `ByteCursor.reads_readCharacter` — for character literals.

Design notes: white space that literals drop is skipped before each unit, and so a string is
followed from one place to the next with this space still in front (`ByteCursor.stringFrom`).
-/
import ScriptSyntax.Proofs.Bytewise.Escapes
import ScriptSyntax.Proofs.Bytewise.Numerals
import ScriptSyntax.Proofs.Lexical.Characters

namespace ScriptSyntax

namespace ByteCursor

open Utf8 TextLiteral

variable {x : ByteCursor} {p q : Span} {b : UInt8} {bs : List UInt8} {c d : Char} {s : List Char}

/-! ### Through a mark -/

theorem passThrough_of_peek (h : x.peek = some c) (stop : Char) :
    x.passThrough stop = if c = stop then x.advance else x.advance.passThrough stop := by
  rw [passThrough]
  split
  · next hc => exact absurd (h.symm.trans hc) (Option.some_ne_none c)
  · next hc =>
    obtain rfl := Option.some.inj (h.symm.trans hc)
    rfl

theorem passThrough_of_unread {stop : Char} (hstop : stop.toNat < 0x80) (hx : x.unread = b :: bs)
    (hb : 0x80 ≤ b.toNat) : x.passThrough stop = x.advance.passThrough stop := by
  rw [passThrough_of_peek (peek_of_unread hx), if_neg (charOf_ne hb hstop)]

/-- Through the next mark of one sort. -/
theorem passThrough_before (stop : Char) (hstop : stop.toNat < 0x80)
    {f : List Char → List Char × List Char} (hnil : f [] = ([], []))
    (hcons : ∀ c s, f (c :: s) = if c = stop then ([c], s) else (c :: (f s).1, (f s).2))
    (p : Span) (s : List Char) :
    (before p s).passThrough stop = before (p.after (f s).1) (f s).2 := by
  induction s generalizing p with
  | nil =>
    rw [hnil, passThrough]
    rfl
  | cons c s ih =>
    rw [hcons]
    by_cases hc : c.toNat < 0x80
    · rw [passThrough_of_peek (peek_narrow hc p s), advance_narrow hc, ih]
      split <;> rfl
    · rw [eq_of_wide' (fun _ _ _ => passThrough_of_unread hstop) hc, ih,
        if_neg (ne_of_wide hc hstop)]
      rfl

/-! ### Comments -/

theorem passBlock_of_peek (h : x.peek = some c) (crossed : Bool) :
    x.passBlock crossed =
      if c = '*' ∧ x.peekAt 1 = some '/' then (crossed, x.advance.advance)
      else x.advance.passBlock (crossed || c == '\n') := by
  rw [passBlock]
  split
  · next hc => exact absurd (h.symm.trans hc) (Option.some_ne_none c)
  · next hc =>
    obtain rfl := Option.some.inj (h.symm.trans hc)
    rfl

theorem passBlock_of_unread (hx : x.unread = b :: bs) (hb : 0x80 ≤ b.toNat) (crossed : Bool) :
    x.passBlock crossed = x.advance.passBlock crossed := by
  have hstar : ¬ (charOf b = '*' ∧ x.peekAt 1 = some '/') := fun h =>
    charOf_ne hb (by decide) h.1
  have hbreak : (charOf b == '\n') = false := beq_false_of_ne (charOf_ne hb (by decide))
  rw [passBlock_of_peek (peek_of_unread hx), if_neg hstar, hbreak, Bool.or_false]

/-- Past the end of a block comment. -/
theorem passBlock_before (crossed : Bool) (p : Span) (s : List Char) :
    (before p s).passBlock crossed =
      (crossed || (Gap.blockComment s).1.any (· == '\n'),
        before (p.after (Gap.blockComment s).1) (Gap.blockComment s).2) := by
  fun_induction Gap.blockComment s generalizing p crossed with
  | case1 =>
    rw [passBlock, List.any_nil, Bool.or_false]
    rfl
  | case2 cs =>
    have hslash : (before p ('*' :: '/' :: cs)).peekAt 1 = some '/' := by
      rw [peekAt_one (by decide), peek_narrow (by decide)]
    have hnone : ['*', '/'].any (· == '\n') = false := rfl
    rw [passBlock_of_peek (peek_narrow (by decide) p _), if_pos ⟨rfl, hslash⟩,
      advance_narrow (by decide), advance_narrow (by decide), hnone, Bool.or_false]
    rfl
  | case3 c cs h ih =>
    rw [List.any_cons, ← Bool.or_assoc]
    by_cases hc : c.toNat < 0x80
    · have hend : ¬ (c = '*' ∧ (before p (c :: cs)).peekAt 1 = some '/') := by
        rw [peekAt_one hc, peek_eq_some_iff (by decide)]
        rintro ⟨rfl, hslash⟩
        obtain ⟨ds, rfl⟩ := List.head?_eq_some_iff.1 hslash
        exact h ds rfl rfl
      rw [passBlock_of_peek (peek_narrow hc p cs), if_neg hend, advance_narrow hc, ih]
      rfl
    · have hbreak : (c == '\n') = false := beq_false_of_ne (ne_of_wide hc (by decide))
      rw [eq_of_wide' (fun x _ _ hx hb => passBlock_of_unread hx hb crossed) hc, ih, hbreak,
        Bool.or_false]
      rfl

/-- Past a comment: a line comment counts as a line break, and a block comment if it has one. -/
theorem passComment_line (p : Span) (s : List Char) :
    (before p ('/' :: '/' :: s)).passComment =
      (true, before (p.after ('/' :: '/' :: (Gap.line s).1)) (Gap.line s).2) := by
  have hpass := passThrough_before '\n' (by decide) (f := Gap.line) rfl
    (fun _ _ => by rw [Gap.line]) ((p.step '/').step '/') s
  rw [passComment, advance_narrow (by decide), peek_narrow (by decide),
    if_neg (by decide), passThrough_of_peek (peek_narrow (by decide) _ _), if_neg (by decide),
    advance_narrow (by decide), hpass]
  rfl

theorem passComment_block (p : Span) (s : List Char) :
    (before p ('/' :: '*' :: s)).passComment =
      ((Gap.blockComment s).1.any (· == '\n'),
        before (p.after ('/' :: '*' :: (Gap.blockComment s).1)) (Gap.blockComment s).2) := by
  rw [passComment, advance_narrow (by decide), peek_narrow (by decide), if_pos rfl,
    advance_narrow (by decide), passBlock_before, Bool.false_or]
  rfl

/-! ### Strings -/

theorem narrow_isDropped : Narrow isDropped := by
  intro c hc
  simp only [isDropped, Bool.or_eq_true, beq_iff_eq] at hc
  rcases hc with (((rfl | rfl) | rfl) | rfl) | rfl <;> decide

theorem skipDropped_before (p : Span) (s : List Char) :
    (before p s).skipDropped = before (p.after (s.takeWhile isDropped)) (s.dropWhile isDropped) :=
  skipWhile_before narrow_isDropped p s

/-- Nothing is dropped at a byte that is no character. -/
theorem skipDropped_of_unread (hx : x.unread = b :: bs) (hb : 0x80 ≤ b.toNat) :
    x.skipDropped = x := by
  rw [skipDropped, skipWhile, ahead_of_unread hx,
    List.takeWhile_cons_of_neg (narrow_isDropped.not_charOf hb)]
  rfl

/-- Reads on in a string that begins at `p`, from a place where white space may stand. -/
def stringFrom (p : Span) (out : List UInt8) (x : ByteCursor) : Token × ByteCursor :=
  readStringRest p out x.skipDropped

theorem readStringRest_of_unread (hx : x.unread = b :: bs) (p : Span) (out : List UInt8) :
    readStringRest p out x =
      if charOf b = '"' then (⟨.string, String.ofList (decodeLossy out), p⟩, x.advance)
      else if charOf b = '\\' then stringFrom p (x.readEscape out).1 (x.readEscape out).2
      else stringFrom p (out ++ [b]) x.advance := by
  rw [readStringRest]
  split
  · next hnil => exact absurd (hx.symm.trans hnil) (List.cons_ne_nil _ _)
  · next hcons =>
    obtain ⟨rfl, -⟩ := List.cons.inj (hcons.symm.trans hx)
    rfl

/-- A byte that is no character is taken as it is. -/
theorem stringFrom_of_unread (hx : x.unread = b :: bs) (hb : 0x80 ≤ b.toNat) (p : Span)
    (out : List UInt8) : stringFrom p out x = stringFrom p (out ++ [b]) x.advance := by
  rw [stringFrom, skipDropped_of_unread hx hb, readStringRest_of_unread hx,
    if_neg (charOf_ne hb (by decide)), if_neg (charOf_ne hb (by decide))]

theorem stringFrom_wide (hc : ¬ c.toNat < 0x80) (p q : Span) (out : List UInt8) (s : List Char) :
    stringFrom p out (before q (c :: s)) =
      stringFrom p (out ++ encodeChar c) (before (q.step c) s) :=
  eq_of_wide (f := stringFrom p) (fun out _ _ _ hx hb => stringFrom_of_unread hx hb p out) hc q s
    out

/-- White space is dropped. -/
theorem stringFrom_dropped (hc : isDropped c) (p q : Span) (out : List UInt8) (s : List Char) :
    stringFrom p out (before q (c :: s)) = stringFrom p out (before (q.step c) s) := by
  rw [stringFrom, stringFrom, skipDropped_before, skipDropped_before, List.takeWhile_cons_of_pos hc,
    List.dropWhile_cons_of_pos hc]
  rfl

theorem stringFrom_nil (p q : Span) (out : List UInt8) :
    stringFrom p out (before q []) = (bad .unterminatedString p, before q []) := by
  rw [stringFrom, skipDropped_before, readStringRest]
  rfl

/-- At a single byte that is not dropped. -/
theorem stringFrom_narrow (hc : c.toNat < 0x80) (hdropped : isDropped c = false) (p q : Span)
    (out : List UInt8) (s : List Char) :
    stringFrom p out (before q (c :: s)) =
      if c = '"' then (⟨.string, String.ofList (decodeLossy out), p⟩, before (q.step c) s)
      else if c = '\\' then
        stringFrom p ((before q (c :: s)).readEscape out).1 ((before q (c :: s)).readEscape out).2
      else stringFrom p (out ++ encodeChar c) (before (q.step c) s) := by
  have hnot : ¬ isDropped c := by
    rw [hdropped]
    decide
  obtain ⟨b, bs, hunread, hb, hbytes⟩ := exists_unread_narrow hc q s
  rw [stringFrom, skipDropped_before, List.takeWhile_cons_of_neg hnot,
    List.dropWhile_cons_of_neg hnot, Span.after_nil, readStringRest_of_unread hunread, hb, hbytes,
    advance_narrow hc]

/-- Behind a backslash, however many bytes the next character has. -/
theorem stringFrom_escape (p q : Span) (out : List UInt8) (s : List Char) :
    stringFrom p out (before q ('\\' :: s)) =
      stringFrom p (out ++ (Escape.read s).bytes)
        (before (q.after ('\\' :: (Escape.read s).taken)) (Escape.read s).rest) := by
  rw [stringFrom_narrow (by decide) rfl, if_neg (by decide), if_pos rfl]
  by_cases hs : s.head?.all (·.toNat < 0x80)
  · rw [readEscape_narrow hs]
  · cases s with
    | nil => exact absurd rfl hs
    | cons d s =>
      have hd : ¬ d.toNat < 0x80 := by simpa using hs
      have hread : Escape.read (d :: s) = ⟨encodeChar d, [d], s⟩ :=
        Escape.read_other (eq_none_of_wide control?_narrow hd)
          (eq_none_of_wide Escape.toNat_lt_of_ofLetter? hd) s
      obtain ⟨b, _, _, hunread, hb, -, hescape⟩ := readEscape_wide hd out q s
      -- One byte has been taken, and the others are taken one by one.
      rw [hescape, ← stringFrom_of_unread hunread hb, stringFrom_wide hd, hread]
      rfl

/-- The bytes of an escape in front of the content that follows it. -/
theorem unescape_escape {content : List Char} (hne : s ≠ [])
    (hcontent : content = [] ∨ content.head? = (Escape.read s).rest.head?) :
    unescape ('\\' :: (Escape.read s).taken ++ content) =
      (Escape.read s).bytes ++ unescape content := by
  obtain ⟨d, s, rfl⟩ := List.exists_cons_of_ne_nil hne
  rcases hcontent with rfl | hhead
  · rw [List.append_nil, (spells_read d s).unescape_eq, unescape, List.append_nil]
  · rw [List.cons_append, unescape, if_pos rfl, Escape.read_append hhead]

/-- What is read in a string that begins at `p`, from `q` on. -/
def stringResult (p q : Span) (out : List UInt8) (s : List Char) : Token × ByteCursor :=
  match closing s with
  | some (content, rest) =>
    (⟨.string, String.ofList (textOf (out ++ unescape content)), p⟩,
      before (q.after (content ++ ['"'])) rest)
  | none => (bad .unterminatedString p, before (q.after s) [])

/-- Characters that stand for bytes go on with the bytes. -/
theorem stringResult_append {u t : List Char} (bytes : List UInt8)
    (hclosing : closing (u ++ t) = (closing t).map fun r => (u ++ r.1, r.2))
    (hbytes : ∀ content rest, content ++ '"' :: rest = t →
      unescape (u ++ content) = bytes ++ unescape content) (p q : Span) (out : List UInt8) :
    stringResult p q out (u ++ t) = stringResult p (q.after u) (out ++ bytes) t := by
  rw [stringResult, stringResult, hclosing]
  cases ht : closing t with
  | none => rw [Option.map_none, Span.after_append]
  | some r =>
    obtain ⟨content, rest⟩ := r
    simp only [Option.map_some]
    rw [hbytes content rest (append_of_closing ht), List.append_assoc, List.append_assoc,
      Span.after_append]

/-- From any place in a string. -/
theorem stringFrom_before (p q : Span) (out : List UInt8) (s : List Char) :
    stringFrom p out (before q s) = stringResult p q out s := by
  -- An escape takes several characters, so the induction is on what is left.
  induction hn : s.length using Nat.strong_induction_on generalizing s q out with
  | _ n ih =>
    subst hn
    cases s with
    | nil => exact stringFrom_nil p q out
    | cons c s =>
      have hlength : s.length < (c :: s).length := Nat.lt_succ_self _
      by_cases hquote : c = '"'
      · subst hquote
        rw [stringFrom_narrow (by decide) rfl, if_pos rfl, stringResult, closing_quote]
        simp only [unescape, List.append_nil]
        rfl
      by_cases hescape : c = '\\'
      · subst hescape
        rw [stringFrom_escape]
        by_cases hs : s = []
        · subst hs
          exact stringFrom_nil p _ _
        have hrest : (Escape.read s).rest.length < ('\\' :: s).length :=
          Nat.lt_succ_of_le (Escape.length_rest_read_le s)
        have hcut : '\\' :: s = '\\' :: (Escape.read s).taken ++ (Escape.read s).rest := by
          rw [List.cons_append, Escape.read_cuts]
        have hinside : Inside ('\\' :: (Escape.read s).taken) := by
          obtain ⟨d, s, rfl⟩ := List.exists_cons_of_ne_nil hs
          refine (spells_read d s).inside fun hmark => ?_
          exact absurd (List.cons.inj hmark).1 (by decide)
        rw [ih _ hrest _ _ _ rfl, hcut, stringResult_append _ (hinside _)]
        intro content rest hcontent
        refine unescape_escape hs ?_
        cases content with
        | nil => exact .inl rfl
        | cons d ds => exact .inr (by rw [← hcontent]; rfl)
      have hclosing := closing_other hquote hescape s
      cases hdropped : isDropped c with
      | true =>
        rw [stringFrom_dropped hdropped, ih _ hlength _ _ _ rfl, ← List.singleton_append,
          stringResult_append [] hclosing, List.append_nil]
        · rfl
        · intro content _ _
          rw [List.singleton_append, unescape, if_neg hescape, if_pos hdropped, List.nil_append]
      | false =>
        have hplain : stringFrom p out (before q (c :: s)) =
            stringFrom p (out ++ encodeChar c) (before (q.step c) s) := by
          by_cases hc : c.toNat < 0x80
          · rw [stringFrom_narrow hc hdropped, if_neg hquote, if_neg hescape]
          · exact stringFrom_wide hc p q out s
        rw [hplain, ih _ hlength _ _ _ rfl, ← List.singleton_append,
          stringResult_append (encodeChar c) hclosing]
        · rfl
        · intro content _ _
          rw [List.singleton_append, unescape, if_neg hescape, hdropped, if_neg (by decide)]

/-- **A string is read byte by byte**, its escapes included. -/
theorem reads_readString (p : Span) (s : List Char) :
    Reads p (TextLiteral.readString s) (before p ('"' :: s)).readString := by
  have hread : (before p ('"' :: s)).readString = stringResult p (p.step '"') [] s := by
    rw [← stringFrom_before, stringFrom, readString, advance_narrow (by decide)]
    rfl
  rw [Reads, hread, stringResult, TextLiteral.readString]
  cases closing s <;> rfl

/-! ### Character literals -/

theorem throughQuote_before (p : Span) (s : List Char) :
    (before p s).passThrough '\'' = before (p.after (throughQuote s).1) (throughQuote s).2 :=
  passThrough_before '\'' (by decide) (f := throughQuote) rfl
    (fun _ _ => by rw [throughQuote]) p s

/-- A literal that is not closed, of which `taken` has been read. -/
theorem reads_unclosed (taken : List Char) (p : Span) (s : List Char) :
    Reads p (unclosed taken s)
      (bad .unterminatedCharacter p, (before (p.after taken) s).passThrough '\'') := by
  rw [Reads, throughQuote_before, source_unclosed, Span.after_append]
  rfl

/-- Behind a unit that ends between two characters. -/
theorem reads_closeCharacter (bytes : List UInt8) (taken : List Char) (p : Span) (s : List Char) :
    Reads p (close bytes taken s) (closeCharacter p (bytes, before (p.after taken) s)) := by
  have hunclosed := reads_unclosed (taken ++ s.takeWhile isDropped) p (s.dropWhile isDropped)
  rw [closeCharacter, skipDropped_before, ← Span.after_append]
  by_cases hmark : (s.dropWhile isDropped).head? = some '\''
  · obtain ⟨r, hr⟩ := List.head?_eq_some_iff.1 hmark
    rw [hr, if_pos (peek_narrow (by decide) _ r), advance_narrow (by decide), close_of_quote hr,
      Reads, step_after]
    rfl
  · rw [if_neg (fun h => hmark ((peek_eq_some_iff (by decide)).1 h)), close_of_not_quote]
    · exact hunclosed
    · intro r hr
      exact hmark (by rw [hr]; rfl)

/-- A byte that is no character closes nothing. -/
theorem closeCharacter_of_unread (hx : x.unread = b :: bs) (hb : 0x80 ≤ b.toNat) (p : Span)
    (bytes : List UInt8) :
    closeCharacter p (bytes, x) = (bad .unterminatedCharacter p, x.passThrough '\'') := by
  have hpeek : ¬ x.peek = some '\'' := by
    rw [peek_of_unread hx]
    exact fun h => charOf_ne hb (by decide) (Option.some.inj h)
  rw [closeCharacter]
  dsimp only
  rw [skipDropped_of_unread hx hb, if_neg hpeek]

/-- At an escape. -/
theorem reads_character_escape (taken : List Char) (p : Span) (s : List Char) :
    Reads p
      (if s.head?.all (·.toNat < 0x80) then
        close (Escape.read s).bytes (taken ++ '\\' :: (Escape.read s).taken) (Escape.read s).rest
      else unclosed taken ('\\' :: s))
      (closeCharacter p ((before (p.after taken) ('\\' :: s)).readEscape [])) := by
  by_cases hs : s.head?.all (·.toNat < 0x80)
  · rw [if_pos hs, readEscape_narrow hs, List.nil_append, ← Span.after_append]
    exact reads_closeCharacter _ _ p _
  · rw [if_neg hs]
    cases s with
    | nil => exact absurd rfl hs
    | cons d s =>
      have hd : ¬ d.toNat < 0x80 := by simpa using hs
      obtain ⟨b, b', bs, hunread, hb, hb', hescape⟩ := readEscape_wide hd [] (p.after taken) s
      -- The cursor stands in the middle of `d`, and what it sees there is no mark.
      have hmiddle : (before ((p.after taken).step '\\') (d :: s)).advance.unread = b' :: bs := by
        rw [unread_advance, hunread, List.tail_cons]
      have hunclosed := reads_unclosed taken p ('\\' :: d :: s)
      rw [passThrough_of_peek (peek_narrow (by decide) _ _), if_neg (by decide),
        advance_narrow (by decide), passThrough_of_unread (by decide) hunread hb] at hunclosed
      rwa [hescape, closeCharacter_of_unread hmiddle hb']

theorem readUnit_escape (q : Span) (s : List Char) :
    (before q ('\\' :: s)).readUnit = (before q ('\\' :: s)).readEscape [] := by
  obtain ⟨b, bs, hunread, hb, -⟩ := exists_unread_narrow (c := '\\') (by decide) q s
  rw [readUnit]
  split
  · next hnil => exact absurd (hunread.symm.trans hnil) (List.cons_ne_nil _ _)
  · next hcons =>
    obtain ⟨rfl, -⟩ := List.cons.inj (hcons.symm.trans hunread)
    rw [if_pos hb]

/-- All bytes of a character are taken. -/
theorem readUnit_plain (hc : c ≠ '\\') (q : Span) (s : List Char) :
    (before q (c :: s)).readUnit = (encodeChar c, before (q.step c) s) := by
  obtain ⟨b, bs, hbytes, hwidth, -⟩ := encodeChar_eq_cons c
  have hunread : (before q (c :: s)).unread = b :: (bs ++ encode s) := by
    rw [unread_before, encode_cons, hbytes, List.cons_append]
  have hne : charOf b ≠ '\\' := by
    intro hb
    have hpeek := peek_of_unread hunread
    rw [hb, peek_eq_some_iff (by decide)] at hpeek
    exact hc (Option.some.inj hpeek)
  have hadvance := advanceBy_encodeChar q c s
  rw [readUnit]
  split
  · next hnil => exact absurd (hunread.symm.trans hnil) (List.cons_ne_nil _ _)
  · next hcons =>
    obtain ⟨rfl, -⟩ := List.cons.inj (hcons.symm.trans hunread)
    rw [if_neg hne, hunread, hwidth, ← hadvance, hbytes, ← List.cons_append]
    exact congrArg (·, _) (List.take_left' rfl)

/-- **A character literal is read byte by byte.**  Behind a backslash it takes one byte, and if
this is not a whole character, the literal is not closed there. -/
theorem reads_readCharacter (p : Span) (s : List Char) :
    Reads p (TextLiteral.readCharacter s) (before p ('\'' :: s)).readCharacter := by
  have htaken : (p.step '\'').after (s.takeWhile isDropped) =
      p.after ('\'' :: s.takeWhile isDropped) := rfl
  rw [readCharacter, advance_narrow (by decide), skipDropped_before, TextLiteral.readCharacter,
    htaken]
  cases s.dropWhile isDropped with
  | nil =>
    have hclose := reads_closeCharacter [] ('\'' :: s.takeWhile isDropped) p []
    rwa [close_of_not_quote (s := []) fun _ => (List.cons_ne_nil _ _).symm, List.takeWhile_nil,
      List.append_nil] at hclose
  | cons c t =>
    by_cases hc : c = '\\'
    · subst hc
      rw [readUnit_escape]
      exact reads_character_escape _ p t
    · have hclose := reads_closeCharacter (encodeChar c) ('\'' :: s.takeWhile isDropped ++ [c]) p t
      rw [readUnit_plain hc, step_after]
      dsimp only
      rwa [if_neg hc]

end ByteCursor

end ScriptSyntax
