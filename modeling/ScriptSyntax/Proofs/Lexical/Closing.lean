/-
Lexemes that are closed by a mark.

Strings, characters and comments go on to a closing mark.  When they have one,
nothing that stands behind it matters; when they have none, they take the whole
text, and whatever is added to it without bringing the mark.

* `TextLiteral.readString_settled_or_open` and
  `TextLiteral.readCharacter_settled_or_open` — for text literals;
* `Scan.comment?_cases` — for comments;
* `Gap.IsBlockComment` and `Gap.IsLineComment` say which texts are closed comments.

Design notes: of a character literal the first character, or the first one of its
escape, closes nothing even if it is a quotation mark.  What counts is whether a
quotation mark stands behind it.
-/
import ScriptSyntax.Proofs.Lexical.Boundary

namespace ScriptSyntax

open Reading

/-! ### Escapes -/

namespace Radix

theorem digits_eq {c : Char} {s : List Char} (h : s.head? = some c) (r : Radix) :
    r.digits s = (s.take (r.limit (value c))).takeWhile r.isDigit := by
  cases s with
  | nil => exact nomatch h
  | cons d s =>
    obtain rfl := Option.some.inj h
    rfl

theorem takeWhile_take_append {p : Char → Bool} {n : Nat} {s t : List Char}
    (ht : t.head? = (s.drop ((s.take n).takeWhile p).length).head?) :
    (((s.take n).takeWhile p ++ t).take n).takeWhile p = (s.take n).takeWhile p := by
  induction s generalizing n with
  | nil =>
    cases t with
    | nil => simp
    | cons d t => simp at ht
  | cons c s ih =>
    cases n with
    | zero => simp
    | succ n =>
      rw [List.take_succ_cons] at ht ⊢
      by_cases hc : p c
      · rw [List.takeWhile_cons_of_pos hc] at ht ⊢
        rw [List.cons_append, List.take_succ_cons, List.takeWhile_cons_of_pos hc, ih ht]
      · rw [List.takeWhile_cons_of_neg hc] at ht ⊢
        cases t with
        | nil => simp
        | cons d t =>
          obtain rfl := Option.some.inj ht
          simp [hc]

/-- Digits are read alike in front of the same character. -/
theorem digits_append {r : Radix} {s t : List Char}
    (ht : t.head? = (s.drop (r.digits s).length).head?) :
    r.digits (r.digits s ++ t) = r.digits s := by
  cases s with
  | nil =>
    cases t with
    | nil => rfl
    | cons c t => exact nomatch ht
  | cons c cs =>
    have hs := digits_eq (s := c :: cs) rfl r
    have hhead : (r.digits (c :: cs) ++ t).head? = some c := by
      have hcut := r.digits_append_drop (c :: cs)
      cases hds : r.digits (c :: cs) with
      | nil =>
        rw [hds] at ht
        exact ht
      | cons d ds =>
        rw [hds] at hcut
        obtain ⟨rfl, -⟩ := List.cons.inj hcut
        rfl
    rw [digits_eq hhead]
    rw [hs] at ht ⊢
    exact takeWhile_take_append ht

theorem quote_not_mem_digits {r : Radix} (hr : r.isDigit '\'' = false) (s : List Char) :
    '\'' ∉ r.digits s := by
  cases s with
  | nil => exact List.not_mem_nil
  | cons c cs =>
    intro h
    have := List.all_eq_true.1 List.all_takeWhile _ h
    rw [hr] at this
    exact Bool.noConfusion this

theorem isDigit_quote {c : Char} {r : Radix} (h : ofLetter? c = some r) :
    r.isDigit '\'' = false := by
  unfold ofLetter? at h
  split at h
  · obtain rfl := Option.some.inj h; rfl
  · obtain rfl := Option.some.inj h; rfl
  · obtain rfl := Option.some.inj h; rfl
  · obtain rfl := Option.some.inj h; rfl
  · exact nomatch h

end Radix

namespace Escape

theorem read_of_control? {c : Char} {b : UInt8} (h : control? c = some b) (cs : List Char) :
    read (c :: cs) = ⟨[b], [c], cs⟩ := by
  rw [read, h]

theorem read_of_ofLetter? {c : Char} (h : control? c = none) {r : Radix}
    (hr : Radix.ofLetter? c = some r) (cs : List Char) :
    read (c :: cs) = if r.digits cs = [] then ⟨Utf8.encodeChar c, [c], cs⟩
      else ⟨r.bytes ((r.digits cs).map Radix.value), c :: r.digits cs,
        cs.drop (r.digits cs).length⟩ := by
  rw [read, h, hr]

theorem read_other {c : Char} (h : control? c = none) (hr : Radix.ofLetter? c = none)
    (cs : List Char) : read (c :: cs) = ⟨Utf8.encodeChar c, [c], cs⟩ := by
  rw [read, h, hr]

/-- An escape is read alike in front of the same character. -/
theorem read_append {s t : List Char} (ht : t.head? = (read s).rest.head?) :
    read ((read s).taken ++ t) = ⟨(read s).bytes, (read s).taken, t⟩ := by
  cases s with
  | nil =>
    cases t with
    | nil => rfl
    | cons c t => exact nomatch ht
  | cons c cs =>
    cases hc : control? c with
    | some b =>
      rw [read_of_control? hc cs]
      exact read_of_control? hc t
    | none =>
      cases hr : Radix.ofLetter? c with
      | none =>
        rw [read_other hc hr cs]
        exact read_other hc hr t
      | some r =>
        rw [read_of_ofLetter? hc hr] at ht ⊢
        by_cases hds : r.digits cs = []
        · rw [if_pos hds] at ht ⊢
          have ht' : t.head? = (cs.drop (r.digits cs).length).head? := by
            rw [hds]
            exact ht
          have hnone : r.digits t = [] := by
            have := Radix.digits_append ht'
            rwa [hds, List.nil_append] at this
          show read (c :: t) = _
          rw [read_of_ofLetter? hc hr, if_pos hnone]
        · rw [if_neg hds] at ht ⊢
          show read (c :: (r.digits cs ++ t)) = _
          rw [read_of_ofLetter? hc hr, Radix.digits_append ht, if_neg hds, List.drop_left]

/-- Behind its first character an escape takes digits only, and so no quotation
mark. -/
theorem exists_taken (c : Char) (cs : List Char) :
    ∃ ds, (read (c :: cs)).taken = c :: ds ∧ ds ++ (read (c :: cs)).rest = cs ∧ '\'' ∉ ds := by
  cases hc : control? c with
  | some b =>
    rw [read_of_control? hc cs]
    exact ⟨[], rfl, rfl, List.not_mem_nil⟩
  | none =>
    cases hr : Radix.ofLetter? c with
    | none =>
      rw [read_other hc hr cs]
      exact ⟨[], rfl, rfl, List.not_mem_nil⟩
    | some r =>
      rw [read_of_ofLetter? hc hr]
      by_cases hds : r.digits cs = []
      · rw [if_pos hds]
        exact ⟨[], rfl, rfl, List.not_mem_nil⟩
      · rw [if_neg hds]
        exact ⟨r.digits cs, rfl, r.digits_append_drop cs,
          Radix.quote_not_mem_digits (Radix.isDigit_quote hr) cs⟩

end Escape

/-! ### Strings -/

namespace TextLiteral

theorem closing_quote (cs : List Char) : closing ('"' :: cs) = some ([], cs) := by
  rw [closing.eq_def]
  rfl

theorem closing_escape (d : Char) (ds : List Char) :
    closing ('\\' :: d :: ds) = (closing ds).map fun r => ('\\' :: d :: r.1, r.2) := by
  rw [closing.eq_def]
  rfl

theorem closing_other {c : Char} (hquote : c ≠ '"') (hescape : c ≠ '\\') (cs : List Char) :
    closing (c :: cs) = (closing cs).map fun r => (c :: r.1, r.2) := by
  rw [closing.eq_def]
  simp [hquote, hescape]

theorem closing_of_not_mem {w : List Char} (hw : '"' ∉ w) : closing w = none := by
  fun_induction closing w with
  | case1 => rfl
  | case2 cs => exact absurd List.mem_cons_self hw
  | case3 => rfl
  | case4 d ds _ ih =>
    rw [ih fun h => hw (List.mem_cons_of_mem _ (List.mem_cons_of_mem d h))]
    rfl
  | case5 c cs _ _ ih =>
    rw [ih fun h => hw (List.mem_cons_of_mem c h)]
    rfl

/-- A string is closed by a mark, whatever follows, or it is open. -/
theorem closing_cases (s : List Char) :
    (∃ content rest, s = content ++ '"' :: rest ∧
      ∀ t, closing (content ++ '"' :: t) = some (content, t)) ∨
      ∀ w, '"' ∉ w → closing (s ++ w) = none := by
  fun_induction closing s with
  | case1 => exact .inr fun w hw => closing_of_not_mem hw
  | case2 cs => exact .inl ⟨[], cs, rfl, closing_quote⟩
  | case3 =>
    refine .inr fun w hw => ?_
    cases w with
    | nil => rfl
    | cons d ds =>
      show closing ('\\' :: d :: ds) = none
      rw [closing_escape, closing_of_not_mem fun h => hw (List.mem_cons_of_mem d h)]
      rfl
  | case4 d ds _ ih =>
    rcases ih with ⟨content, rest, rfl, hread⟩ | hopen
    · refine .inl ⟨'\\' :: d :: content, rest, rfl, fun t => ?_⟩
      rw [List.cons_append, List.cons_append, closing_escape, hread]
      rfl
    · refine .inr fun w hw => ?_
      rw [List.cons_append, List.cons_append, closing_escape, hopen w hw]
      rfl
  | case5 c cs hquote hescape ih =>
    rcases ih with ⟨content, rest, rfl, hread⟩ | hopen
    · refine .inl ⟨c :: content, rest, rfl, fun t => ?_⟩
      rw [List.cons_append, closing_other hquote hescape, hread]
      rfl
    · refine .inr fun w hw => ?_
      rw [List.cons_append, closing_other hquote hescape, hopen w hw]
      rfl

theorem readString_settled_or_open (s : List Char) :
    Settled (fun u => readString u.tail) ('"' :: s) ∨
      Open (fun u => readString u.tail) ('"' :: s) := by
  rcases closing_cases s with ⟨content, rest, rfl, hread⟩ | hopen
  · refine .inl (Fixed.settled ?_ (readString_cuts _))
    refine ⟨'"' :: content ++ ['"'], rest,
      .whole .string (textOf (unescape content)) ('"' :: content ++ ['"']), by simp, fun t => ?_⟩
    have hclosing : closing ('"' :: content ++ ['"'] ++ t).tail = some (content, t) := by
      simpa using hread t
    simp only [readString, hclosing]
  · have hbad : ∀ w, '"' ∉ w →
        readString (s ++ w) = ⟨.bad .unterminatedString ('"' :: (s ++ w)), []⟩ := by
      intro w hw
      rw [readString, hopen w hw]
    have hs := hbad [] List.not_mem_nil
    rw [List.append_nil] at hs
    refine .inr ⟨by simp [hs], fun w hw => ?_⟩
    have hw := hbad w (hw.not_mem rfl)
    simp [hs, hw, Lexeme.bad, Lexeme.content]

/-! ### Characters -/

theorem throughQuote_append {a : List Char} (ha : '\'' ∉ a) (t : List Char) :
    throughQuote (a ++ '\'' :: t) = (a ++ ['\''], t) := by
  induction a with
  | nil => rfl
  | cons c a ih =>
    simp only [List.mem_cons, not_or] at ha
    rw [List.cons_append, throughQuote, if_neg (Ne.symm ha.1), ih ha.2]
    rfl

theorem throughQuote_of_not_mem {s : List Char} (h : '\'' ∉ s) : throughQuote s = (s, []) := by
  induction s with
  | nil => rfl
  | cons c s ih =>
    simp only [List.mem_cons, not_or] at h
    rw [throughQuote, if_neg (Ne.symm h.1), ih h.2]

theorem unclosed_append {a : List Char} (ha : '\'' ∉ a) (taken t : List Char) :
    unclosed taken (a ++ '\'' :: t) =
      ⟨.bad .unterminatedCharacter (taken ++ (a ++ ['\''])), t⟩ := by
  rw [unclosed, throughQuote_append ha]

theorem unclosed_of_not_mem {s : List Char} (h : '\'' ∉ s) (taken : List Char) :
    unclosed taken s = ⟨.bad .unterminatedCharacter (taken ++ s), []⟩ := by
  rw [unclosed, throughQuote_of_not_mem h]

theorem close_of_quote {s r : List Char} (h : s.dropWhile isDropped = '\'' :: r)
    (bytes : List UInt8) (taken : List Char) :
    close bytes taken s =
      ⟨.whole .char (textOf bytes) (taken ++ s.takeWhile isDropped ++ ['\'']), r⟩ := by
  rw [close, h]
  rfl

theorem close_of_not_quote {s : List Char} (h : ∀ r, s.dropWhile isDropped ≠ '\'' :: r)
    (bytes : List UInt8) (taken : List Char) :
    close bytes taken s =
      unclosed (taken ++ s.takeWhile isDropped) (s.dropWhile isDropped) := by
  unfold close
  dsimp only
  split
  · next r hr => exact absurd hr (h r)
  · rfl

theorem close_of_not_mem {s : List Char} (h : '\'' ∉ s) (bytes : List UInt8)
    (taken : List Char) :
    close bytes taken s = ⟨.bad .unterminatedCharacter (taken ++ s), []⟩ := by
  have hs : s.takeWhile isDropped ++ s.dropWhile isDropped = s := List.takeWhile_append_dropWhile
  have hdrop : '\'' ∉ s.dropWhile isDropped := fun hmem => h ((List.dropWhile_suffix _).subset hmem)
  have hquote : ∀ r, s.dropWhile isDropped ≠ '\'' :: r := by
    intro r hr
    rw [hr] at hdrop
    exact hdrop List.mem_cons_self
  rw [close_of_not_quote hquote, unclosed_of_not_mem hdrop, List.append_assoc, hs]

/-- The end of a character literal, up to the next quotation mark. -/
theorem close_of_mem (bytes : List UInt8) (taken : List Char) {s : List Char} (h : '\'' ∈ s) :
    ∃ front rest x, s = front ++ rest ∧ front ≠ [] ∧
      ∀ t, close bytes taken (front ++ t) = ⟨x, t⟩ := by
  have hs : s.takeWhile isDropped ++ s.dropWhile isDropped = s := List.takeWhile_append_dropWhile
  have hgap : ∀ c ∈ s.takeWhile isDropped, isDropped c := List.all_eq_true.1 List.all_takeWhile
  have hmem : '\'' ∈ s.dropWhile isDropped := by
    rw [← hs] at h
    exact (List.mem_append.1 h).resolve_left fun h => absurd (hgap _ h) (by decide)
  obtain ⟨a, r, ha, hfirst⟩ := List.eq_append_cons_of_mem hmem
  have hsplit : ∀ t, (a ++ '\'' :: t).head?.all (!isDropped ·) := by
    -- Behind the dropped space the same character comes first, whatever follows.
    intro t
    cases a with
    | nil => rfl
    | cons c a =>
      have := List.head?_dropWhile_not isDropped s
      rw [ha] at this
      simpa using this
  have hfront : s = s.takeWhile isDropped ++ (a ++ ['\'']) ++ r := by
    rw [List.append_assoc, List.append_assoc]
    exact hs.symm.trans (congrArg _ ha)
  cases a with
  | nil =>
    refine ⟨_, r, .whole .char (textOf bytes) (taken ++ s.takeWhile isDropped ++ ['\'']), hfront,
      by simp, fun t => ?_⟩
    obtain ⟨htake, hdrop⟩ := takeWhile_append_of_stop hgap (hsplit t)
    rw [List.append_assoc, List.append_assoc, List.singleton_append, close_of_quote hdrop, htake]
  | cons c a =>
    refine ⟨_, r, .bad .unterminatedCharacter
      (taken ++ s.takeWhile isDropped ++ (c :: a ++ ['\''])), hfront, by simp, fun t => ?_⟩
    obtain ⟨htake, hdrop⟩ := takeWhile_append_of_stop hgap (hsplit t)
    have hquote : ∀ r, c :: a ++ '\'' :: t ≠ '\'' :: r := by
      intro r hr
      obtain ⟨rfl, -⟩ := List.cons.inj hr
      exact hfirst List.mem_cons_self
    rw [List.append_assoc, List.append_assoc, List.singleton_append,
      close_of_not_quote (by rw [hdrop]; exact hquote), htake, hdrop, unclosed_append hfirst]

section

variable {gap cs : List Char} {c : Char} (hgap : ∀ x ∈ gap, isDropped x)
include hgap

theorem readCharacter_gap : readCharacter gap = unclosed ('\'' :: gap) [] := by
  obtain ⟨htake, hdrop⟩ := takeWhile_append_of_stop (s := []) hgap rfl
  rw [List.append_nil] at htake hdrop
  rw [readCharacter, hdrop, htake]

theorem readCharacter_plain (hdropped : isDropped c = false) (hc : c ≠ '\\') :
    readCharacter (gap ++ c :: cs) = close (Utf8.encodeChar c) ('\'' :: gap ++ [c]) cs := by
  obtain ⟨htake, hdrop⟩ := takeWhile_append_of_stop (s := c :: cs) hgap (by simp [hdropped])
  rw [readCharacter, hdrop, htake]
  dsimp only
  rw [if_neg hc]

theorem readCharacter_escape :
    readCharacter (gap ++ '\\' :: cs) =
      if cs.head?.all (·.toNat < 0x80) then
        close (Escape.read cs).bytes ('\'' :: gap ++ '\\' :: (Escape.read cs).taken)
          (Escape.read cs).rest
      else unclosed ('\'' :: gap) ('\\' :: cs) := by
  obtain ⟨htake, hdrop⟩ := takeWhile_append_of_stop (s := '\\' :: cs) hgap rfl
  rw [readCharacter, hdrop, htake]
  dsimp only
  rw [if_pos rfl]

/-! Without a quotation mark behind its first character a literal takes the whole
text. -/

theorem readCharacter_plain_of_not_mem (hdropped : isDropped c = false) (hc : c ≠ '\\')
    (h : '\'' ∉ cs) :
    readCharacter (gap ++ c :: cs) =
      ⟨.bad .unterminatedCharacter ('\'' :: (gap ++ c :: cs)), []⟩ := by
  rw [readCharacter_plain hgap hdropped hc, close_of_not_mem h, List.append_assoc,
    List.singleton_append, List.cons_append]

theorem readCharacter_escape_of_not_mem (h : '\'' ∉ cs.tail) :
    readCharacter (gap ++ '\\' :: cs) =
      ⟨.bad .unterminatedCharacter ('\'' :: (gap ++ '\\' :: cs)), []⟩ := by
  rw [readCharacter_escape hgap]
  cases cs with
  | nil =>
    rw [if_pos (show ([] : List Char).head?.all _ from rfl),
      close_of_not_mem (show '\'' ∉ (Escape.read []).rest from List.not_mem_nil)]
    simp [Escape.read]
  | cons d ds =>
    rw [List.tail_cons] at h
    split
    · obtain ⟨digits, -, hcut, -⟩ := Escape.exists_taken d ds
      have hrest : '\'' ∉ (Escape.read (d :: ds)).rest := by
        intro hmem
        rw [← hcut] at h
        exact h (List.mem_append_right _ hmem)
      rw [close_of_not_mem hrest, List.append_assoc, List.cons_append, List.cons_append,
        Escape.read_cuts]
    · next hwide =>
      -- What is no byte is no quotation mark either.
      have hd : '\'' ≠ d := by
        rintro rfl
        exact hwide rfl
      have hmem : '\'' ∉ '\\' :: d :: ds := by
        simp only [List.mem_cons, not_or]
        exact ⟨by decide, hd, h⟩
      rw [unclosed_of_not_mem hmem, List.cons_append]

/-! With one it is read up to such a mark, whatever follows. -/

omit hgap in
theorem fixed_of_front {front rest : List Char} {x : Lexeme} (hcs : cs = front ++ rest)
    (h : ∀ t, readCharacter (gap ++ c :: (front ++ t)) = ⟨x, t⟩) :
    Fixed (fun u => readCharacter u.tail) ('\'' :: (gap ++ c :: cs)) := by
  refine ⟨'\'' :: (gap ++ c :: front), rest, x, ?_, fun t => ?_⟩
  · rw [List.cons_append, List.append_assoc, List.cons_append, hcs]
  · show readCharacter (gap ++ c :: front ++ t) = _
    rw [List.append_assoc, List.cons_append]
    exact h t

theorem readCharacter_plain_fixed (hdropped : isDropped c = false) (hc : c ≠ '\\')
    (h : '\'' ∈ cs) : Fixed (fun u => readCharacter u.tail) ('\'' :: (gap ++ c :: cs)) := by
  obtain ⟨front, rest, x, hcs, -, hread⟩ :=
    close_of_mem (Utf8.encodeChar c) ('\'' :: gap ++ [c]) h
  refine fixed_of_front (x := x) hcs fun t => ?_
  rw [readCharacter_plain hgap hdropped hc]
  exact hread t

theorem readCharacter_escape_fixed {d : Char} {ds : List Char} (h : '\'' ∈ ds) :
    Fixed (fun u => readCharacter u.tail) ('\'' :: (gap ++ '\\' :: d :: ds)) := by
  by_cases hd : d.toNat < 0x80
  · obtain ⟨digits, htaken, hcut, hdigits⟩ := Escape.exists_taken d ds
    rw [← hcut] at h
    have hmem := (List.mem_append.1 h).resolve_left hdigits
    obtain ⟨front, rest, x, hrest, hne, hread⟩ := close_of_mem (Escape.read (d :: ds)).bytes
      ('\'' :: gap ++ '\\' :: (Escape.read (d :: ds)).taken) hmem
    have hcs : d :: ds = (Escape.read (d :: ds)).taken ++ front ++ rest := by
      rw [List.append_assoc, ← hrest, Escape.read_cuts]
    refine fixed_of_front (x := x) hcs fun t => ?_
    have hnarrow : ((Escape.read (d :: ds)).taken ++ front ++ t).head?.all (·.toNat < 0x80) := by
      rw [htaken]
      exact decide_eq_true hd
    have hhead : (front ++ t).head? = (Escape.read (d :: ds)).rest.head? := by
      rw [hrest]
      cases front with
      | nil => exact absurd rfl hne
      | cons e front => rfl
    rw [readCharacter_escape hgap, if_pos hnarrow, List.append_assoc, Escape.read_append hhead]
    exact hread t
  · obtain ⟨a, rest, rfl, ha⟩ := List.eq_append_cons_of_mem h
    have hfirst : '\'' ∉ '\\' :: d :: a := by
      simp only [List.mem_cons, not_or]
      refine ⟨by decide, ?_, ha⟩
      rintro rfl
      exact hd (by decide)
    have hcs : d :: (a ++ '\'' :: rest) = d :: a ++ ['\''] ++ rest := by simp
    refine fixed_of_front (x := .bad .unterminatedCharacter
      ('\'' :: gap ++ ('\\' :: d :: a ++ ['\'']))) hcs fun t => ?_
    have hwide : ¬ (d :: a ++ ['\''] ++ t).head?.all (·.toNat < 0x80) := by simpa using hd
    rw [readCharacter_escape hgap, if_neg hwide, List.append_assoc, List.singleton_append,
      ← List.cons_append, unclosed_append hfirst]

end

/-- A text is white space that literals drop, or has a first character behind it. -/
theorem exists_gap (s : List Char) :
    (∀ c ∈ s, isDropped c) ∨
      ∃ gap c cs, s = gap ++ c :: cs ∧ (∀ x ∈ gap, isDropped x) ∧ isDropped c = false := by
  have hs : s.takeWhile isDropped ++ s.dropWhile isDropped = s := List.takeWhile_append_dropWhile
  have hgap : ∀ c ∈ s.takeWhile isDropped, isDropped c := List.all_eq_true.1 List.all_takeWhile
  cases hdrop : s.dropWhile isDropped with
  | nil =>
    rw [hdrop, List.append_nil] at hs
    rw [← hs]
    exact .inl hgap
  | cons c cs =>
    have hc := List.head?_dropWhile_not isDropped s
    rw [hdrop] at hs hc
    exact .inr ⟨_, c, cs, hs.symm, hgap, by simpa using hc⟩

theorem readCharacter_of_not_mem {s : List Char} (h : '\'' ∉ s) :
    readCharacter s = ⟨.bad .unterminatedCharacter ('\'' :: s), []⟩ := by
  rcases exists_gap s with hgap | ⟨gap, c, cs, rfl, hgap, hdropped⟩
  · rw [readCharacter_gap hgap, unclosed_of_not_mem List.not_mem_nil, List.append_nil]
  · have hcs : '\'' ∉ cs := fun hmem => h (List.mem_append_right _ (List.mem_cons_of_mem c hmem))
    by_cases hc : c = '\\'
    · rw [hc]
      exact readCharacter_escape_of_not_mem hgap fun hmem => hcs (List.mem_of_mem_tail hmem)
    · exact readCharacter_plain_of_not_mem hgap hdropped hc hcs

theorem open_of_forall {s : List Char}
    (h : ∀ w, '\'' ∉ w →
      readCharacter (s ++ w) = ⟨.bad .unterminatedCharacter ('\'' :: (s ++ w)), []⟩) :
    Open (fun u => readCharacter u.tail) ('\'' :: s) := by
  have hs := h [] List.not_mem_nil
  rw [List.append_nil] at hs
  refine ⟨by simp [hs], fun w hw => ?_⟩
  have hw := h w (hw.not_mem rfl)
  simp [hs, hw, Lexeme.bad, Lexeme.content]

theorem readCharacter_settled_or_open (s : List Char) :
    Settled (fun u => readCharacter u.tail) ('\'' :: s) ∨
      Open (fun u => readCharacter u.tail) ('\'' :: s) := by
  have hsettled : Fixed (fun u => readCharacter u.tail) ('\'' :: s) →
      Settled (fun u => readCharacter u.tail) ('\'' :: s) := fun h =>
    h.settled (readCharacter_cuts s)
  rcases exists_gap s with hgap | ⟨gap, c, cs, rfl, hgap, hdropped⟩
  · refine .inr (open_of_forall fun w hw => readCharacter_of_not_mem fun hmem => ?_)
    rcases List.mem_append.1 hmem with hmem | hmem
    · exact absurd (hgap _ hmem) (by decide)
    · exact hw hmem
  · have hnot : ∀ {u w : List Char}, '\'' ∉ u → '\'' ∉ w → '\'' ∉ u ++ w := by
      intro u w hu hw hmem
      exact (List.mem_append.1 hmem).elim hu hw
    by_cases hc : c = '\\'
    · subst hc
      cases cs with
      | nil =>
        refine .inr (open_of_forall fun w hw => ?_)
        rw [List.append_assoc]
        exact readCharacter_escape_of_not_mem hgap fun hmem => hw (List.mem_of_mem_tail hmem)
      | cons d ds =>
        by_cases hmem : '\'' ∈ ds
        · exact .inl (hsettled (readCharacter_escape_fixed hgap hmem))
        · refine .inr (open_of_forall fun w hw => ?_)
          rw [List.append_assoc]
          exact readCharacter_escape_of_not_mem hgap (hnot hmem hw)
    · by_cases hmem : '\'' ∈ cs
      · exact .inl (hsettled (readCharacter_plain_fixed hgap hdropped hc hmem))
      · refine .inr (open_of_forall fun w hw => ?_)
        rw [List.append_assoc]
        exact readCharacter_plain_of_not_mem hgap hdropped hc (hnot hmem hw)

end TextLiteral

/-! ### Comments -/

namespace Gap

/-- A block comment, closed by the first `*/` behind its opening. -/
def IsBlockComment (c : List Char) : Prop :=
  ∃ body, c = '/' :: '*' :: (body ++ ['*', '/']) ∧ ¬ ['*', '/'] <:+: body ++ ['*']

/-- A line comment with the line break that ends it. -/
def IsLineComment (c : List Char) : Prop :=
  ∃ body, c = '/' :: '/' :: (body ++ ['\n']) ∧ '\n' ∉ body

theorem line_append {a : List Char} (ha : '\n' ∉ a) (t : List Char) :
    line (a ++ '\n' :: t) = (a ++ ['\n'], t) := by
  induction a with
  | nil => rfl
  | cons c a ih =>
    simp only [List.mem_cons, not_or] at ha
    rw [List.cons_append, line, if_neg (Ne.symm ha.1), ih ha.2]
    rfl

theorem line_of_not_mem {s : List Char} (h : '\n' ∉ s) : line s = (s, []) := by
  induction s with
  | nil => rfl
  | cons c s ih =>
    simp only [List.mem_cons, not_or] at h
    rw [line, if_neg (Ne.symm h.1), ih h.2]

theorem blockComment_cons {c : Char} {s : List Char} (h : ¬ ['*', '/'] <+: c :: s) :
    blockComment (c :: s) = (c :: (blockComment s).1, (blockComment s).2) := by
  rw [blockComment.eq_def]
  split
  · next h₁ => exact nomatch h₁
  · next h₁ =>
    obtain ⟨rfl, rfl⟩ := List.cons.inj h₁
    exact absurd (List.prefix_append ['*', '/'] _) h
  · next h₁ =>
    obtain ⟨rfl, rfl⟩ := List.cons.inj h₁
    rfl

/-- The first closing mark ends a block comment. -/
theorem blockComment_append {body : List Char} (h : ¬ ['*', '/'] <:+: body ++ ['*'])
    (t : List Char) : blockComment (body ++ '*' :: '/' :: t) = (body ++ ['*', '/'], t) := by
  induction body with
  | nil => rfl
  | cons c body ih =>
    rw [List.cons_append, List.infix_cons_iff, not_or] at h
    have hnot : ¬ ['*', '/'] <+: c :: (body ++ '*' :: '/' :: t) := by
      intro hbegins
      refine h.1 ?_
      cases body with
      | nil =>
        obtain ⟨-, hbegins⟩ := List.cons_prefix_cons.1 hbegins
        exact absurd (List.cons_prefix_cons.1 hbegins).1 (by decide)
      | cons d body =>
        obtain ⟨rfl, hslash⟩ := List.cons_prefix_cons.1 hbegins
        obtain ⟨rfl, -⟩ := List.cons_prefix_cons.1 hslash
        exact List.prefix_append ['*', '/'] _
    rw [List.cons_append, blockComment_cons hnot, ih h.2]
    rfl

theorem blockComment_of_not_infix {s : List Char} (h : ¬ ['*', '/'] <:+: s) :
    blockComment s = (s, []) := by
  induction s with
  | nil => rfl
  | cons c s ih =>
    rw [List.infix_cons_iff, not_or] at h
    rw [blockComment_cons h.1, ih h.2]

/-- A text that contains closing marks contains a first one. -/
theorem exists_first_closing {s : List Char} (h : ['*', '/'] <:+: s) :
    ∃ body rest, s = body ++ '*' :: '/' :: rest ∧ ¬ ['*', '/'] <:+: body ++ ['*'] := by
  induction s with
  | nil => exact absurd h (by decide)
  | cons c s ih =>
    by_cases hfirst : ['*', '/'] <+: c :: s
    · obtain ⟨rest, hrest⟩ := hfirst
      exact ⟨[], rest, hrest.symm, by decide⟩
    · obtain ⟨body, rest, rfl, hbody⟩ := ih ((List.infix_cons_iff.1 h).resolve_left hfirst)
      refine ⟨c :: body, rest, rfl, ?_⟩
      rw [List.cons_append, List.infix_cons_iff, not_or]
      refine ⟨fun hbegins => hfirst ?_, hbody⟩
      have hlonger : c :: (body ++ ['*']) <+: c :: (body ++ '*' :: '/' :: rest) :=
        ⟨'/' :: rest, by simp⟩
      exact hbegins.trans hlonger

/-- A closing mark does not come up where only its first half is added to. -/
theorem not_infix_append {s w : List Char} (hs : ¬ ['*', '/'] <:+: s) (hw : '/' ∉ w) :
    ¬ ['*', '/'] <:+: s ++ w := by
  induction s with
  | nil => exact fun h => hw (h.subset (List.mem_cons_of_mem _ List.mem_cons_self))
  | cons c s ih =>
    rw [List.infix_cons_iff, not_or] at hs
    rw [List.cons_append, List.infix_cons_iff, not_or]
    refine ⟨fun hbegins => ?_, ih hs.2⟩
    obtain ⟨rfl, hslash⟩ := List.cons_prefix_cons.1 hbegins
    cases s with
    | nil => exact hw (hslash.subset List.mem_cons_self)
    | cons d s =>
      obtain ⟨rfl, -⟩ := List.cons_prefix_cons.1 hslash
      exact hs.1 (List.prefix_append ['*', '/'] s)

end Gap

namespace Scan

theorem comment?_slashes (cs : List Char) :
    comment? ('/' :: '/' :: cs) = some ('/' :: '/' :: (Gap.line cs).1, (Gap.line cs).2) := rfl

theorem comment?_star (cs : List Char) :
    comment? ('/' :: '*' :: cs) =
      some ('/' :: '*' :: (Gap.blockComment cs).1, (Gap.blockComment cs).2) := rfl

theorem comment?_block {body : List Char} (h : ¬ ['*', '/'] <:+: body ++ ['*']) (t : List Char) :
    comment? ('/' :: '*' :: (body ++ ['*', '/']) ++ t) =
      some ('/' :: '*' :: (body ++ ['*', '/']), t) := by
  rw [List.cons_append, List.cons_append, List.append_assoc, comment?_star]
  show some ('/' :: '*' :: (Gap.blockComment (body ++ '*' :: '/' :: t)).1,
    (Gap.blockComment (body ++ '*' :: '/' :: t)).2) = _
  rw [Gap.blockComment_append h]

theorem comment?_line {body : List Char} (h : '\n' ∉ body) (t : List Char) :
    comment? ('/' :: '/' :: (body ++ ['\n']) ++ t) =
      some ('/' :: '/' :: (body ++ ['\n']), t) := by
  rw [List.cons_append, List.cons_append, List.append_assoc, comment?_slashes]
  show some ('/' :: '/' :: (Gap.line (body ++ '\n' :: t)).1,
    (Gap.line (body ++ '\n' :: t)).2) = _
  rw [Gap.line_append h]

/-- A comment is closed, whatever follows, or it is open. -/
theorem comment?_cases {s : List Char} (h : (comment? s).isSome) :
    (∃ front rest, s = front ++ rest ∧ ∀ t, comment? (front ++ t) = some (front, t)) ∨
      ∀ w, Gap.Blank w → comment? (s ++ w) = some (s ++ w, []) := by
  unfold comment? at h
  split at h
  · next cs =>
    by_cases hmem : '\n' ∈ cs
    · obtain ⟨body, rest, rfl, hbody⟩ := List.eq_append_cons_of_mem hmem
      exact .inl ⟨'/' :: '/' :: (body ++ ['\n']), rest, by simp, comment?_line hbody⟩
    · refine .inr fun w hw => ?_
      have hline : '\n' ∉ cs ++ w := fun h => (List.mem_append.1 h).elim hmem (hw.not_mem rfl)
      rw [List.cons_append, List.cons_append, comment?_slashes, Gap.line_of_not_mem hline]
  · next cs =>
    by_cases hinfix : ['*', '/'] <:+: cs
    · obtain ⟨body, rest, rfl, hbody⟩ := Gap.exists_first_closing hinfix
      exact .inl ⟨'/' :: '*' :: (body ++ ['*', '/']), rest, by simp, comment?_block hbody⟩
    · refine .inr fun w hw => ?_
      rw [List.cons_append, List.cons_append, comment?_star,
        Gap.blockComment_of_not_infix (Gap.not_infix_append hinfix (hw.not_mem rfl))]
  · exact nomatch h

end Scan

end ScriptSyntax
