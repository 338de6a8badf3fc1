/-
Nested lists as text.

A nested list is a word, a quoted text, or a list of nested lists that a word
names.  Written with a space before each of its parts it can be read in one way
only:

* `NestedList.write x tail` is the text of `x` with `tail` after it;
* `NestedList.Proper` says that the words in a list are words indeed: not empty, and
  free of the characters that separate the parts of a list;
* `NestedList.Proper.write_inj` — from what is written one can tell the list, and what
  follows it;
* `NestedList.Proper.newLine_notMem_write` — and it is written on one line.

Design notes: a word ends where a separating character, or nothing, follows
(`NestedList.Ends`).  This is what has to be known of the text behind a list.
-/
import ScriptSyntax.Proofs.Lexical.Boundary
import ScriptSyntax.Proofs.Text.Quoting

namespace ScriptSyntax

/-- A nested list. -/
inductive NestedList where
  | bare (word : List Char)
  | quoted (mark : Char) (text : List Char)
  | form (name : List Char) (parts : List NestedList)

namespace NestedList

/-- Induction over nested lists: a list may assume the claim of each of its parts. -/
@[elab_as_elim, induction_eliminator]
theorem induct {motive : NestedList → Prop}
    (bare : ∀ word, motive (bare word))
    (quoted : ∀ mark text, motive (quoted mark text))
    (form : ∀ name parts, (∀ x ∈ parts, motive x) → motive (form name parts))
    (x : NestedList) : motive x :=
  @NestedList.rec motive (fun xs => ∀ x ∈ xs, motive x)
    bare quoted form (fun _ h => absurd h List.not_mem_nil)
    (fun _ _ hx hxs y hy => (List.mem_cons.1 hy).elim (fun h => h ▸ hx) (hxs y)) x

mutual

/-- The text of a nested list, with `tail` after it. -/
def write (x : NestedList) (tail : List Char) : List Char :=
  match x with
  | bare word => word ++ tail
  | quoted mark text => Text.plainQuote mark text ++ tail
  | form name parts => '(' :: (name ++ writeAll parts (')' :: tail))

/-- The texts of some nested lists with a space before each, and `tail` after them. -/
def writeAll (xs : List NestedList) (tail : List Char) : List Char :=
  match xs with
  | [] => tail
  | x :: xs => ' ' :: write x (writeAll xs tail)

end

/-! ### Words -/

/-- Whether a character separates the parts of a list. -/
def separates (c : Char) : Bool :=
  c == '(' || c == ')' || c == ' ' || c == '\n' || c == '"' || c == '\''

/-- A word is not empty, and nothing in it separates. -/
def IsWord (cs : List Char) : Prop :=
  cs ≠ [] ∧ cs.all (!separates ·)

instance (cs : List Char) : Decidable (IsWord cs) :=
  inferInstanceAs (Decidable (_ ∧ _))

/-- A text before which a word ends. -/
def Ends (s : List Char) : Prop :=
  s.head?.all separates

theorem ends_nil : Ends [] :=
  rfl

theorem separates_of_isQuotationMark {mark : Char} (h : Text.IsQuotationMark mark) :
    separates mark := by
  rcases h with rfl | rfl <;> rfl

namespace IsWord

variable {cs ds s r : List Char}

/-- A word and what follows it can be told apart. -/
theorem append_inj (hc : IsWord cs) (hd : IsWord ds) (hs : Ends s) (hr : Ends r)
    (h : cs ++ s = ds ++ r) : cs = ds ∧ s = r := by
  -- Both words are all that stands before the first character that separates.
  have hstop : ∀ {t : List Char}, Ends t → t.head?.all (!!separates ·) := by
    simp [Ends]
  have hcs := takeWhile_append_of_stop (List.all_eq_true.1 hc.2) (hstop hs)
  have hds := takeWhile_append_of_stop (List.all_eq_true.1 hd.2) (hstop hr)
  rw [h] at hcs
  exact ⟨hcs.1.symm.trans hds.1, hcs.2.symm.trans hds.2⟩

/-- No word begins with a character that separates. -/
theorem append_ne_cons (h : IsWord cs) {c : Char} (hc : separates c) : cs ++ s ≠ c :: r := by
  obtain ⟨hne, hall⟩ := h
  rcases cs with _ | ⟨d, cs⟩
  · exact absurd rfl hne
  · intro heq
    obtain ⟨rfl, -⟩ := List.cons.inj heq
    simp [hc] at hall

theorem newLine_notMem (h : IsWord cs) : '\n' ∉ cs :=
  fun hmem => absurd (List.all_eq_true.1 h.2 _ hmem) (by decide)

end IsWord

/-! ### Reading back -/

/-- The words in a nested list are words indeed, and the marks of its texts are
quotation marks. -/
inductive Proper : NestedList → Prop where
  | bare {word : List Char} (hword : IsWord word) : Proper (bare word)
  | quoted {mark : Char} {text : List Char} (hmark : Text.IsQuotationMark mark) :
      Proper (quoted mark text)
  | form {name : List Char} {parts : List NestedList} (hname : IsWord name)
      (hparts : ∀ x ∈ parts, Proper x) : Proper (form name parts)

/-- The name of a list ends where its parts begin, or the list ends. -/
theorem ends_writeAll (xs : List NestedList) (s : List Char) : Ends (writeAll xs (')' :: s)) := by
  cases xs <;> rfl

/-- The parts of a list can be told apart if each of them can. -/
theorem writeAll_inj {xs ys : List NestedList}
    (h : ∀ x ∈ xs, ∀ y ∈ ys, ∀ {s r}, Ends s → Ends r → x.write s = y.write r → x = y ∧ s = r)
    {s r : List Char} (heq : writeAll xs (')' :: s) = writeAll ys (')' :: r)) :
    xs = ys ∧ s = r := by
  induction xs generalizing ys with
  | nil =>
    cases ys with
    | nil => exact ⟨rfl, (List.cons.inj heq).2⟩
    | cons y ys => exact absurd (List.cons.inj heq).1 (by decide)
  | cons x xs ih =>
    cases ys with
    | nil => exact absurd (List.cons.inj heq).1 (by decide)
    | cons y ys =>
      obtain ⟨rfl, hrest⟩ := h x List.mem_cons_self y List.mem_cons_self (ends_writeAll xs s)
        (ends_writeAll ys r) (List.cons.inj heq).2
      obtain ⟨rfl, htail⟩ := ih (fun u hu v hv =>
        h u (List.mem_cons_of_mem _ hu) v (List.mem_cons_of_mem _ hv)) hrest
      exact ⟨rfl, htail⟩

namespace Proper

variable {x y : NestedList} {s r : List Char}

/-- A nested list and what follows it can be told from the text. -/
theorem write_inj (hx : x.Proper) (hy : y.Proper) (hs : Ends s) (hr : Ends r)
    (h : x.write s = y.write r) : x = y ∧ s = r := by
  -- The first character tells words, quoted texts and lists from each other.
  induction x generalizing y s r with
  | bare cs =>
    obtain ⟨hc⟩ := hx
    cases hy with
    | bare hd =>
      obtain ⟨rfl, htail⟩ := hc.append_inj hd hs hr h
      exact ⟨rfl, htail⟩
    | quoted hmark =>
      rw [write, write, Text.plainQuote_append] at h
      exact absurd h (hc.append_ne_cons (separates_of_isQuotationMark hmark))
    | form => exact absurd h (hc.append_ne_cons rfl)
  | quoted mark cs =>
    obtain _ | ⟨hmark⟩ | _ := hx
    cases hy with
    | bare hd =>
      rw [write, write, Text.plainQuote_append] at h
      exact absurd h.symm (hd.append_ne_cons (separates_of_isQuotationMark hmark))
    | quoted hmark' =>
      have hhead := h
      rw [write, write, Text.plainQuote_append, Text.plainQuote_append] at hhead
      obtain rfl := (List.cons.inj hhead).1
      obtain ⟨rfl, htail⟩ := Text.plainQuote_append_inj hmark h
      exact ⟨rfl, htail⟩
    | form =>
      rw [write, write, Text.plainQuote_append] at h
      obtain ⟨rfl, -⟩ := List.cons.inj h
      exact absurd hmark (by unfold Text.IsQuotationMark; decide)
  | form name xs ih =>
    obtain _ | _ | ⟨hname, hxs⟩ := hx
    cases hy with
    | bare hd => exact absurd h.symm (hd.append_ne_cons rfl)
    | quoted hmark =>
      rw [write, write, Text.plainQuote_append] at h
      obtain ⟨rfl, -⟩ := List.cons.inj h
      exact absurd hmark (by unfold Text.IsQuotationMark; decide)
    | form hname' hys =>
      obtain ⟨rfl, hparts⟩ := hname.append_inj hname' (ends_writeAll xs s) (ends_writeAll _ r)
        (List.cons.inj h).2
      obtain ⟨rfl, htail⟩ := writeAll_inj (fun u hu v hv _ _ hs hr =>
        ih u hu (hxs u hu) (hys v hv) hs hr) hparts
      exact ⟨rfl, htail⟩

theorem newLine_notMem_writeAll {xs : List NestedList}
    (h : ∀ x ∈ xs, ∀ {s}, '\n' ∉ s → '\n' ∉ x.write s) (hs : '\n' ∉ s) :
    '\n' ∉ writeAll xs s := by
  induction xs with
  | nil => exact hs
  | cons x xs ih =>
    have hrest := ih fun u hu => h u (List.mem_cons_of_mem _ hu)
    exact List.not_mem_cons_of_ne_of_not_mem (by decide) (h x List.mem_cons_self hrest)

/-- A nested list stands on one line. -/
theorem newLine_notMem_write (hx : x.Proper) (hs : '\n' ∉ s) : '\n' ∉ x.write s := by
  induction x generalizing s with
  | bare cs =>
    obtain ⟨hc⟩ := hx
    exact List.not_mem_append hc.newLine_notMem hs
  | quoted mark cs =>
    obtain _ | ⟨hmark⟩ | _ := hx
    exact List.not_mem_append (Text.newLine_notMem_plainQuote hmark cs) hs
  | form name xs ih =>
    obtain _ | _ | ⟨hname, hxs⟩ := hx
    have hparts : '\n' ∉ writeAll xs (')' :: s) :=
      newLine_notMem_writeAll (fun u hu _ hs => ih u hu (hxs u hu) hs)
        (List.not_mem_cons_of_ne_of_not_mem (by decide) hs)
    exact List.not_mem_cons_of_ne_of_not_mem (by decide)
      (List.not_mem_append hname.newLine_notMem hparts)

end Proper

end NestedList

end ScriptSyntax
