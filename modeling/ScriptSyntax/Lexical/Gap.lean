/-
Blank space and comments.

A block comment goes to the first `*/` or to the end of the text, and a line
comment through the end of its line.  A block comment within one line is blank
space; any other comment counts as a line break.

* `gap` is the longest stretch of blank space at the front of a text.
* `gap_cuts` says that nothing is lost.
-/

namespace ScriptSyntax

namespace Gap

/-- The characters that separate tokens and nothing else. -/
def isBlank (c : Char) : Bool :=
  c == ' ' || c == '\t' || c == '\x0b' || c == '\x0c' || c == '\r'

/-- The rest of a block comment whose `/*` has been read, its `*/` included,
and the text after it. -/
def blockComment : List Char → List Char × List Char
  | [] => ([], [])
  | '*' :: '/' :: cs => (['*', '/'], cs)
  | c :: cs => (c :: (blockComment cs).1, (blockComment cs).2)

/-- The rest of a line, its line break included, and the text after it. -/
def line : List Char → List Char × List Char
  | [] => ([], [])
  | c :: cs => if c = '\n' then ([c], cs) else (c :: (line cs).1, (line cs).2)

theorem blockComment_cuts (s : List Char) : (blockComment s).1 ++ (blockComment s).2 = s := by
  fun_induction blockComment s <;> simp_all

theorem line_cuts (s : List Char) : (line s).1 ++ (line s).2 = s := by
  fun_induction line s <;> simp_all

theorem length_blockComment_le (s : List Char) : (blockComment s).2.length ≤ s.length := by
  have h := congrArg List.length (blockComment_cuts s)
  simp only [List.length_append] at h
  omega

/-- The blank space at the front of a text, and the text after it. -/
def gap : List Char → List Char × List Char
  | [] => ([], [])
  | '/' :: '*' :: cs =>
    let b := blockComment cs
    if '\n' ∈ b.1 then ([], '/' :: '*' :: cs)
    else ('/' :: '*' :: (b.1 ++ (gap b.2).1), (gap b.2).2)
  | c :: cs => if isBlank c then (c :: (gap cs).1, (gap cs).2) else ([], c :: cs)
  termination_by s => s.length
  decreasing_by
    · have := length_blockComment_le cs
      simp only [List.length_cons]
      omega
    · simp

theorem gap_cuts (s : List Char) : (gap s).1 ++ (gap s).2 = s := by
  fun_induction gap s with
  | case1 => rfl
  | case2 => rfl
  | case3 cs b _ ih =>
    have hb : b.1 ++ b.2 = cs := blockComment_cuts cs
    rw [List.cons_append, List.cons_append, List.append_assoc, ih, hb]
  | case4 c cs _ _ ih => rw [List.cons_append, ih]
  | case5 => rfl

theorem length_gap_le (s : List Char) : (gap s).2.length ≤ s.length := by
  have h := congrArg List.length (gap_cuts s)
  simp only [List.length_append] at h
  omega

end Gap

end ScriptSyntax
