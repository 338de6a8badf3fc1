/-
Programs line by line.

One lexer and one parser read all lines of an input, and nothing of what they have read
from one line shows on the next: for every line it is printed what a new lexer and a new
parser would print, up to the first line that is no text.

* `Repl.Cut` says how bytes are cut into lines, and `Repl.cut_iff` that they are;
* `Repl.Reader` is a lexer and a parser at work on one line after another, which takes
  the place of the session of `Repl.run`;
* `Repl.Answered` is the transcript in which every line is read anew;
* `repl_transcript` — it is the transcript of the reader, whatever is on the lines.

Design notes: a reader keeps its place in the last line and the levels of nesting that
its parser has counted there.  It is shown to stay where a session is, of which it is
known what it reads, and a session is shown to read each line as a new one would.
-/
import ScriptSyntax.CommandLine.Report
import ScriptSyntax.Proofs.Cursor.Walker
import ScriptSyntax.Proofs.Text.Decoding

namespace ScriptSyntax

namespace Repl

/-! ### Lines -/

/-- How bytes are cut into lines: each with its line break, and the last one without if
none is there. -/
inductive Cut : List UInt8 → List (List UInt8) → Prop where
  | nothing : Cut [] []
  | unended {body : List UInt8} (hbody : 0x0A ∉ body) (hne : body ≠ []) : Cut body [body]
  | ended {body rest : List UInt8} {ls : List (List UInt8)} (hbody : 0x0A ∉ body)
      (hrest : Cut rest ls) : Cut (body ++ 0x0A :: rest) ((body ++ [0x0A]) :: ls)

theorem cut_lines (bs : List UInt8) : Cut bs (lines bs) := by
  induction bs with
  | nil => exact .nothing
  | cons b bs ih =>
    rw [lines]
    by_cases hb : b = 0x0A
    · rw [if_pos hb, hb]
      show Cut ([] ++ 0x0A :: bs) (([] ++ [0x0A]) :: lines bs)
      exact .ended List.not_mem_nil ih
    · rw [if_neg hb]
      generalize lines bs = ls at ih
      have hcons : ∀ {body : List UInt8}, 0x0A ∉ body → 0x0A ∉ b :: body :=
        fun hbody => by rw [List.mem_cons, not_or]; exact ⟨Ne.symm hb, hbody⟩
      cases ih with
      | nothing => exact .unended (hcons List.not_mem_nil) (List.cons_ne_nil b [])
      | unended hbody hne => exact .unended (hcons hbody) (List.cons_ne_nil b _)
      | ended hbody hrest => exact .ended (hcons hbody) hrest

theorem lines_append_of_notMem {body : List UInt8} (hbody : 0x0A ∉ body) (bs : List UInt8) :
    lines (body ++ 0x0A :: bs) = (body ++ [0x0A]) :: lines bs := by
  induction body with
  | nil => rfl
  | cons b body ih =>
    rw [List.mem_cons, not_or] at hbody
    obtain ⟨hb, hbody⟩ := hbody
    rw [List.cons_append, lines, if_neg (Ne.symm hb), ih hbody]
    rfl

theorem lines_of_notMem {body : List UInt8} (hbody : 0x0A ∉ body) (hne : body ≠ []) :
    lines body = [body] := by
  induction body with
  | nil => exact absurd rfl hne
  | cons b body ih =>
    rw [List.mem_cons, not_or] at hbody
    obtain ⟨hb, hbody⟩ := hbody
    rw [lines, if_neg (Ne.symm hb)]
    cases body with
    | nil => rfl
    | cons c body => rw [ih hbody (List.cons_ne_nil c body)]

/-- Bytes are cut into lines in one way. -/
theorem cut_iff {bs : List UInt8} {ls : List (List UInt8)} : Cut bs ls ↔ lines bs = ls := by
  refine ⟨fun h => ?_, fun h => h ▸ cut_lines bs⟩
  induction h with
  | nothing => rfl
  | unended hbody hne => exact lines_of_notMem hbody hne
  | ended hbody _ ih => rw [lines_append_of_notMem hbody, ih]

example : lines [0x34, 0x0A, 0x0A, 0x35] = [[0x34, 0x0A], [0x0A], [0x35]] := by
  decide

end Repl

/-! ### A lexer and a parser for all lines -/

/-- Back to the beginning, and of another text. -/
def Lexer.reuse (l : Lexer) (text : String) : Lexer :=
  { l with position := .start, unread := text.toList }

namespace Repl

/-- What is printed for a tree: its lines, or the error that it is. -/
def answer : Tree → Report
  | .bad d => { stderr := d.text ++ "\n" }
  | root => { stdout := root.dumpLines }

/-- A lexer and a parser at work on one line after another. -/
structure Reader where
  lexer : Lexer
  walker : Walker

namespace Reader

/-- The reader before the first line. -/
def start (o : ParseOptions) : Reader :=
  ⟨.ofText "", { Walker.withImports [] .empty with options := o }⟩

/-- Reads the program on one line. -/
def line (gas : Nat) (r : Reader) (text : String) : Option (Report × Reader) :=
  let (ts, lexer) := (r.lexer.reuse text).drain
  ((r.walker.serve gas (.reuse ts)).bind (Walker.parse gas)).map fun x =>
    (answer x.1, ⟨lexer, x.2⟩)

/-- Reads lines until one is no text. -/
def run (gas : Nat) (r : Reader) : List (List UInt8) → Option Report
  | [] => some { stdout := prompt ++ "\n" }
  | l :: ls =>
    match readText l with
    | .error e => some ({ stdout := prompt } ++ .failure ("stdin: " ++ e.message))
    | .ok text =>
      (r.line gas text).bind fun x =>
        (run gas x.2 ls).map fun rest => { stdout := prompt } ++ (x.1 ++ rest)

end Reader

/-- What a session prints for a line is known from its options, and of the line before
nothing is left. -/
theorem line_eq (s : Session) (text : String) :
    line s text = (answer (treeOf s.options text), (s.reuse (tokenize text)).parse.2) := by
  show (match (s.reuse (tokenize text)).parse.1.root with
    | .bad d => (_, _)
    | root => (_, _)) = (answer (s.reuse (tokenize text)).parse.1.root, _)
  cases (s.reuse (tokenize text)).parse.1.root <;> rfl

variable {r : Reader} {s : Session}

/-- Reading a line comes to an end, with what the session prints, and the reader stays
where the session is. -/
theorem Reader.ends_line (h : r.walker.WorksAs s) (text : String) :
    ∃ r', Ends (fun gas => r.line gas text) ((Repl.line s text).1, r') ∧
      r'.walker.WorksAs (Repl.line s text).2 := by
  obtain ⟨w, hreuse, hw⟩ := h.serve (.reuse (tokenize text))
  obtain ⟨w', c, hparse, hw', -⟩ := hw.parse
  rw [line_eq]
  refine ⟨⟨(r.lexer.reuse text).drain.2, w'⟩, ?_, hw'⟩
  exact (hreuse.bind hparse).map fun x =>
    (answer x.1, (⟨(r.lexer.reuse text).drain.2, x.2⟩ : Reader))

/-- Reading lines comes to an end, with what the session prints. -/
theorem Reader.ends_run (h : r.walker.WorksAs s) (ls : List (List UInt8)) :
    Ends (fun gas => r.run gas ls) (Repl.run s ls) := by
  -- On every line the reader and the session are others, but they stay in the same place.
  induction ls generalizing r s with
  | nil => exact .of_forall fun _ => rfl
  | cons l ls ih =>
    cases htext : readText l with
    | error e =>
      refine .of_forall fun gas => ?_
      rw [Reader.run, Repl.run, htext]
    | ok text =>
      obtain ⟨r', hline, hr'⟩ := Reader.ends_line h text
      simp only [Reader.run, Repl.run, htext]
      exact hline.bind ((ih hr').map fun rest => { stdout := prompt } ++ (_ ++ rest))

/-! ### The transcript -/

/-- What is printed on the standard output for a line: the lines of the tree that a new
lexer and a new parser read, if it is a program. -/
def shown (o : ParseOptions) (text : String) : String :=
  if (treeOf o text).isBad then "" else (treeOf o text).dumpLines

/-- What is printed on the standard error for a line: the error that a new lexer and a new
parser find, if there is one. -/
def complaint (o : ParseOptions) (text : String) : String :=
  match treeOf o text with
  | .bad d => d.text ++ "\n"
  | _ => ""

/-- What is printed for some lines if each is read by a lexer and a parser of its own: for
every line up to the first that is no text, and for this line or the end of the lines. -/
inductive Answered (o : ParseOptions) : List (List UInt8) → Report → Prop where
  | all (texts : List String) : Answered o (texts.map bytesOf)
      { stdout := String.join (texts.map fun text => "> " ++ shown o text) ++ "> \n"
        stderr := String.join (texts.map (complaint o))
        code := 0 }
  | stopped (texts : List String) (l : List UInt8) (ls : List (List UInt8))
      (hbad : ∀ text, bytesOf text ≠ l) : Answered o (texts.map bytesOf ++ l :: ls)
      { stdout := String.join (texts.map fun text => "> " ++ shown o text) ++ "> "
        stderr := String.join (texts.map (complaint o)) ++
          "stdin: stream did not contain valid UTF-8\n"
        code := 1 }

theorem answer_treeOf (o : ParseOptions) (text : String) :
    answer (treeOf o text) = { stdout := shown o text, stderr := complaint o text } := by
  rw [shown, complaint]
  cases treeOf o text <;> rfl

theorem prompt_append (told error : String) (r : Report) :
    ({ stdout := prompt } : Report) ++ (({ stdout := told, stderr := error } : Report) ++ r) =
      ⟨"> " ++ told ++ r.stdout, error ++ r.stderr, r.code⟩ := by
  show Report.mk _ _ _ = _
  simp only [Report.mk.injEq, Report.stdout_append, Report.stderr_append, Report.code_append]
  exact ⟨String.append_assoc.symm, String.empty_append, by omega⟩

/-- One more line in front. -/
theorem Answered.cons {o : ParseOptions} {ls : List (List UInt8)} {told : Report} (text : String)
    (h : Answered o ls told) :
    Answered o (bytesOf text :: ls) ({ stdout := prompt } ++ (answer (treeOf o text) ++ told)) := by
  rw [answer_treeOf, prompt_append]
  cases h with
  | all texts =>
    have hall := Answered.all (o := o) (text :: texts)
    simpa only [List.map_cons, String.join_cons, String.append_assoc] using hall
  | stopped texts l ls hbad =>
    have hstopped := Answered.stopped (o := o) (text :: texts) l ls hbad
    simpa only [List.map_cons, List.cons_append, String.join_cons, String.append_assoc]
      using hstopped

/-- Whatever has been read before, the lines are answered as by a new session each. -/
theorem answered_run (s : Session) (ls : List (List UInt8)) :
    Answered s.options ls (run s ls) := by
  induction ls generalizing s with
  | nil => exact .all []
  | cons l ls ih =>
    rw [run]
    cases htext : readText l with
    | error e =>
      obtain ⟨rfl, hbad⟩ := readText_eq_error htext
      exact .stopped [] l ls hbad
    | ok text =>
      obtain rfl := readText_eq_ok_iff.1 htext
      have hrest : Answered s.options ls (run (s.reuse (tokenize text)).parse.2 ls) :=
        ih (s.reuse (tokenize text)).parse.2
      simp only [line_eq]
      exact hrest.cons text

end Repl

/-- **Every line is read anew.**  The input is cut into its lines; a single lexer and a
single parser that are used for all of them come to an end; and what they print is what a
lexer and a parser of its own would print for each line, in turn and up to the first line
that is no text. -/
theorem repl_transcript (o : ParseOptions) (stdin : List UInt8) :
    (∀ ls, Repl.Cut stdin ls ↔ Repl.lines stdin = ls) ∧
      Ends (fun gas => (Repl.Reader.start o).run gas (Repl.lines stdin)) (repl o stdin) ∧
      Repl.Answered o (Repl.lines stdin) (repl o stdin) := by
  refine ⟨fun _ => Repl.cut_iff, Repl.Reader.ends_run ?_ _, Repl.answered_run (Repl.start o) _⟩
  have h := Walker.worksAs_withImports [] .empty
  exact ⟨h.shows, h.depth, rfl, h.imports⟩

end ScriptSyntax
