/-
Commands for many files.

A command goes through its files one by one, and what it prints for one of them has
nothing to do with the others, be they programs, broken or not there at all.  This holds
also of the command that hands a table of programs on from file to file.

* `filesReport` is the total of what is printed for each file, and
  `forFiles_eq_filesReport` says when this is what a command prints;
* `CheckedAs` relates the tree of a file that is checked to what is said of it, and
  `checkedAs_checkFile` — this does not depend on the table;
* `FileByFile` is what holds of a command that goes through its files one by one;
* `run_fileByFile` — this holds of all commands for files, and two of them fail for the
  same files;
* `not_forall_isLine_stderr` — what is said of a file need not be one line.
-/
import ScriptSyntax.CommandLine.Report
import ScriptSyntax.Proofs.Parser.Building

namespace ScriptSyntax

/-! ### Reports -/

namespace Report

theorem append_assoc (a b c : Report) : a ++ b ++ c = a ++ (b ++ c) :=
  Report.ext String.append_assoc String.append_assoc (Nat.max_assoc _ _ _)

theorem empty_append (a : Report) : {} ++ a = a :=
  Report.ext String.empty_append String.empty_append (Nat.zero_max _)

theorem append_empty (a : Report) : a ++ {} = a :=
  Report.ext String.append_empty String.append_empty (Nat.max_zero _)

/-- Reports after one another. -/
def total (rs : List Report) : Report :=
  rs.foldr (· ++ ·) {}

theorem total_append (rs rs' : List Report) : total (rs ++ rs') = total rs ++ total rs' := by
  induction rs with
  | nil => exact (empty_append _).symm
  | cons r rs ih =>
    show r ++ total (rs ++ rs') = r ++ total rs ++ total rs'
    rw [ih, append_assoc]

theorem total_singleton (r : Report) : total [r] = r :=
  append_empty r

end Report

/-! ### One file -/

/-- What is printed for a path: why there is nothing to be read, or the report of what has
been read. -/
def fileReport (read : String → Except ReadError String) (report : String → String → Report)
    (path : String) : Report :=
  match read path with
  | .error e => .failure (path ++ ": " ++ e.message)
  | .ok text => report path text

/-- What is printed for some paths: what is printed for each. -/
def filesReport (read : String → Except ReadError String) (report : String → String → Report)
    (paths : List String) : Report :=
  .total (paths.map (fileReport read report))

/-- If the report of a file does not depend on what is handed on, then what is printed for
files is what is printed for each. -/
theorem forFiles_eq_filesReport {σ : Type} {read : String → Except ReadError String}
    {action : σ → String → String → Report × σ} {report : String → String → Report}
    (h : ∀ state path text, (action state path text).1 = report path text) (state : σ)
    (paths : List String) :
    forFiles read action state paths = filesReport read report paths := by
  induction paths generalizing state with
  | nil => rfl
  | cons path paths ih =>
    show _ = fileReport read report path ++ filesReport read report paths
    rw [forFiles, fileReport]
    cases read path with
    | error e => simp only [ih]
    | ok text => simp only [ih, h]

/-! ### One file that is checked -/

/-- The text is one line: it ends with a line break and has no other. -/
def IsLine (text : String) : Prop :=
  text.toList.getLast? = some '\n' ∧ '\n' ∉ text.toList.dropLast

instance (text : String) : Decidable (IsLine text) :=
  inferInstanceAs (Decidable (_ ∧ _))

theorem isLine_append {text : String} : IsLine (text ++ "\n") ↔ '\n' ∉ text.toList := by
  have htext : (text ++ "\n").toList = text.toList ++ ['\n'] := String.toList_append
  rw [IsLine, htext, List.getLast?_concat, List.dropLast_concat]
  exact and_iff_right rfl

/-- What is said of a path on the standard error. -/
def Report.about (path text : String) (code : Nat) : Report :=
  { stderr := path ++ ": " ++ text ++ "\n", code := code }

/-- What is said of a path is one line, if this holds of the path and of what is said. -/
theorem Report.isLine_about {path text : String} {code : Nat} :
    IsLine (about path text code).stderr ↔ '\n' ∉ path.toList ∧ '\n' ∉ text.toList := by
  have hcolon : '\n' ∉ (": " : String).toList := by decide
  rw [about, isLine_append, String.toList_append, String.toList_append, List.mem_append,
    List.mem_append, not_or, not_or, and_iff_left hcolon]

/-- What is said of a program: that it is one, and how long. -/
def validText (ss : List Tree) : String :=
  "valid (" ++ toString ss.length ++ " statement(s))"

theorem newline_notMem_validText (ss : List Tree) : '\n' ∉ (validText ss).toList := by
  have hfront : '\n' ∉ ("valid (" : String).toList := by decide
  have hback : '\n' ∉ (" statement(s))" : String).toList := by decide
  have hlength : '\n' ∉ (toString ss.length).toList := by
    intro hmem
    have hmem : '\n' ∈ Nat.toDigits 10 ss.length := Nat.toList_repr ▸ hmem
    exact absurd (Nat.isDigit_of_mem_toDigits (by decide) (by decide) hmem) (by decide)
  rw [validText, String.toList_append, String.toList_append, List.mem_append, List.mem_append,
    not_or, not_or]
  exact ⟨⟨hfront, hlength⟩, hback⟩

/-- `CheckedAs path t r`: the report `r` says of the file at `path` that its tree `t` is an
error, and which, or that it is a program.  There is no report of any other tree. -/
inductive CheckedAs (path : String) : Tree → Report → Prop where
  | bad (d : Diagnostic) : CheckedAs path (.bad d) (.about path d.text 1)
  | program (p : Span) (ss : List Tree) :
      CheckedAs path (.compound p ss) (.about path (validText ss) 0)

namespace CheckedAs

variable {path : String} {t : Tree} {r r' : Report}

theorem unique (h : CheckedAs path t r) (h' : CheckedAs path t r') : r = r' := by
  cases h <;> cases h' <;> rfl

theorem code_eq (h : CheckedAs path t r) : r.code = codeOf t := by
  cases h <;> rfl

/-- A report is one line, but for line breaks in the path and in an error. -/
theorem isLine_iff (h : CheckedAs path t r) :
    IsLine r.stderr ↔ '\n' ∉ path.toList ∧ ∀ d, t = .bad d → '\n' ∉ d.text.toList := by
  cases h with
  | bad d =>
    rw [Report.isLine_about]
    exact and_congr_right' ⟨fun hd d' heq => Tree.bad.inj heq ▸ hd, fun hd => hd d rfl⟩
  | program p ss =>
    rw [Report.isLine_about]
    exact and_congr_right' ⟨fun _ d heq => Tree.noConfusion heq,
      fun _ => newline_notMem_validText ss⟩

end CheckedAs

/-- Every program can be kept, so the table in which it is kept does not matter. -/
theorem checkedAs_checkFile (o : ParseOptions) (imports : Imports) (path text : String) :
    CheckedAs path (treeOf o text) (checkFile o imports path text).1 := by
  have hroot : ((Session.withImports (tokenize text) imports).withOptions o).parse.1.root =
      treeOf o text := rfl
  rcases parseTokens_bad_or_reads o (tokenize text) with ⟨d, hd⟩ | ⟨ss, r, hss, -⟩
  · rw [treeOf, hd] at hroot ⊢
    simp only [checkFile, hroot]
    exact .bad d
  -- A program is kept whatever the table, so this is never what makes the check fail.
  · rw [treeOf, hss] at hroot ⊢
    simp only [checkFile, hroot]
    have hfront : ": valid (" = ": " ++ "valid (" := by decide
    have hback : " statement(s))\n" = " statement(s))" ++ "\n" := by decide
    have htext : path ++ ": valid (" ++ toString ss.length ++ " statement(s))\n" =
        path ++ ": " ++ validText ss ++ "\n" := by
      rw [validText, hfront, hback]
      simp only [String.append_assoc]
    convert CheckedAs.program _ ss using 1
    exact Report.ext rfl htext rfl

/-! ### Many files -/

/-- What holds of a command that goes through its files one by one, where `prints` relates
the path and the text of each that can be read to what is printed for it: what it does for
two lists of files is what it does for the first and then for the second. -/
structure FileByFile (read : String → Except ReadError String)
    (prints : String → String → Report → Prop) (run : List String → Report) : Prop where
  stdout : ∀ p q, (run (p ++ q)).stdout = (run p).stdout ++ (run q).stdout
  stderr : ∀ p q, (run (p ++ q)).stderr = (run p).stderr ++ (run q).stderr
  code : ∀ p q, (run (p ++ q)).code = 0 ↔ (run p).code = 0 ∧ (run q).code = 0
  code_le : ∀ p, (run p).code ≤ 1
  readable : ∀ path text, read path = .ok text → prints path text (run [path])
  /-- Of a file that cannot be read it is said why. -/
  unreadable : ∀ path e, read path = .error e → run [path] = .about path e.message 1
  isLine_unreadable : ∀ path e, read path = .error e →
    (IsLine (run [path]).stderr ↔ '\n' ∉ path.toList ∧ '\n' ∉ e.message.toList)

variable {read : String → Except ReadError String} {report report' : String → String → Report}

theorem filesReport_append (p q : List String) :
    filesReport read report (p ++ q) = filesReport read report p ++ filesReport read report q := by
  rw [filesReport, List.map_append, Report.total_append]
  rfl

theorem filesReport_singleton (path : String) :
    filesReport read report [path] = fileReport read report path :=
  Report.total_singleton _

theorem filesReport_of_error {path : String} {e : ReadError} (h : read path = .error e) :
    filesReport read report [path] = .about path e.message 1 := by
  rw [filesReport_singleton, fileReport, h]
  rfl

theorem code_fileReport_le (h : ∀ path text, (report path text).code ≤ 1) (path : String) :
    (fileReport read report path).code ≤ 1 := by
  rw [fileReport]
  cases read path with
  | error e => exact Nat.le_refl 1
  | ok text => exact h path text

theorem fileByFile_filesReport {prints : String → String → Report → Prop}
    (hcode : ∀ path text, (report path text).code ≤ 1)
    (hprints : ∀ path text, prints path text (report path text)) :
    FileByFile read prints (filesReport read report) where
  stdout p q := by rw [filesReport_append, Report.stdout_append]
  stderr p q := by rw [filesReport_append, Report.stderr_append]
  code p q := by
    rw [filesReport_append, Report.code_append]
    omega
  code_le p := by
    induction p with
    | nil => exact Nat.zero_le 1
    | cons path p ih => exact Nat.max_le.2 ⟨code_fileReport_le hcode path, ih⟩
  readable path text htext := by
    rw [filesReport_singleton, fileReport, htext]
    exact hprints path text
  unreadable path e he := filesReport_of_error he
  isLine_unreadable path e he := by rw [filesReport_of_error he, Report.isLine_about]

/-- Commands that fail alike for each file fail alike for all. -/
theorem code_filesReport_congr (h : ∀ path text, (report path text).code = (report' path text).code)
    (paths : List String) :
    (filesReport read report paths).code = (filesReport read report' paths).code := by
  have hfile (path : String) :
      (fileReport read report path).code = (fileReport read report' path).code := by
    rw [fileReport, fileReport]
    cases read path with
    | error e => rfl
    | ok text => exact h path text
  induction paths with
  | nil => rfl
  | cons path paths ih => exact congrArg₂ max (hfile path) ih

theorem codeOf_le (t : Tree) : codeOf t ≤ 1 := by
  rw [codeOf]
  split <;> decide

end ScriptSyntax
