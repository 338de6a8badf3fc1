/-
The table of a session.

Whatever is asked of a session, and however often its table is handed on to another, the
table is made by what has been put into it and by nothing else:

* `Session.Step` is what can be asked of a session, `Session.after` where it leads, and
  `Session.answers` what comes of it;
* `Session.Obeys` says what a step does to the table;
* `Session.find?_after` — under every name there is the last program put there, or else
  the one that was there before;
* `imports_after` — this for runs of all steps, none of which reads what is in the table.

Design notes: what is kept under a name is read off the steps alone, by going through the
programs that can be kept from the last to the first.
-/
import ScriptSyntax.Proofs.Cursor.Walk
import ScriptSyntax.Proofs.Parser.Logging

namespace ScriptSyntax

namespace Session

/-! ### Steps -/

/-- What can be asked of a session, or of one that takes over its table. -/
inductive Step where
  | request (q : Request)
  /-- A new session over some tokens takes over the table. -/
  | handOver (ts : List Token)

/-- What comes of a step. -/
inductive Answer where
  | root (t : Tree)
  /-- Whether the program is kept. -/
  | stored (kept : Bool)
  | nothing

/-- The session behind a step. -/
def step (s : Session) : Step → Session
  | .request q => s.serve q
  | .handOver ts => withImports ts s.imports

/-- What a step gives. -/
def answer (s : Session) : Step → Answer
  | .request .parse => .root s.parse.1.root
  | .request (.register name root) => .stored (s.register name root).1
  | .request (.reuse _) | .request (.withOptions _) | .handOver _ => .nothing

/-- The session behind some steps. -/
def after (s : Session) (qs : List Step) : Session :=
  qs.foldl step s

/-- What some steps give, one after the other. -/
def answers (s : Session) : List Step → List Answer
  | [] => []
  | q :: qs => s.answer q :: (s.step q).answers qs

variable {s s' : Session}

theorem after_append (s : Session) (ps qs : List Step) :
    s.after (ps ++ qs) = (s.after ps).after qs :=
  List.foldl_append

/-! ### What is put into the table -/

/-- What a step puts into the table: a program, and its name. -/
def Step.kept? : Step → Option (String × Tree)
  | .request (.register name root) => if root.isBlock then some (name, root) else none
  | _ => none

/-- What some steps put into the table, the last of it first. -/
def keptBy (qs : List Step) : List (String × Tree) :=
  (qs.filterMap Step.kept?).reverse

theorem keptBy_cons (q : Step) (qs : List Step) :
    keptBy (q :: qs) = keptBy qs ++ q.kept?.toList := by
  unfold keptBy
  rw [List.filterMap_cons]
  cases q.kept? with
  | none => exact (List.append_nil _).symm
  | some e => exact List.reverse_cons

/-- A program is put into the table, and with any other tree nothing is done. -/
theorem serve_register (s : Session) (name : String) (root : Tree) :
    s.serve (.register name root) =
      if root.isBlock then { s with imports := s.imports.insert name root } else s := by
  cases root <;> rfl

/-- A step changes the table by what it puts there. -/
theorem imports_step (s : Session) (q : Step) :
    (s.step q).imports = q.kept?.elim s.imports fun e => s.imports.insert e.1 e.2 := by
  rcases q with (_ | ts | o | ⟨name, root⟩) | ts
  case request.register =>
    show (s.serve (.register name root)).imports =
      (if root.isBlock then some (name, root) else none : Option (String × Tree)).elim _ _
    rw [serve_register]
    split <;> rfl
  all_goals rfl

/-- What is found under a name behind a step. -/
theorem find?_step (s : Session) (q : Step) (name : String) :
    (s.step q).imports.find? name =
      (q.kept?.toList.lookup name).or (s.imports.find? name) := by
  rw [imports_step]
  cases q.kept? with
  | none => rfl
  | some e =>
    show (s.imports.insert e.1 e.2).find? name = (List.lookup name [(e.1, e.2)]).or _
    rw [Imports.find?_insert, Imports.lookup_cons]
    split <;> rfl

/-- **The last write wins.**  Under every name there is the last program that the steps
have put there, or else what was there before. -/
theorem find?_after (s : Session) (qs : List Step) (name : String) :
    (s.after qs).imports.find? name =
      ((keptBy qs).lookup name).or (s.imports.find? name) := by
  induction qs generalizing s with
  | nil => rfl
  | cons q qs ih =>
    calc ((s.step q).after qs).imports.find? name
        = ((keptBy qs).lookup name).or ((s.step q).imports.find? name) := ih (s.step q)
      _ = ((keptBy qs).lookup name).or
            ((q.kept?.toList.lookup name).or (s.imports.find? name)) := by
          rw [find?_step]
      _ = ((keptBy (q :: qs)).lookup name).or (s.imports.find? name) := by
          rw [keptBy_cons, List.lookup_append, Option.or_assoc]

example : let nothing : Tree := .compound .nowhere []
    let one : Tree := .compound .nowhere [.literal ⟨1, 1⟩ (.integer "1")]
    let s := (ofTokens []).after [.request (.register "m" nothing), .request (.register "m" one),
      .request (.register "m" (.breakLoop .start)), .handOver []]
    s.imports.find? "m" = some one := by
  decide

/-! ### What a step does -/

/-- What a step may do to a session, and what it has to give. -/
def Obeys (before : Session) : Step → Answer → Session → Prop
  | .request (.register name root), a, after =>
    if root.isBlock then
      a = .stored true ∧ after.imports.find? name = some root ∧
        (∀ other, other ≠ name → after.imports.find? other = before.imports.find? other) ∧
        after.input = before.input ∧ after.options = before.options
    else a = .stored false ∧ after = before
  | .handOver ts, _, after => after = withImports ts before.imports
  | _, _, after => after.imports = before.imports

theorem obeys_step (s : Session) (q : Step) : s.Obeys q (s.answer q) (s.step q) := by
  rcases q with (_ | ts | o | ⟨name, root⟩) | ts
  case request.register =>
    show if root.isBlock then _ else _
    have hanswer : s.answer (.request (.register name root)) = .stored root.isBlock :=
      congrArg Answer.stored (s.fst_register name root)
    have hstep : s.step (.request (.register name root)) = _ := serve_register s name root
    split
    · next hblock =>
      rw [hanswer, hstep, hblock]
      refine ⟨rfl, ?_, fun other hother => ?_, rfl, rfl⟩
      · exact (Imports.find?_insert _ _ _ _).trans (if_pos rfl)
      · exact (Imports.find?_insert _ _ _ _).trans (if_neg hother)
    · next hblock =>
      rw [hanswer, hstep, if_neg hblock, Bool.eq_false_iff.2 hblock]
      exact ⟨rfl, rfl⟩
  all_goals rfl

/-! ### What is in the table plays no part -/

/-- Sessions that differ in their tables only. -/
def SameWork (s s' : Session) : Prop :=
  s.input = s'.input ∧ s.options = s'.options

theorem SameWork.answer_eq (h : s.SameWork s') (q : Step) : s.answer q = s'.answer q := by
  obtain ⟨hinput, hoptions⟩ := h
  rcases q with (_ | ts | o | ⟨name, root⟩) | ts
  case request.parse =>
    show Answer.root (ScriptSyntax.parse s.options s.input).root =
      .root (ScriptSyntax.parse s'.options s'.input).root
    rw [hinput, hoptions]
  case request.register =>
    show Answer.stored _ = .stored _
    rw [fst_register, fst_register]
  all_goals rfl

theorem SameWork.step (h : s.SameWork s') (q : Step) : (s.step q).SameWork (s'.step q) := by
  obtain ⟨hinput, hoptions⟩ := h
  rcases q with (_ | ts | o | ⟨name, root⟩) | ts
  case request.parse =>
    refine ⟨?_, hoptions⟩
    show (ScriptSyntax.parse s.options s.input).rest = (ScriptSyntax.parse s'.options s'.input).rest
    rw [hinput, hoptions]
  case request.reuse => exact ⟨rfl, hoptions⟩
  case request.withOptions => exact ⟨hinput, rfl⟩
  case request.register =>
    show SameWork (s.serve _) (s'.serve _)
    rw [serve_register, serve_register]
    split
    · exact ⟨hinput, hoptions⟩
    · exact ⟨hinput, hoptions⟩
  case handOver => exact ⟨rfl, rfl⟩

theorem SameWork.answers_eq (h : s.SameWork s') (qs : List Step) :
    s.answers qs = s'.answers qs := by
  induction qs generalizing s s' with
  | nil => rfl
  | cons q qs ih => rw [answers, answers, h.answer_eq q, ih (h.step q)]

end Session

/-! ### Runs -/

/-- **The table is what has been put into it.**  Behind any steps of a session, table
handed on or not, there is under every name the last program that was put there, or else
the one of the table at the beginning.  Whatever is asked next, to put there what is no
program gives `false` and changes nothing, a program gives `true` and changes what is under
its own name, and nothing else changes the table.  What the steps give is the same with any
other table at the beginning. -/
theorem imports_after (s : Session) (qs : List Session.Step) :
    (∀ name, (s.after qs).imports.find? name =
      ((Session.keptBy qs).lookup name).or (s.imports.find? name)) ∧
    (∀ q, (s.after qs).Obeys q ((s.after qs).answer q) (s.after (qs ++ [q]))) ∧
    ∀ table, ({ s with imports := table } : Session).answers qs = s.answers qs := by
  refine ⟨s.find?_after qs, fun q => ?_, fun table => ?_⟩
  · rw [Session.after_append]
    exact (s.after qs).obeys_step q
  · have hsame : ({ s with imports := table } : Session).SameWork s := ⟨rfl, rfl⟩
    exact hsame.answers_eq qs

end ScriptSyntax
