import Mathlib.Data.List.DropRight
import Lox.Source
import Lox.Proofs.Parse.Chronicle

/-!
# What a report holds

Whatever a report is asked to do, it takes over the diagnostics that the same command gives an empty
report, and the answer is the one that an empty report gives (`Report.execute_eq`).  So after any
row of commands it holds what the commands since the last reset have given, in their order
(`Report.accumulates`).  Of a source these are the lexical errors and then the syntax errors.
-/

namespace Lox

/-- The causes of the errors that a scan finds. -/
def Cause.isLexical : Cause → Bool
  | unexpectedCharacter _ | unterminatedString => true
  | expectedExpression | expectedToken .. | invalidAssignmentTarget | tooDeeplyNested
  | reported _ => false

theorem isLexical_of_mem_scan {source : String} {d : Diagnostic}
    (h : d ∈ (scan source).diagnostics) : d.cause.isLexical = true := by
  obtain ⟨⟨p, shape, text⟩, -, hd⟩ := List.mem_filterMap.1 h
  cases shape with
  | stray =>
    cases text with
    | nil => cases hd
    | cons c cs => cases hd; rfl
  | openString => cases hd; rfl
  | _ => cases hd

theorem TokenStream.isSyntactic_of_mem_parse {s : TokenStream} {d : Diagnostic}
    (h : d ∈ s.parse.diagnostics) : d.cause.isSyntactic = true := by
  obtain ⟨f, hf, rfl⟩ := List.mem_map.1 h
  exact (s.faults_parse hf).1

namespace Report

theorem absorb_append (r : Report) (ds ds' : List Diagnostic) :
    r.absorb (ds ++ ds') = (r.absorb ds).absorb ds' :=
  List.foldl_append

/-! ### Steps -/

/-- The report after a row of commands. -/
def after (r : Report) (commands : List Command) : Report :=
  commands.foldl (fun r c => (r.execute c).1) r

namespace Command

/-- The diagnostics that the command gives an empty report. -/
def given (c : Command) : List Diagnostic :=
  (empty.execute c).1.diagnostics

def isReset : Command → Bool
  | reset => true
  | _ => false

end Command

/-- The commands behind the last reset. -/
def sinceReset (commands : List Command) : List Command :=
  commands.rtakeWhile (!·.isReset)

theorem readProgram_eq (r : Report) (source : String) :
    r.readProgram source =
      let s := Lox.scan source
      (s.tokens.parse.program, r.absorb (s.diagnostics ++ s.tokens.parse.diagnostics)) := by
  simp only [absorb_append]
  rfl

theorem readExpression_eq (r : Report) (source : String) :
    r.readExpression source =
      let s := Lox.scan source
      (s.tokens.parseExpression.1, r.absorb (s.diagnostics ++ s.tokens.parseExpression.2)) := by
  simp only [absorb_append]
  rfl

/-- What a command adds to a report and what it answers depend on the command alone. -/
private theorem exists_absorb {c : Command} (hc : c.isReset = false) :
    ∃ ds answer, ∀ r : Report, r.execute c = (r.absorb ds, answer) := by
  cases c with
  | reset => cases hc
  | remark line place message => exact ⟨[_], .done, fun _ => rfl⟩
  | push d => exact ⟨[d], .done, fun _ => rfl⟩
  | scan source => exact ⟨_, _, fun _ => rfl⟩
  | parse tokens => exact ⟨_, _, fun _ => rfl⟩
  | parseExpression tokens => exact ⟨_, _, fun _ => rfl⟩
  | readProgram source => exact ⟨_, _, fun r => by rw [execute, readProgram_eq]⟩
  | readExpression source => exact ⟨_, _, fun r => by rw [execute, readExpression_eq]⟩

/-- A command does to every report what it does to an empty one, unless it is a reset. -/
theorem execute_eq (r : Report) (c : Command) :
    r.execute c = (if c.isReset then empty else r.absorb c.given, (empty.execute c).2) := by
  cases hc : c.isReset with
  | true =>
    cases c with
    | reset => rfl
    | _ => cases hc
  | false =>
    obtain ⟨ds, answer, h⟩ := exists_absorb hc
    have hgiven : c.given = ds := by
      rw [Command.given, h, absorb_diagnostics]
      rfl
    rw [h r, h empty, hgiven]
    rfl

/-! ### Rows of commands -/

theorem after_concat (r : Report) (commands : List Command) (c : Command) :
    r.after (commands ++ [c]) = ((r.after commands).execute c).1 := by
  simp [after]

theorem sinceReset_concat (commands : List Command) (c : Command) :
    sinceReset (commands ++ [c]) = if c.isReset then [] else sinceReset commands ++ [c] := by
  cases h : c.isReset <;> simp [sinceReset, h]

/-- The flag is raised when there is something to report, and not before. -/
def InStep (r : Report) : Prop :=
  r.flagged = !r.diagnostics.isEmpty

theorem InStep.absorb {r : Report} (h : r.InStep) (ds : List Diagnostic) : (r.absorb ds).InStep := by
  unfold InStep at *
  rw [absorb_flagged, absorb_diagnostics, h]
  cases r.diagnostics <;> rfl

theorem InStep.execute {r : Report} (h : r.InStep) (c : Command) : (r.execute c).1.InStep := by
  rw [execute_eq]
  cases c.isReset with
  | true => rfl
  | false => exact h.absorb c.given

theorem inStep_after (commands : List Command) : (empty.after commands).InStep := by
  induction commands using List.reverseRecOn with
  | nil => rfl
  | append_singleton commands c ih =>
    rw [after_concat]
    exact ih.execute c

theorem diagnostics_after (commands : List Command) :
    (empty.after commands).diagnostics = (sinceReset commands).flatMap Command.given := by
  induction commands using List.reverseRecOn with
  | nil => rfl
  | append_singleton commands c ih =>
    rw [after_concat, execute_eq, sinceReset_concat]
    cases c.isReset with
    | true => rfl
    | false =>
      show ((empty.after commands).absorb c.given).diagnostics = (_ ++ [c]).flatMap Command.given
      rw [absorb_diagnostics, ih, List.flatMap_append, List.flatMap_singleton]

/-- After any row of commands a report holds the diagnostics that the commands since the last reset
give empty reports, in this order, and the flag is raised exactly if there are any.  The next answer
is that of an empty report, whatever it holds; and of a source it takes over the lexical errors
first, and then the errors in the syntax of the tokens that are scanned. -/
theorem accumulates (commands : List Command) :
    let r := empty.after commands
    r.diagnostics = (sinceReset commands).flatMap Command.given ∧
    (r.flagged = true ↔ r.diagnostics ≠ []) ∧
    (∀ c, (r.execute c).2 = (empty.execute c).2) ∧
    ∀ source,
      let s := Lox.scan source
      (r.scan source).1 = s.tokens ∧
      r.readProgram source =
        (s.tokens.parse.program, r.absorb (s.diagnostics ++ s.tokens.parse.diagnostics)) ∧
      Command.given (.readProgram source) = s.diagnostics ++ s.tokens.parse.diagnostics ∧
      (∀ d ∈ s.diagnostics, d.cause.isLexical = true) ∧
      ∀ d ∈ s.tokens.parse.diagnostics, d.cause.isSyntactic = true := by
  intro r
  refine ⟨diagnostics_after commands, ?_, fun c => by rw [execute_eq], fun source => ?_⟩
  · have hflag : r.flagged = !r.diagnostics.isEmpty := inStep_after commands
    rw [hflag]
    simp
  · refine ⟨rfl, r.readProgram_eq source, ?_, fun d hd => isLexical_of_mem_scan hd,
      fun d hd => TokenStream.isSyntactic_of_mem_parse hd⟩
    rw [Command.given, execute, readProgram_eq, absorb_diagnostics]
    rfl

end Report

end Lox
