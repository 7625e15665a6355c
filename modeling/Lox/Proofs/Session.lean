import Lox.Parse.Forward
import Lox.Session
import Lox.Proofs.Cursor.Stream
import Lox.Proofs.Parse.Run

/-!
# The state of a session

Whatever a session is asked to do, its cursor moves forward in the same stream and not beyond the
first end of input, the open levels are closed again, and the diagnostics are only added to; what it
refuses changes nothing.  This holds of every command (`Session.extends_execute`,
`Session.execute_eq_of_isRefusal`), and so of every row of commands (`Session.extends_after`).
-/

namespace Lox

namespace Parse

/-! ### Nesting -/

theorem within_eq {α : Type} (p : (room : Nat) → Parse α) (levels room : Nat) :
    within p levels room =
      if levels ≤ room then p (room - levels) else refuse .tooDeeplyNested := by
  induction levels generalizing room with
  | zero => simp [within]
  | succ levels ih =>
    cases room with
    | zero => simp [within]
    | succ room => simp [within, ih]

theorem map_within {α β : Type} (p : (room : Nat) → Parse α) (f : α → β) (levels room : Nat) :
    within (fun room => f <$> p room) levels room = f <$> within p levels room := by
  rw [within_eq, within_eq]
  split
  · rfl
  · rfl

end Parse

theorem Production.forward_parse (rules : Rules) (room : Nat) (p : Production) :
    Parse.Forward (p.parse rules room) := by
  cases p with
  | expression p => exact (Parse.forward_expression room p).map _
  | binary p => exact (Parse.forward_binary room p).map _
  | assignment => exact (Parse.forward_expression room .assignment).map _
  | unary => exact (Parse.forward_expression room .unary).map _
  | primary => exact (Parse.forward_expression room .primary).map _
  | grouping => exact (Parse.forward_grouping room).map _
  | statement rule => exact (Parse.forward_statement rules room rule).map _
  | declaration => exact (Parse.forward_declaration rules room).map _
  | program => exact (Parse.forward_program rules room).map _
  | line => exact (Parse.forward_line room).map _

namespace Session

/-- The session after a row of commands. -/
def after (s : Session) (commands : List Command) : Session :=
  commands.foldl (fun s c => (s.execute c).1) s

/-- The answer says that the command could not do what it was asked for: a token is not there, or a
level is missing. -/
def Answer.isRefusal {ε : Type} : Answer ε → Bool
  | flag b => !b
  | expected (.error _) | nested (.error _) => true
  | _ => false

/-! ### Steps -/

/-- The session `t` has gone on from `s`. -/
structure Extends (s t : Session) : Prop where
  cursor_le : s.cursor ≤ t.cursor
  depth_eq : t.depth = s.depth
  diagnostics_prefix : s.diagnostics <+: t.diagnostics

theorem Extends.refl (s : Session) : s.Extends s :=
  ⟨s.cursor.le_refl, rfl, List.prefix_rfl⟩

theorem Extends.trans {s t u : Session} (h : s.Extends t) (k : t.Extends u) : s.Extends u :=
  ⟨Cursor.le_trans h.cursor_le k.cursor_le, k.depth_eq.trans h.depth_eq,
    h.diagnostics_prefix.trans k.diagnostics_prefix⟩

theorem extends_advance (s : Session) : s.Extends s.advance :=
  ⟨s.cursor.le_advance, rfl, List.prefix_rfl⟩

theorem extends_run {α : Type} {p : (room : Nat) → Parse α} (hp : ∀ room, Parse.Forward (p room))
    (s : Session) : s.Extends (s.run p).1 :=
  ⟨hp _ s.cursor, rfl, List.prefix_append _ _⟩

theorem extends_read (s : Session) (p : Production) : s.Extends (s.read p).1 :=
  extends_run (fun room => p.forward_parse s.rules room) s

theorem extends_readNested (s : Session) (levels : Nat) (p : Production) :
    s.Extends (s.readNested levels p).1 :=
  extends_run (fun room =>
    Parse.Forward.within (fun room => (p.forward_parse s.rules room).attempt) levels room) s

/-- Every command goes on from where the session is. -/
theorem extends_execute (s : Session) (c : Command) : s.Extends (s.execute c).1 := by
  cases c with
  | current | previous | check | kinds => exact .refl s
  | advance => exact s.extends_advance
  | accept kinds =>
    cases hk : s.cursor.isAt kinds with
    | false => simpa [execute, hk] using Extends.refl s
    | true => simpa [execute, hk] using s.extends_advance
  | expect kind message => exact extends_run (fun _ => Parse.forward_expect kind message) s
  | report d => exact ⟨s.cursor.le_refl, rfl, List.prefix_append _ _⟩
  | synchronize => exact ⟨s.cursor.le_synchronize, rfl, List.prefix_rfl⟩
  | nested levels p => exact s.extends_readNested levels p
  | register => exact ⟨s.cursor.le_refl, rfl, List.prefix_rfl⟩
  | dispatch table kind =>
    cases hr : s.rules table kind with
    | none => simpa only [execute, hr] using Extends.refl s
    | some rule => simpa only [execute, hr] using s.extends_read (.statement rule)
  | read p => exact s.extends_read p

theorem extends_after (s : Session) (commands : List Command) : s.Extends (s.after commands) := by
  induction commands generalizing s with
  | nil => exact .refl s
  | cons c commands ih => exact (s.extends_execute c).trans (ih _)

/-! ### Refusals -/

/-- A production that ends where it began, and notes nothing, leaves the session as it is. -/
private theorem run_eq_of_quiet {α : Type} {s : Session} {p : (room : Nat) → Parse α}
    {result : Except Fault α}
    (h : p (Parse.maxNesting - s.depth) s.cursor = ⟨result, s.cursor, []⟩) :
    s.run p = (s, result) := by
  simp [run, h, Note.diagnostics, Note.faults]

theorem readNested_of_lt {s : Session} {levels : Nat} (p : Production)
    (h : Parse.maxNesting - s.depth < levels) :
    s.readNested levels p = (s, .error ⟨.tooDeeplyNested, s.cursor.site⟩) := by
  refine run_eq_of_quiet ?_
  rw [Parse.within_eq, if_neg (by omega)]
  rfl

theorem readNested_of_le {s : Session} {levels : Nat} (p : Production)
    (h : levels ≤ Parse.maxNesting - s.depth) :
    ∃ result, (s.readNested levels p).2 = .ok result := by
  refine ⟨(p.parse s.rules (Parse.maxNesting - s.depth - levels) s.cursor).result, ?_⟩
  simp only [readNested, run]
  rw [Parse.within_eq, if_pos h]
  rfl

/-- Nesting is refused exactly if there are not so many levels left. -/
theorem isRefusal_nested_iff {s : Session} {levels : Nat} (p : Production) :
    (s.execute (.nested levels p)).2.isRefusal = true ↔ Parse.maxNesting - s.depth < levels := by
  by_cases h : levels ≤ Parse.maxNesting - s.depth
  · obtain ⟨result, hresult⟩ := readNested_of_le p h
    simp [execute, hresult, Answer.isRefusal, h]
  · have hlt : Parse.maxNesting - s.depth < levels := by omega
    simp [execute, readNested_of_lt p hlt, Answer.isRefusal, hlt]

/-- What is refused changes nothing. -/
theorem execute_eq_of_isRefusal {s : Session} {c : Command}
    (h : (s.execute c).2.isRefusal = true) : (s.execute c).1 = s := by
  cases c with
  | current | previous | check | kinds => rfl
  | advance | report | synchronize | register | read => simp [execute, Answer.isRefusal] at h
  | accept kinds =>
    cases hk : s.cursor.isAt kinds with
    | false => simp [execute, hk]
    | true => simp [execute, hk, Answer.isRefusal] at h
  | expect kind message =>
    cases hk : s.cursor.isAt [kind] with
    | false =>
      have hrun := run_eq_of_quiet (s := s) (p := fun _ => Parse.expect kind message)
        (Parse.expect_of_isAt_eq_false message hk)
      simp only [execute, hrun]
    | true =>
      obtain ⟨t, ht, hpass⟩ := Cursor.exists_passes_of_isAt hk
      have hexpect := Parse.expect_of_passes message hpass (List.mem_singleton.1 ht)
      simp [execute, run, hexpect, Answer.isRefusal] at h
  | nested levels p =>
    simp only [execute, readNested_of_lt p ((isRefusal_nested_iff p).1 h)]
  | dispatch table kind =>
    cases hr : s.rules table kind with
    | none => simp [execute, hr, Answer.isRefusal] at h
    | some rule => simp [execute, hr, Answer.isRefusal] at h

end Session

end Lox
