import Lox.Proofs.Session
import Lox.Proofs.Parse.Levels

/-!
# The nesting budget

The levels that are left bear on a run only by a refusal.  Whatever is asked for, the run is the
same with more levels if it lacks none (`Production.extends_parse`), and to open levels around a
production is to run it with as many levels less (`Parse.within_eq`).  The key fact is what this
means for the open levels of a session (`Session.nesting_budget`).
-/

namespace Lox

open Parse

/-- Whatever is asked for, the run is the same with more levels, unless it lacks one. -/
theorem Production.extends_parse (rules : Rules) {room room' : Nat} (h : room ≤ room')
    (p : Production) : Extends (p.parse rules room) (p.parse rules room') := by
  cases p with
  | expression p => exact (extends_expression h p).map _
  | binary p => exact (extends_binary h p).map _
  | assignment => exact (extends_expression h .assignment).map _
  | unary => exact (extends_expression h .unary).map _
  | primary => exact (extends_expression h .primary).map _
  | grouping => exact (extends_grouping h).map _
  | statement rule => exact (extends_statement rules h rule).map _
  | declaration => exact (extends_declaration rules h).map _
  | program => exact (extends_program rules h).map _
  | line => exact (extends_expression h .default).noting.map _

namespace Session

/-- If neither the answer nor a new diagnostic is about nesting, no level was lacking. -/
theorem unhindered_of_read {s : Session} {p : Production} {new : List Diagnostic}
    (hnew : (s.read p).1.diagnostics = s.diagnostics ++ new)
    (hcause : ∀ d ∈ new, d.cause ≠ .tooDeeplyNested)
    (hfault : ∀ f, (s.read p).2 = .error f → f.cause ≠ .tooDeeplyNested) :
    (p.parse s.rules (maxNesting - s.depth) s.cursor).Unhindered := by
  obtain rfl := List.append_cancel_left hnew
  intro f hf
  rcases List.mem_append.1 hf with hf | hf
  · exact hcause f.diagnostic (List.mem_map_of_mem hf)
  · cases hresult : (p.parse s.rules (maxNesting - s.depth) s.cursor).result with
    | ok r => simp [hresult] at hf
    | error e =>
      obtain rfl : f = e := by simpa [hresult] using hf
      exact hfault f hresult

theorem read_of_depth_le {s : Session} {p : Production} {depth : Nat}
    (h : (p.parse s.rules (maxNesting - s.depth) s.cursor).Unhindered) (hle : depth ≤ s.depth) :
    { s with depth }.read p = ({ (s.read p).1 with depth }, (s.read p).2) := by
  have hroom : maxNesting - s.depth ≤ maxNesting - depth := Nat.sub_le_sub_left hle _
  simp only [read, run, p.extends_parse s.rules hroom s.cursor h]

/-- The levels that are opened count as open levels of the session, and if there are not so many,
nothing is read. -/
theorem run_within {α : Type} {s : Session} (hs : s.depth ≤ maxNesting)
    (p : (room : Nat) → Parse α) (levels : Nat) :
    s.run (within p levels) =
      if s.depth + levels ≤ maxNesting then
        let inner := { s with depth := s.depth + levels }.run p
        ({ inner.1 with depth := s.depth }, inner.2)
      else (s, .error ⟨.tooDeeplyNested, s.cursor.site⟩) := by
  unfold run
  rw [within_eq]
  by_cases h : s.depth + levels ≤ maxNesting
  · rw [if_pos h, if_pos (by omega), Nat.sub_sub]
  · rw [if_neg h, if_neg (by omega)]
    simp [refuse, Note.diagnostics, Note.faults]

/-- A session with some levels open that reads anything, with any rules, and meets no lack of
levels, neither in the answer nor in a new diagnostic, reads the same with fewer levels open: the
answer, the cursor and the diagnostics are the same.  Levels that are opened around a production are
refused at the current token, and nothing is changed, if there are more of them than are left;
otherwise the production runs with so many more levels open. -/
theorem nesting_budget {s : Session} (hs : s.depth ≤ maxNesting) :
    (∀ (p : Production) (new : List Diagnostic),
      (s.read p).1.diagnostics = s.diagnostics ++ new →
      (∀ d ∈ new, d.cause ≠ .tooDeeplyNested) →
      (∀ f, (s.read p).2 = .error f → f.cause ≠ .tooDeeplyNested) →
      ∀ depth ≤ s.depth,
        { s with depth }.read p = ({ (s.read p).1 with depth }, (s.read p).2)) ∧
    ∀ {α : Type} (p : (room : Nat) → Parse α) (levels : Nat),
      s.run (within p levels) =
        if s.depth + levels ≤ maxNesting then
          let inner := { s with depth := s.depth + levels }.run p
          ({ inner.1 with depth := s.depth }, inner.2)
        else (s, .error ⟨.tooDeeplyNested, s.cursor.site⟩) := by
  refine ⟨fun p new hnew hcause hfault depth hle => ?_, run_within hs⟩
  exact read_of_depth_le (unhindered_of_read hnew hcause hfault) hle

/-- Two signs with two levels left are read as with more of them, and there is no room for three
levels around them. -/
theorem nesting_budget_dashes :
    let stream := TokenStream.mk [.plain .dash, .plain .dash, .plain .kwNil] (.plain .eof) rfl
    let s : Session := { cursor := stream.cursor, depth := 126 }
    (∀ depth ≤ 126,
      { s with depth }.read .unary = ({ (s.read .unary).1 with depth }, (s.read .unary).2)) ∧
    s.readNested 3 .unary = (s, .error ⟨.tooDeeplyNested, s.cursor.site⟩) := by
  intro stream s
  have key := nesting_budget (s := s) (by decide)
  refine ⟨key.1 .unary [] rfl (by simp) (fun f h => by cases h), ?_⟩
  exact key.2 _ 3

end Session

end Lox
