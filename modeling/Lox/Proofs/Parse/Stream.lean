import Lox.Proofs.Parse.Complete
import Lox.Proofs.Parse.Sound

/-!
# Parsing streams

What the parser makes of a whole stream.  A program never ends with a fault, so the first panic of a
stream is that of its program (`firstPanic?_parse`).  The key facts: the parser has no panic on
exactly the streams whose tokens are derived by the tolerant grammar
(`parse_of_program`, `exists_program`).
-/

namespace Lox

def Parsing.firstPanic? (p : Parsing) : Option Fault :=
  Note.firstPanic? p.notes

namespace Parse

variable {α : Type}

/-! ### Productions that do not fail -/

/-- The production always ends with a value. -/
def Settled (p : Parse α) : Prop :=
  ∀ c : Cursor, ∃ a, (p c).result = .ok a

theorem settled_noting (p : Parse α) : Settled (noting p) := by
  intro c
  rcases hc : p c with ⟨f | a, d, notes⟩
  · rw [noting_of_error hc]
    exact ⟨none, rfl⟩
  · rw [noting_of_ok hc]
    exact ⟨some a, rfl⟩

theorem settled_recovering (p : Parse Stmt) : Settled (recovering p) := by
  intro c
  rcases hc : p c with ⟨f | s, d, notes⟩
  · rw [recovering_of_error hc]
    exact ⟨none, rfl⟩
  · rw [recovering_of_ok hc]
    exact ⟨some s, rfl⟩

theorem Settled.many {p : Parse (Option α)} (hp : Settled p) : Settled (many p) := by
  intro c
  have h := hp c
  fun_induction Parse.many p c with
  | case1 c a d notes hc _ o ih =>
    obtain ⟨as, has⟩ := ih (hp d)
    exact ⟨a :: as, by simp [o, has, Except.map]⟩
  | case2 c a d notes hc _ => exact ⟨[a], rfl⟩
  | case3 c d notes hc => exact ⟨[], rfl⟩
  | case4 c f d notes hc =>
    rw [hc] at h
    obtain ⟨_, h⟩ := h
    cases h

theorem settled_item (stop : Cursor → Bool) (room : Nat) : Settled (item stop room) := by
  intro c
  unfold item
  split
  · exact ⟨none, rfl⟩
  · obtain ⟨o, ho⟩ := settled_recovering (leading room c.current.kind) c
    rw [← declaration_apply] at ho
    rcases hc : declaration .standard room c with ⟨f | o, d, notes⟩
    · rw [hc] at ho
      cases ho
    · have key := bind_apply_of_ok (f := fun o => pure (some o)) hc
      exact ⟨some o, congrArg Outcome.result key⟩

theorem settled_program (room : Nat) : Settled (program .standard room) := by
  intro c
  obtain ⟨body, hbody⟩ := (settled_item Cursor.atEnd room).many c
  rw [program_eq]
  rcases hc : many (item Cursor.atEnd room) c with ⟨f | body, d, notes⟩
  · rw [hc] at hbody
    cases hbody
  · rw [bind_apply_of_ok hc]
    exact ⟨_, rfl⟩

end Parse

open Parse

namespace TokenStream

variable {s : TokenStream}

theorem firstPanic?_parse (s : TokenStream) :
    s.parse.firstPanic? = (program .standard maxNesting s.cursor).firstPanic? := by
  obtain ⟨body, h⟩ := settled_program maxNesting s.cursor
  unfold Outcome.firstPanic?
  rw [h, Option.or_none]
  rfl

/-- All tokens before the last one are passed on the way to the end. -/
theorem passes_body (h : ∀ t ∈ s.body, t.kind ≠ .eof) :
    s.cursor.Passes s.body ⟨s.body.reverse, [], s.last⟩ := by
  rw [cursor_eq h]
  exact ⟨by simp, by simp, rfl⟩

theorem closed_cursor (he : ∀ t ∈ s.body, t.kind ≠ .eof) (hl : s.last.literal = none) :
    s.cursor.Closed := by
  rw [cursor_eq he]
  exact ⟨s.last_kind, hl⟩

theorem parse_of_many {os : List (Option Stmt)} {d : Cursor} {notes : List Note}
    (h : many (item Cursor.atEnd maxNesting) s.cursor = ⟨.ok os, d, notes⟩) :
    s.parse.program = os.reduceOption ∧ s.parse.notes = notes := by
  unfold parse
  rw [program_eq, bind_apply_of_ok h, pure_apply, List.append_nil]
  exact ⟨rfl, rfl⟩

/-- The run of the parser, which ends with a program. -/
theorem exists_run (s : TokenStream) :
    ∃ d, program .standard maxNesting s.cursor = ⟨.ok s.parse.program, d, s.parse.notes⟩ := by
  obtain ⟨body, hbody⟩ := settled_program maxNesting s.cursor
  unfold parse
  rcases hrun : program .standard maxNesting s.cursor with ⟨f | body', d, notes⟩
  · rw [hrun] at hbody
    cases hbody
  · exact ⟨d, rfl⟩

/-- If the tokens are derived, the stream is read as the tree. -/
theorem parse_of_program {body : List Stmt} {bad : List Token} (he : ∀ t ∈ s.body, t.kind ≠ .eof)
    (h : Tolerant.Program [] maxNesting s.body body bad) :
    s.parse.program = body ∧ Note.Misplaced s.parse.notes bad := by
  obtain ⟨notes, hn, hrun⟩ := yields_program h (passes_body he) rfl
  unfold parse
  rw [hrun]
  exact ⟨rfl, hn⟩

/-- If there is no panic, the tokens are derived, with the levels that were left. -/
theorem exists_program_of_room {room : Nat} (he : ∀ t ∈ s.body, t.kind ≠ .eof)
    (hl : s.last.literal = none) (h : (program .standard room s.cursor).firstPanic? = none) :
    ∃ body bad, Tolerant.Program [] room s.body body bad := by
  obtain ⟨ts, d, body, bad, hc, hprogram, hd⟩ :=
    (explained_program room (closed_cursor he hl)).of_firstPanic?_eq_none h
  have hd : d.rest = [] := List.isEmpty_iff.1 hd
  have hts : s.body = ts := by
    have key := hc.1
    rwa [hd, List.append_nil, cursor_eq he] at key
  exact ⟨body, bad, hts ▸ hprogram⟩

theorem exists_program (he : ∀ t ∈ s.body, t.kind ≠ .eof) (hl : s.last.literal = none)
    (h : s.parse.firstPanic? = none) :
    ∃ body bad, Tolerant.Program [] maxNesting s.body body bad :=
  exists_program_of_room he hl (s.firstPanic?_parse ▸ h)

/-- What is read without a diagnostic is a program without misplaced equals signs. -/
theorem program_of_diagnostics_eq_nil (he : ∀ t ∈ s.body, t.kind ≠ .eof)
    (hl : s.last.literal = none) (h : s.parse.diagnostics = []) :
    Tolerant.Program [] maxNesting s.body s.parse.program [] := by
  have hfaults : Note.faults s.parse.notes = [] := List.map_eq_nil_iff.1 h
  have hpanic : s.parse.firstPanic? = none := by
    unfold Parsing.firstPanic? Note.firstPanic?
    rw [hfaults]
    rfl
  obtain ⟨body, bad, hprogram⟩ := exists_program he hl hpanic
  obtain ⟨hbody, hnotes⟩ := parse_of_program he hprogram
  have hbad := List.map_eq_nil_iff.1 (hnotes.diagnostics_eq.symm.trans h)
  rwa [hbody, ← hbad]

theorem WellFormed.kind_ne_eof (hs : s.WellFormed) : ∀ t ∈ s.body, t.kind ≠ .eof :=
  fun t ht => (hs.body t ht).1

/-- The parser reports nothing on exactly the well-formed streams that the grammar derives, and
then the program is the tree of the derivation, of which there is only one. -/
theorem parse_iff_derives (hs : s.WellFormed) :
    (s.parse.diagnostics = [] ↔ ∃ body, Grammar.Program maxNesting s.body body) ∧
      ∀ body, Grammar.Program maxNesting s.body body → s.parse.program = body ∧
        ∀ body', Grammar.Program maxNesting s.body body' → body' = body := by
  have complete (body : List Stmt) (h : Grammar.Program maxNesting s.body body) :
      s.parse.program = body ∧ Note.Misplaced s.parse.notes [] :=
    parse_of_program hs.kind_ne_eof (h.tolerant hs.body (List.nil_subset _))
  refine ⟨⟨fun h => ?_, fun ⟨body, h⟩ => ?_⟩, fun body h => ?_⟩
  · have hfaults : Note.faults s.parse.notes = [] := List.map_eq_nil_iff.1 h
    have hpanic : s.parse.firstPanic? = none := by
      unfold Parsing.firstPanic? Note.firstPanic?
      rw [hfaults]
      rfl
    obtain ⟨body, bad, hprogram⟩ := exists_program hs.kind_ne_eof hs.last hpanic
    -- a misplaced equals sign would have been reported
    have hbad := (parse_of_program hs.kind_ne_eof hprogram).2.diagnostics_eq.symm.trans h
    exact ⟨body, hprogram.strict (List.map_eq_nil_iff.1 hbad)⟩
  · exact (complete body h).2.diagnostics_eq
  · refine ⟨(complete body h).1, fun body' h' => ?_⟩
    rw [← (complete body h).1, ← (complete body' h').1]

/-- The statement `print nil;`. -/
theorem parse_print_nil :
    let s : TokenStream :=
      ⟨[.plain .kwPrint, .plain .kwNil, .plain .semicolon], .plain .eof, rfl⟩
    s.WellFormed ∧ s.parse.diagnostics = [] ∧ s.parse.program = [.print (.literal .nil)] := by
  intro s
  have hs : s.WellFormed := ⟨by decide, rfl⟩
  have value : Grammar.Derives maxNesting .assignment [.plain .kwNil] (.literal .nil) :=
    .next (.next (.next (.next (.next (.next (.nil rfl))))))
  have print : Grammar.Declaration maxNesting s.body (.print (.literal .nil)) :=
    .print rfl value rfl
  have program : Grammar.Program maxNesting s.body [.print (.literal .nil)] := .cons print .nil
  exact ⟨hs, (parse_iff_derives hs).1.2 ⟨_, program⟩, ((parse_iff_derives hs).2 _ program).1⟩

end TokenStream

end Lox
