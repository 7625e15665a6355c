import Lox.Parser.Command
import Lox.Proofs.Parser.Statement
import Lox.Proofs.Session

/-!
# Commands to a parser and to a session

A session is a parser seen from outside: it leaves out the tokens that cannot be reached, and that
levels are opened and closed while something is read.  The key facts: a parser executes every command
as the session does (`Parser.execute_eq`), so one command leaves it in its stream, at its depth and
with its errors (`Parser.StandsIn.execute`), and this is so behind every row of commands
(`Parser.execute_after`).
-/

namespace Lox

open Session (Command Answer)

/-- The answer with its errors put differently. -/
def Session.Answer.map {ε δ : Type} (f : ε → δ) : Answer ε → Answer δ
  | done => done
  | flag b => flag b
  | token t => token t
  | expected result => expected (result.mapError f)
  | read result => read (result.mapError f)
  | nested result => nested ((result.map (·.mapError f)).mapError f)
  | registered kinds => registered kinds
  | tables declarations statements => tables declarations statements
  | noRule => noRule

namespace Session

def frame (s : Session) (ts : TokenStream) : Frame where
  stream := ts
  rules := s.rules
  depth := s.depth

/-- The parser that the session is a view of. -/
def parser (s : Session) (ts : TokenStream) : Parser :=
  (s.frame ts).parser s.cursor s.diagnostics

end Session

theorem Frame.simulates_production {F : Frame} (hplain : F.rules.IsPlain) (p : Production) :
    F.Simulates (Parser.production p) (p.parse F.rules F.room) := by
  cases p with
  | expression p => exact (F.simulates_expression p).map _
  | binary p => exact (F.simulates_binary p).map _
  | assignment => exact F.simulates_assignment.map _
  | unary => exact F.simulates_unary.map _
  | primary => exact F.simulates_primary.map _
  | grouping => exact F.simulates_grouping.map _
  | statement rule => exact (simulates_ruled hplain rule).map _
  | declaration => exact (simulates_declaration hplain).map _
  | program => exact (simulates_program hplain).map _
  | line => exact F.simulates_line.map _

namespace Parser

variable {ts : TokenStream} {s : Session} {a : Answer Diagnostic} {d : Cursor}

theorem execute_of_performs {c : Command} {notes : List Note}
    (h : (s.frame ts).Performs (command c) s.cursor ⟨.ok a, d, notes⟩) :
    (s.parser ts).execute c =
      some (({ s with cursor := d, diagnostics := s.diagnostics ++ Note.diagnostics notes } :
        Session).parser ts, a) := by
  have hrun : (command c).exec (s.parser ts) = _ := h s.diagnostics
  rw [execute, hrun]
  rfl

theorem execute_of_quiet {c : Command}
    (h : (s.frame ts).Performs (command c) s.cursor ⟨.ok a, d, []⟩) :
    (s.parser ts).execute c = some (({ s with cursor := d } : Session).parser ts, a) := by
  have hrun := execute_of_performs h
  rwa [Note.diagnostics, Note.faults, List.filterMap_nil, List.map_nil, List.append_nil] at hrun

/-- A production is read as in the session. -/
theorem execute_read (hcursor : ts.cursor ≤ s.cursor) (hplain : s.rules.IsPlain)
    (p : Production) :
    (s.parser ts).execute (.read p) =
      some ((s.read p).1.parser ts, .read ((s.read p).2.mapError Fault.diagnostic)) :=
  execute_of_performs (c := .read p)
    ((Frame.performs_attempt ((Frame.simulates_production hplain p).performs hcursor)).map
      Answer.read)

/-- A parser executes every command as the session does that is a view of it. -/
theorem execute_eq (hcursor : ts.cursor ≤ s.cursor) (hplain : s.rules.IsPlain) (c : Command) :
    (s.parser ts).execute c =
      some ((s.execute c).1.parser ts, (s.execute c).2.map Fault.diagnostic) := by
  have hforward : (s.frame ts).stream.cursor ≤ s.cursor := hcursor
  cases c with
  | current =>
    exact execute_of_quiet (c := .current) ((Frame.performs_current hforward).map Answer.token)
  | previous =>
    exact execute_of_quiet (c := .previous) ((Frame.performs_previous hforward).map Answer.token)
  | advance =>
    exact execute_of_quiet (c := .advance) ((Frame.performs_advance hforward).map Answer.token)
  | check kind =>
    exact execute_of_quiet (c := .check kind) ((Frame.performs_check kind hforward).map Answer.flag)
  | accept kinds =>
    cases hk : s.cursor.isAt kinds with
    | false =>
      simp only [Session.execute, hk, Bool.false_eq_true, if_false]
      exact execute_of_quiet (c := .accept kinds)
        ((Frame.performs_matchKinds_of_isAt_eq_false hk hforward).map Answer.flag)
    | true =>
      simp only [Session.execute, hk, if_true]
      exact execute_of_quiet (c := .accept kinds)
        ((Frame.performs_matchKinds_of_isAt hk hforward).map Answer.flag)
  | expect kind message =>
    exact execute_of_performs (c := .expect kind message)
      ((Frame.performs_attempt ((Frame.simulates_expect kind message).performs hforward)).map
        Answer.expected)
  | report d => rfl
  | synchronize =>
    exact execute_of_quiet (c := .synchronize)
      ((Frame.performs_synchronize hforward).bind_quiet (Frame.performs_pure Answer.done _))
  | nested levels p =>
    have hwithin : (s.frame ts).Simulates (within levels (attempt (production p)))
        (Parse.within (fun room =>
          Except.mapError Fault.diagnostic <$> Parse.attempt (p.parse s.rules room)) levels
          (s.frame ts).room) :=
      .within levels fun depth =>
        (Frame.simulates_production (F := { s.frame ts with depth }) hplain p).attempt
    rw [Parse.map_within] at hwithin
    have hrun := hwithin.performs hforward
    rw [Parse.map_apply] at hrun
    exact execute_of_performs (c := .nested levels p)
      ((Frame.performs_attempt hrun).map Answer.nested)
  | register table kind rule => rfl
  | kinds => rfl
  | dispatch table kind =>
    have hrules : (s.parser ts).rules = s.rules := rfl
    rw [execute, command, exec_bind_of_ok (exec_get _), hrules, Session.execute]
    cases s.rules table kind with
    | none => rfl
    | some rule => exact execute_read hcursor hplain (.statement rule)
  | read p => exact execute_read hcursor hplain p

end Parser

namespace Session

variable {ts : TokenStream}

theorem isPlain_rules_execute {s : Session} (h : s.rules.IsPlain) {c : Command}
    (hc : c.isPlain = true) : (s.execute c).1.rules.IsPlain := by
  cases c with
  | register table kind rule =>
    refine h.register kind ?_
    rintro rfl rfl
    cases hc
  | accept kinds =>
    rw [execute]
    split
    · exact h
    · exact h
  | dispatch table kind =>
    rw [execute]
    split
    · exact h
    · exact h
  | _ => exact h

theorem isRefusal_map {ε δ : Type} (f : ε → δ) (a : Answer ε) :
    (a.map f).isRefusal = a.isRefusal := by
  cases a with
  | expected result | nested result => cases result <;> rfl
  | _ => rfl

end Session

/-! ### Parsers on a stream -/

namespace Parser

/-- The parser has the tokens of the stream and is at one of them, not behind the first end of
input. -/
structure StandsIn (s : Parser) (ts : TokenStream) : Prop where
  tokens_eq : s.tokens = ts.toList
  pos_lt : s.pos < s.tokens.length
  pos_le : s.pos ≤ ts.firstEnd

theorem standsIn_of_le {ts : TokenStream} {s : Session} (h : ts.cursor ≤ s.cursor) :
    (s.parser ts).StandsIn ts where
  tokens_eq := rfl
  pos_lt := (List.getElem?_eq_some_iff.1 (TokenStream.getElem?_toList_of_le h)).1
  pos_le := Nat.le_of_add_right_le (Nat.le_of_eq (TokenStream.index_add_length_rest h))

/-- The parser `t` has gone on from `s`. -/
structure Extends (s t : Parser) : Prop where
  tokens_eq : t.tokens = s.tokens
  pos_le : s.pos ≤ t.pos
  depth_eq : t.depth = s.depth
  errors_prefix : s.errors <+: t.errors

theorem Extends.refl (s : Parser) : s.Extends s :=
  ⟨rfl, Nat.le_refl _, rfl, List.prefix_rfl⟩

theorem Extends.trans {s t u : Parser} (h : s.Extends t) (k : t.Extends u) : s.Extends u :=
  ⟨k.tokens_eq.trans h.tokens_eq, Nat.le_trans h.pos_le k.pos_le, k.depth_eq.trans h.depth_eq,
    h.errors_prefix.trans k.errors_prefix⟩

variable {ts : TokenStream} {s : Parser}

theorem standsIn_ofStream (ts : TokenStream) : (ofStream ts).StandsIn ts :=
  standsIn_of_le (s := .ofStream ts) ts.cursor.le_refl

/-- Every parser on the stream is a session, with the cursor at its token. -/
theorem StandsIn.exists_session (h : s.StandsIn ts) :
    ∃ t : Session, ts.cursor ≤ t.cursor ∧ t.parser ts = s := by
  have hlt : s.pos < ts.toList.length := h.tokens_eq ▸ h.pos_lt
  have hle : ts.cursorAt 0 ≤ ts.cursorAt s.pos :=
    TokenStream.cursorAt_le (Nat.zero_lt_of_lt hlt) (Nat.zero_le _) (by
      rw [Nat.zero_add, ts.cursorAt_zero, ts.length_rest_cursor]
      exact h.pos_le)
  refine ⟨⟨ts.cursorAt s.pos, s.rules, s.errors, s.depth⟩, ts.cursorAt_zero ▸ hle, ?_⟩
  obtain ⟨tokens, pos, depth, errors, rules⟩ := s
  have hpos : (ts.cursorAt pos).index = pos := TokenStream.index_cursorAt hlt
  have htokens : tokens = ts.toList := h.tokens_eq
  simp [Session.parser, Session.frame, Frame.parser, hpos, htokens]

/-- One command, to a parser at any depth. -/
theorem StandsIn.execute (h : s.StandsIn ts) (hplain : s.rules.IsPlain) (c : Command) :
    ∃ t answer, s.execute c = some (t, answer) ∧ t.StandsIn ts ∧ s.Extends t ∧
      (c.isPlain = true → t.rules.IsPlain) ∧ (answer.isRefusal = true → t = s) ∧
      ∀ kind, c = .check kind → t = s := by
  obtain ⟨r, hcursor, rfl⟩ := h.exists_session
  have hextends := r.extends_execute c
  have hstands := standsIn_of_le (Cursor.le_trans hcursor hextends.cursor_le)
  refine ⟨_, _, execute_eq hcursor hplain c, hstands, ⟨rfl, ?_, hextends.depth_eq, ?_⟩,
    Session.isPlain_rules_execute hplain, fun hrefusal => ?_, ?_⟩
  · exact Cursor.index_le_of_le hextends.cursor_le
  · exact hextends.diagnostics_prefix
  · rw [Session.isRefusal_map] at hrefusal
    rw [Session.execute_eq_of_isRefusal hrefusal]
  · rintro kind rfl
    rfl

/-- As many levels can be opened as are left. -/
theorem StandsIn.execute_nested (h : s.StandsIn ts) (hplain : s.rules.IsPlain) (levels : Nat)
    (p : Production) :
    ∃ t answer, s.execute (.nested levels p) = some (t, answer) ∧
      (answer.isRefusal = true ↔ Parse.maxNesting - s.depth < levels) := by
  obtain ⟨r, hcursor, rfl⟩ := h.exists_session
  refine ⟨_, _, execute_eq hcursor hplain _, ?_⟩
  rw [Session.isRefusal_map]
  exact Session.isRefusal_nested_iff p

/-- A row of commands. -/
theorem StandsIn.after (h : s.StandsIn ts) (hplain : s.rules.IsPlain) {commands : List Command}
    (hcommands : ∀ c ∈ commands, c.isPlain = true) :
    ∃ t, s.after commands = some t ∧ t.StandsIn ts ∧ s.Extends t ∧ t.rules.IsPlain := by
  induction commands generalizing s with
  | nil => exact ⟨s, rfl, h, .refl s, hplain⟩
  | cons c commands ih =>
    obtain ⟨hc, hcommands⟩ := List.forall_mem_cons.1 hcommands
    obtain ⟨t, answer, ht, hstands, hextends, hrules, -⟩ := h.execute hplain c
    obtain ⟨u, hu, hstands', hextends', hrules'⟩ := ih hstands (hrules hc) hcommands
    refine ⟨u, ?_, hstands', hextends.trans hextends', hrules'⟩
    rw [Parser.after, List.foldlM_cons, ht]
    exact hu

/-- In every parser of a stream, whatever plain commands it was given before, the next command comes
to an answer, be it a value or an error.  It leaves the parser in the stream and not further back, at
the depth it was at, so that all levels can be opened again, and keeps the errors there are.  A
refusal, or a look at the current token, changes nothing. -/
theorem execute_after (ts : TokenStream) (past : List Command) (c : Command)
    (hplain : ∀ d ∈ past ++ [c], d.isPlain = true) :
    ∃ s t answer, (ofStream ts).after past = some s ∧ s.execute c = some (t, answer) ∧
      s.StandsIn ts ∧ t.StandsIn ts ∧ s.Extends t ∧
      (∀ levels p, ∃ u answer', t.execute (.nested levels p) = some (u, answer') ∧
        (answer'.isRefusal = true ↔ Parse.maxNesting < levels)) ∧
      (answer.isRefusal = true → t = s) ∧
      ∀ kind, c = .check kind → t = s := by
  obtain ⟨hpast, hc⟩ := List.forall_mem_append.1 hplain
  obtain ⟨s, hs, hstands, hextends, hrules⟩ :=
    (standsIn_ofStream ts).after Rules.isPlain_standard hpast
  obtain ⟨t, answer, ht, hstands', hextends', hrules', hrefusal, hcheck⟩ := hstands.execute hrules c
  have hdepth : t.depth = 0 := hextends'.depth_eq.trans hextends.depth_eq
  refine ⟨s, t, answer, hs, ht, hstands, hstands', hextends', fun levels p => ?_, hrefusal, hcheck⟩
  have hnested := hstands'.execute_nested (hrules' (hc c (List.mem_singleton_self c))) levels p
  rwa [hdepth, Nat.sub_zero] at hnested

/-- With `(` as a token that begins a print statement, behind a declaration with an error. -/
theorem execute_after_register :
    let ts : TokenStream :=
      ⟨[.plain .openParen, .plain .kwNil, .plain .kwNil, .plain .semicolon], .plain .eof, rfl⟩
    let past : List Command := [.register .statements .openParen .print, .read .declaration]
    let c : Command := .expect .semicolon "Expect ';' after value."
    (∀ d ∈ past ++ [c], d.isPlain = true) ∧
    ∃ s t answer, (ofStream ts).after past = some s ∧ s.execute c = some (t, answer) ∧
      s.StandsIn ts ∧ t.StandsIn ts ∧ s.Extends t ∧
      (∀ levels p, ∃ u answer', t.execute (.nested levels p) = some (u, answer') ∧
        (answer'.isRefusal = true ↔ Parse.maxNesting < levels)) ∧
      (answer.isRefusal = true → t = s) ∧
      ∀ kind, c = .check kind → t = s := by
  intro ts past c
  have hplain : ∀ d ∈ past ++ [c], d.isPlain = true := by decide
  exact ⟨hplain, execute_after ts past c hplain⟩

end Parser

end Lox
