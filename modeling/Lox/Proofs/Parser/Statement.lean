import Lox.Proofs.Parser.Expression

/-!
# Statements of a parser

The productions of statements of a parser simulate those of `Parse`, with all rules that do not make
the statement table ask itself again (`Frame.simulates_ruled`, `Frame.simulates_declaration`,
`Frame.simulates_program`).  The induction is on the number of levels that are left, and the
declarations of blocks and programs are repetitions that get on.
-/

namespace Lox

namespace Frame

variable {α : Type} {F : Frame}

theorem Simulates.upTo {stop : Cursor → Bool} {stopped : Parser.Run Bool} {p : Parser.Run α}
    {q : Parse α}
    (hstop : ∀ {c}, F.stream.cursor ≤ c → F.Performs stopped c ⟨.ok (stop c), c, []⟩)
    (h : F.Simulates p q) :
    F.Simulates (stopped >>= fun b => if b then pure none else some <$> p) (Parse.upTo stop q) where
  forward := Parse.forward_upTo stop h.forward
  performs {c} hc := by
    refine (hstop hc).bind_quiet ?_
    unfold Parse.upTo
    cases stop c with
    | true => exact performs_pure none c
    | false => exact (h.map some).performs hc

/-! ### Statements without declarations in them -/

theorem simulates_expressionStmt (F : Frame) :
    F.Simulates Parser.expressionStmt
      (Parse.expressionStmtWith (Parse.expression F.room .default)) :=
  (F.simulates_expression .default).bind fun _ => (simulates_expect _ _).bind fun _ =>
    simulates_pure _

theorem simulates_printStmt (F : Frame) :
    F.Simulates Parser.printStmt (Parse.printStmtWith (Parse.expression F.room .default)) :=
  simulates_skip <| (F.simulates_expression .default).bind fun _ =>
    (simulates_expect _ _).bind fun _ => simulates_pure _

theorem simulates_initializer (F : Frame) :
    F.Simulates Parser.initializer
      (Parse.initializerWith (Parse.expression F.room .default)) := by
  have hvalue := (F.simulates_expression .default).bind fun e => simulates_pure (some e)
  exact .matchKinds_bind (fun _ => hvalue.forward) (simulates_pure none) fun _ _ hd _ =>
    hvalue.performs hd

theorem simulates_varDeclStmt (F : Frame) :
    F.Simulates Parser.varDeclStmt (Parse.varDeclStmtWith (Parse.expression F.room .default)) :=
  simulates_skip <| (simulates_expect _ _).bind fun _ => F.simulates_initializer.bind fun _ =>
    (simulates_expect _ _).bind fun _ => simulates_pure _

/-! ### Blocks -/

theorem foldl_append_toList (body : List Stmt) (more : List (Option Stmt)) :
    more.foldl (fun body o => body ++ o.toList) body = body ++ more.reduceOption := by
  induction more generalizing body with
  | nil => exact (List.append_nil body).symm
  | cons o more ih =>
    rw [List.foldl_cons, ih]
    cases o with
    | none => simp
    | some stmt => simp

/-- Declarations are added until the parser stops. -/
theorem simulates_body {stop : Cursor → Bool} {stopped : Parser.Run Bool}
    {p : Parser.Run (Option Stmt)} {q : Parse (Option Stmt)}
    {body : List Stmt → Parser.Run (List Stmt)}
    (hbody : ∀ stmts, body stmts = stopped >>= fun b =>
      if b then pure stmts else p >>= fun o => body (stmts ++ o.toList))
    (hstop : ∀ {c}, F.stream.cursor ≤ c → F.Performs stopped c ⟨.ok (stop c), c, []⟩)
    (hend : ∀ c : Cursor, c.atEnd = true → stop c = true)
    (h : F.Simulates p q)
    (hq : ∀ c : Cursor, c.atEnd = false → c.advance ≤ (q c).cursor) :
    F.Simulates (body []) (Parse.many (Parse.upTo stop q) >>= fun more =>
      pure more.reduceOption) := by
  have hround := Simulates.upTo hstop h
  have hloop (stmts : List Stmt) : body stmts =
      (stopped >>= fun b => if b then pure none else some <$> p) >>= fun o =>
        o.elim (pure stmts) fun o => body (stmts ++ o.toList) := by
    rw [hbody, bind_assoc]
    congr 1
    funext b
    cases b with
    | false => simp
    | true => simp
  have hmany := Simulates.loop hloop hround
    (Parse.getsOn_upTo hend hq) []
  simp only [foldl_append_toList, List.nil_append] at hmany
  exact hmany

/-- The declarations one level deeper, if there is such a level, are simulated. -/
def SimulatesDeclarations (F : Frame) : Prop :=
  ∀ inner ∈ Parse.deeperDeclaration F.rules F.room, F.room ≠ 0 ∧
    F.deeper.Simulates Parser.declaration inner ∧
    ∀ c : Cursor, c.atEnd = false → c.advance ≤ (inner c).cursor

theorem room_eq_zero_of_deeperDeclaration (h : Parse.deeperDeclaration F.rules F.room = none) :
    F.room = 0 := by
  cases hroom : F.room with
  | zero => rfl
  | succ room =>
    rw [hroom] at h
    cases h

/-- A declaration that is missing adds nothing. -/
theorem bind_toList (p : Parser.Run (Option Stmt)) (body : List Stmt → Parser.Run (List Stmt))
    (stmts : List Stmt) {f : Option Stmt → Parser.Run (List Stmt)}
    (hsome : ∀ stmt, f (some stmt) = body (stmts ++ [stmt])) (hnone : f none = body stmts) :
    p >>= f = p >>= fun o => body (stmts ++ o.toList) := by
  refine congrArg (p >>= ·) (funext fun o => ?_)
  cases o with
  | some stmt => exact hsome stmt
  | none => exact hnone.trans (congrArg body (List.append_nil stmts).symm)

theorem blockBody_eq (stmts : List Stmt) : Parser.blockBody stmts =
    (Parser.check .closeCurly >>= fun b => if b then pure true else Parser.atEnd) >>= fun b =>
      if b then pure stmts else Parser.declaration >>= fun o =>
        Parser.blockBody (stmts ++ o.toList) := by
  rw [Parser.blockBody]
  refine Eq.trans ?_ (bind_assoc (Parser.check .closeCurly) _ _).symm
  refine congrArg (Parser.check .closeCurly >>= ·) (funext fun closed => ?_)
  cases closed with
  | true => rfl
  | false =>
    refine congrArg (Parser.atEnd >>= ·) (funext fun ended => ?_)
    cases ended with
    | true => rfl
    | false => exact bind_toList _ _ stmts (fun _ => rfl) rfl

theorem performs_blockEnd {c : Cursor} (hc : F.stream.cursor ≤ c) :
    F.Performs (Parser.check .closeCurly >>= fun b => if b then pure true else Parser.atEnd) c
      ⟨.ok (Parse.blockEnd c), c, []⟩ := by
  refine (performs_check .closeCurly hc).bind_quiet ?_
  unfold Parse.blockEnd
  cases c.isAt [.closeCurly] with
  | true => exact performs_pure true c
  | false => exact performs_atEnd hc

theorem SimulatesDeclarations.block (h : F.SimulatesDeclarations) :
    F.Simulates Parser.block
      (Parse.blockStmtWith (Parse.deeperDeclaration F.rules F.room)) := by
  rw [Parser.block, Parser.blockWith]
  refine .nested room_eq_zero_of_deeperDeclaration fun inner hi => ?_
  obtain ⟨hroom, hinner, hadvance⟩ := h inner hi
  have hbody := simulates_body blockBody_eq performs_blockEnd
    (fun c hend => by rw [Parse.blockEnd, hend, Bool.or_true]) hinner hadvance
  have hblock := hbody.bind fun body =>
    (simulates_expect .closeCurly "Expect '\x7d' after block.").bind fun _ =>
      simulates_pure (Stmt.block body)
  have hassoc (q : Parse (List (Option Stmt))) (g : List Stmt → Parse Stmt) :
      ((q >>= fun more => pure more.reduceOption) >>= g) = q >>= fun more => g more.reduceOption :=
    bind_assoc q _ g
  rw [hassoc (Parse.many _), Parse.upTo_blockEnd] at hblock
  exact ⟨hroom, simulates_skip hblock⟩

/-! ### Rules -/

/-- A rule that the statement table does not choose by asking itself again. -/
theorem SimulatesDeclarations.ruled_of_ne (h : F.SimulatesDeclarations) {rule : StatementRule}
    (hrule : rule ≠ .statement) :
    F.Simulates (Parser.ruled rule)
      (Parse.ruledWith (Parse.expression F.room .default)
        (Parse.deeperDeclaration F.rules F.room) rule) := by
  rw [Parser.ruled.eq_def]
  cases rule with
  | statement => exact absurd rfl hrule
  | print => exact F.simulates_printStmt
  | varDecl => exact F.simulates_varDeclStmt
  | block => exact h.block

theorem SimulatesDeclarations.statement (h : F.SimulatesDeclarations) (hplain : F.rules.IsPlain) :
    F.Simulates Parser.statement (Parse.statement F.rules F.room .statement) where
  forward := Parse.forward_statement F.rules F.room .statement
  performs {c} hc errors := by
    have hrules : (F.parser c errors).rules = F.rules := rfl
    have hne := hplain c.current.kind
    rw [Parser.statement, Parser.statementWith, Parser.exec_bind_of_ok (Parser.exec_get _), hrules]
    refine (performs_current hc).bind_quiet ?_ errors
    show F.Performs _ c (Parse.ruledWith (Parse.expression F.room .default)
      (Parse.deeperDeclaration F.rules F.room)
      ((F.rules .statements c.current.kind).getD .statement) c)
    cases hrule : F.rules .statements c.current.kind with
    | none => exact F.simulates_expressionStmt.performs hc
    | some rule => exact (h.ruled_of_ne fun heq => hne (heq ▸ hrule)).performs hc

theorem SimulatesDeclarations.ruled (h : F.SimulatesDeclarations) (hplain : F.rules.IsPlain)
    (rule : StatementRule) :
    F.Simulates (Parser.ruled rule) (Parse.statement F.rules F.room rule) := by
  cases rule with
  | statement =>
    rw [Parser.ruled]
    exact h.statement hplain
  | print => exact h.ruled_of_ne (by decide)
  | varDecl => exact h.ruled_of_ne (by decide)
  | block => exact h.ruled_of_ne (by decide)

theorem SimulatesDeclarations.declared (h : F.SimulatesDeclarations) (hplain : F.rules.IsPlain) :
    F.Simulates Parser.declared (Parse.declared F.rules F.room) where
  forward := Parse.forward_declared F.rules F.room
  performs {c} hc errors := by
    have hrules : (F.parser c errors).rules = F.rules := rfl
    rw [Parser.declared, Parser.declaredWith, Parser.exec_bind_of_ok (Parser.exec_get _), hrules]
    refine (performs_current hc).bind_quiet ?_ errors
    rw [Parse.declared, Parse.here_bind_apply]
    cases F.rules .declarations c.current.kind with
    | none => exact (h.statement hplain).performs hc
    | some rule => exact (h.ruled hplain rule).performs hc

theorem SimulatesDeclarations.declaration (h : F.SimulatesDeclarations) (hplain : F.rules.IsPlain) :
    F.Simulates Parser.declaration (Parse.declaration F.rules F.room) := by
  rw [Parser.declaration, Parse.declaration_eq_recovering_declared]
  exact (h.declared hplain).recovering (fun _ => rfl) fun _ => rfl

theorem simulatesDeclarations (hplain : F.rules.IsPlain) : F.SimulatesDeclarations := by
  generalize hroom : F.room = room
  induction room generalizing F with
  | zero =>
    intro inner hi
    rw [hroom] at hi
    cases hi
  | succ room ih =>
    have hdeeper : F.deeper.room = room := by rw [room_deeper, hroom, Nat.add_sub_cancel]
    have hplain' : F.deeper.rules.IsPlain := hplain
    have hinner := (ih hplain' hdeeper).declaration hplain'
    rw [hdeeper] at hinner
    intro inner hi
    rw [hroom] at hi ⊢
    cases hi
    exact ⟨Nat.succ_ne_zero room, hinner, fun _ => Parse.advance_le_declaration F.rules room⟩

theorem simulates_ruled (hplain : F.rules.IsPlain) (rule : StatementRule) :
    F.Simulates (Parser.ruled rule) (Parse.statement F.rules F.room rule) :=
  (simulatesDeclarations hplain).ruled hplain rule

theorem simulates_declaration (hplain : F.rules.IsPlain) :
    F.Simulates Parser.declaration (Parse.declaration F.rules F.room) :=
  (simulatesDeclarations hplain).declaration hplain

theorem programBody_eq (stmts : List Stmt) : Parser.programBody stmts =
    Parser.atEnd >>= fun b =>
      if b then pure stmts else Parser.declaration >>= fun o =>
        Parser.programBody (stmts ++ o.toList) := by
  rw [Parser.programBody]
  refine congrArg (Parser.atEnd >>= ·) (funext fun ended => ?_)
  cases ended with
  | true => rfl
  | false => exact bind_toList _ _ stmts (fun _ => rfl) rfl

theorem simulates_program (hplain : F.rules.IsPlain) :
    F.Simulates Parser.program (Parse.program F.rules F.room) := by
  have hbody := simulates_body programBody_eq performs_atEnd (fun c hend => hend)
    (simulates_declaration hplain) fun _ => Parse.advance_le_declaration F.rules F.room
  rw [Parse.upTo_atEnd] at hbody
  exact hbody

end Frame

/-! ### Streams -/

namespace Parser

/-- A parser that reads a program gives the program of the stream, at its first end of input, and
has reported its diagnostics. -/
theorem exec_program (s : TokenStream) :
    program.exec (ofStream s) = some (.ok s.parse.program,
      { ofStream s with pos := s.firstEnd, errors := s.parse.diagnostics }) := by
  obtain ⟨d, hrun⟩ := s.exists_run
  have hle := Parse.forward_program .standard Parse.maxNesting s.cursor
  have hend := Parse.atEnd_program Parse.maxNesting s.cursor
  rw [hrun] at hle hend
  have hexec := (Frame.simulates_program (F := ⟨s, .standard, 0⟩) Rules.isPlain_standard).performs
    s.cursor.le_refl []
  have hroom : Parse.program .standard (Frame.room ⟨s, .standard, 0⟩) s.cursor = _ := hrun
  rw [hroom, List.nil_append] at hexec
  rw [← TokenStream.index_of_atEnd hle hend]
  exact hexec

/-- The same for a single expression, behind which the rest of the stream is left. -/
theorem exec_line (s : TokenStream) :
    line.exec (ofStream s) = some (.ok s.parseExpression.1,
      { ofStream s with
        pos := (Parse.line Parse.maxNesting s.cursor).cursor.index
        errors := s.parseExpression.2 }) := by
  obtain ⟨e, he⟩ := Parse.settled_noting (Parse.expression Parse.maxNesting .default) s.cursor
  have hexec : line.exec (ofStream s) =
      some ((Parse.line Parse.maxNesting s.cursor).result.mapError Fault.diagnostic, _) :=
    (Frame.simulates_line ⟨s, .standard, 0⟩).performs s.cursor.le_refl []
  have hvalue : s.parseExpression.1 = e := by
    rw [TokenStream.parseExpression, Outcome.value, Parse.line, he]
  rw [hexec, hvalue, Parse.line, he]
  rfl

end Parser

end Lox
