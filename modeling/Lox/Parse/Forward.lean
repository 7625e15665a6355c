import Lox.Parse.Statement

/-!
# Moving forward

Every production, whether it ends with a value or with a fault, leaves the cursor at or behind the
place where it began, in the same stream (`forward_expression`, `forward_statement`,
`forward_program`).  Single steps move forward, and sequences, repetitions and nested productions
inherit this from their parts.
-/

namespace Lox

namespace Parse

variable {α β : Type}

/-- The production only moves forward. -/
def Forward (p : Parse α) : Prop :=
  ∀ c : Cursor, c ≤ (p c).cursor

/-! ### Steps -/

theorem forward_pure (a : α) : Forward (pure a : Parse α) :=
  fun c => c.le_refl

theorem forward_here : Forward here :=
  fun c => c.le_refl

theorem forward_skip : Forward skip :=
  fun c => c.le_advance

theorem forward_isAt (kinds : List TokenKind) : Forward (isAt kinds) :=
  fun c => c.le_refl

theorem forward_atEnd : Forward atEnd :=
  fun c => c.le_refl

theorem forward_refuse (cause : Cause) : Forward (refuse cause : Parse α) :=
  fun c => c.le_refl

theorem forward_note (f : Fault) : Forward (note f) :=
  fun c => c.le_refl

theorem forward_synchronize : Forward synchronize :=
  fun c => c.le_synchronize

theorem forward_accept (kinds : List TokenKind) : Forward (accept kinds) := by
  intro c
  unfold accept
  split
  · exact c.le_advance
  · exact c.le_refl

/-! ### Combinations -/

theorem Forward.bind {p : Parse α} {f : α → Parse β} (hp : Forward p)
    (hf : ∀ a, Forward (f a)) : Forward (p >>= f) := by
  intro c
  have h := hp c
  rcases hc : p c with ⟨e | a, d, notes⟩ <;> rw [hc] at h
  · rw [bind_apply_of_error hc]
    exact h
  · rw [bind_apply_of_ok hc]
    exact Cursor.le_trans h (hf a d)

theorem Forward.map {p : Parse α} (hp : Forward p) (f : α → β) : Forward (f <$> p) :=
  hp.bind fun a => forward_pure (f a)

theorem forward_expect (kind : TokenKind) (message : String) : Forward (expect kind message) := by
  refine (forward_accept _).bind ?_
  rintro (_ | site)
  · exact forward_refuse _
  · exact forward_pure _

theorem Forward.attempt {p : Parse α} (hp : Forward p) : Forward (attempt p) :=
  hp

theorem Forward.noting {p : Parse α} (hp : Forward p) : Forward (noting p) := by
  refine hp.attempt.bind ?_
  rintro (f | a)
  · exact (forward_note f).bind fun _ => forward_pure none
  · exact forward_pure (some a)

theorem Forward.many {p : Parse (Option α)} (hp : Forward p) : Forward (many p) := by
  intro c
  have h := hp c
  fun_induction Parse.many p c with
  | case1 c a d notes hc _ o ih =>
    rw [hc] at h
    exact Cursor.le_trans h (ih (hp d))
  | case2 c a d notes hc _ => rwa [hc] at h
  | case3 c d notes hc => rwa [hc] at h
  | case4 c f d notes hc => rwa [hc] at h

theorem Forward.nested {deeper : Option β} {p : β → Parse α}
    (h : ∀ inner ∈ deeper, Forward (p inner)) : Forward (nested deeper p) := by
  cases deeper with
  | none => exact forward_refuse _
  | some inner => exact h inner rfl

theorem Forward.within {p : Nat → Parse α} (hp : ∀ room, Forward (p room))
    (levels room : Nat) : Forward (within p levels room) := by
  induction levels generalizing room with
  | zero => exact hp room
  | succ levels ih =>
    cases room with
    | zero => exact forward_refuse _
    | succ room => exact ih room

/-! ### Expressions -/

section Expression

variable {deeper : Option (Precedence → Parse Expr)}

private theorem forward_leftAssoc (operators : List TokenKind) {operand : Parse Expr}
    (h : Forward operand) : Forward (leftAssoc operators operand) := by
  refine h.bind fun first => Forward.bind (Forward.many ?_) fun _ => forward_pure _
  refine (forward_accept _).bind ?_
  rintro (_ | operator)
  · exact forward_pure _
  · exact h.bind fun _ => forward_pure _

private theorem forward_groupingWith (h : ∀ inner ∈ deeper, ∀ p, Forward (inner p)) :
    Forward (groupingWith deeper) :=
  Forward.nested fun inner hi => forward_skip.bind fun _ => (h inner hi _).bind fun _ =>
    (forward_expect _ _).bind fun _ => forward_pure _

private theorem forward_primaryWith (h : ∀ inner ∈ deeper, ∀ p, Forward (inner p)) :
    Forward (primaryWith deeper) := by
  refine forward_here.bind fun token => ?_
  have literal (value : Literal) : Forward (skip >>= fun _ => pure (Expr.literal value)) :=
    forward_skip.bind fun _ => forward_pure _
  split
  · exact literal _
  · exact literal _
  · exact literal _
  · exact literal _
  · exact forward_skip.bind fun _ => forward_pure _
  · exact forward_groupingWith h
  · exact forward_refuse _

private theorem forward_unaryWith (h : ∀ inner ∈ deeper, ∀ p, Forward (inner p)) :
    Forward (unaryWith deeper) := by
  refine (forward_accept _).bind ?_
  rintro (_ | operator)
  · exact forward_primaryWith h
  · exact (Forward.nested fun inner hi => h inner hi _).bind fun _ => forward_pure _

private theorem forward_assignmentWith (h : ∀ inner ∈ deeper, ∀ p, Forward (inner p)) :
    Forward (assignmentWith deeper) := by
  have factor := forward_leftAssoc Precedence.factor.operators (forward_unaryWith h)
  have term := forward_leftAssoc Precedence.term.operators factor
  have comparison := forward_leftAssoc Precedence.comparison.operators term
  have equality := forward_leftAssoc Precedence.equality.operators comparison
  refine equality.bind fun target => (forward_accept _).bind ?_
  rintro (_ | equals)
  · exact forward_pure _
  · refine (Forward.nested fun inner hi => h inner hi _).bind fun value => ?_
    split
    · exact forward_pure _
    · exact (forward_note _).bind fun _ => forward_pure _

private theorem forward_expressionWith (h : ∀ inner ∈ deeper, ∀ p, Forward (inner p))
    (p : Precedence) : Forward (expressionWith deeper p) := by
  have factor := forward_leftAssoc Precedence.factor.operators (forward_unaryWith h)
  have term := forward_leftAssoc Precedence.term.operators factor
  have comparison := forward_leftAssoc Precedence.comparison.operators term
  cases p with
  | default => exact forward_assignmentWith h
  | assignment => exact forward_assignmentWith h
  | equality => exact forward_leftAssoc _ comparison
  | comparison => exact comparison
  | term => exact term
  | factor => exact factor
  | unary => exact forward_unaryWith h
  | primary => exact forward_primaryWith h

end Expression

theorem forward_expression (room : Nat) (p : Precedence) : Forward (expression room p) := by
  induction room generalizing p with
  | zero => exact forward_expressionWith (by simp) p
  | succ room ih =>
    refine forward_expressionWith ?_ p
    rintro _ ⟨⟩ q
    exact ih q

theorem forward_of_mem_deeper (room : Nat) :
    ∀ inner ∈ deeper room, ∀ p, Forward (inner p) := by
  intro inner hi p
  cases room with
  | zero => cases hi
  | succ room =>
    cases hi
    exact forward_expression room p

theorem forward_grouping (room : Nat) : Forward (grouping room) :=
  forward_groupingWith (forward_of_mem_deeper room)

theorem forward_binary (room : Nat) (p : Precedence) : Forward (binary room p) :=
  forward_leftAssoc _ (forward_expression room p.next)

/-! ### Statements -/

section Statement

variable {rules : Rules} {expr : Parse Expr} {deeper : Option (Parse (Option Stmt))}

theorem forward_terminated (he : Forward expr) (message : String) (f : Expr → Stmt) :
    Forward (expr >>= fun e => expect .semicolon message >>= fun _ => pure (f e)) :=
  he.bind fun _ => (forward_expect _ _).bind fun _ => forward_pure _

theorem forward_initializerWith (he : Forward expr) : Forward (initializerWith expr) := by
  refine (forward_accept _).bind ?_
  rintro (_ | equals)
  · exact forward_pure _
  · exact he.bind fun _ => forward_pure _

theorem forward_varDecl (he : Forward expr) :
    Forward (expect .identifier "Expect variable name." >>= fun name =>
      initializerWith expr >>= fun initializer =>
        expect .semicolon "Expect ';' after variable declaration." >>= fun _ =>
          pure (Stmt.varDecl name initializer)) :=
  (forward_expect _ _).bind fun _ => (forward_initializerWith he).bind fun _ =>
    (forward_expect _ _).bind fun _ => forward_pure _

theorem forward_block {declaration : Parse (Option Stmt)} (hd : Forward declaration) :
    Forward (many (do
      if (← isAt [.closeCurly]) || (← atEnd) then return none else return some (← declaration))
      >>= fun body => expect .closeCurly "Expect '\x7d' after block." >>= fun _ =>
        pure (Stmt.block body.reduceOption)) := by
  refine Forward.bind (Forward.many ?_) fun _ => (forward_expect _ _).bind fun _ => forward_pure _
  refine (forward_isAt _).bind fun _ => forward_atEnd.bind fun _ => ?_
  split
  · exact forward_pure _
  · exact hd.bind fun _ => forward_pure _

theorem forward_ruledWith (he : Forward expr) (hd : ∀ inner ∈ deeper, Forward inner)
    (rule : StatementRule) : Forward (ruledWith expr deeper rule) := by
  cases rule with
  | statement => exact forward_terminated he _ _
  | print => exact forward_skip.bind fun _ => forward_terminated he _ _
  | varDecl => exact forward_skip.bind fun _ => forward_varDecl he
  | block =>
    exact Forward.nested fun inner hi => forward_skip.bind fun _ => forward_block (hd inner hi)

private theorem forward_ruleWith (he : Forward expr) (hd : ∀ inner ∈ deeper, Forward inner)
    (rule : StatementRule) : Forward (ruleWith rules expr deeper rule) := by
  have ruled := forward_ruledWith he hd
  cases rule with
  | statement => exact forward_here.bind fun token => ruled _
  | print => exact ruled _
  | varDecl => exact ruled _
  | block => exact ruled _

private theorem forward_declarationWith (he : Forward expr)
    (hd : ∀ inner ∈ deeper, Forward inner) : Forward (declarationWith rules expr deeper) := by
  refine forward_here.bind fun token => (forward_ruleWith he hd _).noting.bind ?_
  rintro (_ | stmt)
  · exact forward_synchronize.bind fun _ => forward_pure _
  · exact forward_pure _

end Statement

theorem forward_declaration (rules : Rules) (room : Nat) : Forward (declaration rules room) := by
  induction room with
  | zero => exact forward_declarationWith (forward_expression _ _) (by simp)
  | succ room ih =>
    refine forward_declarationWith (forward_expression _ _) ?_
    rintro _ ⟨⟩
    exact ih

theorem forward_statement (rules : Rules) (room : Nat) (rule : StatementRule) :
    Forward (statement rules room rule) := by
  refine forward_ruleWith (forward_expression _ _) ?_ rule
  intro inner hi
  cases room with
  | zero => cases hi
  | succ room =>
    cases hi
    exact forward_declaration rules room

theorem forward_program (rules : Rules) (room : Nat) : Forward (program rules room) := by
  refine Forward.bind (Forward.many (forward_atEnd.bind fun _ => ?_)) fun _ => forward_pure _
  split
  · exact forward_pure _
  · exact (forward_declaration rules room).bind fun _ => forward_pure _

theorem forward_line (room : Nat) : Forward (line room) :=
  (forward_expression room .default).noting

end Parse

end Lox
