import Lox.Cursor
import Lox.Parse.Expression
import Lox.Parse.Rules

/-!
# Parsers with a state

A parser is a state: the tokens and the number of the current one, the number of open levels, the
errors reported so far, and the rules.  A production changes it step by step (`Parser.Run`), and
ends with a value or with an error that is handed to whoever asked for it.  It may also never come
to an end, or look at a token that is not there; then it has no result at all.
-/

namespace Lox

structure Parser where
  tokens : List Token
  /-- The number of the current token, counted from 0. -/
  pos : Nat := 0
  /-- The number of open levels. -/
  depth : Nat := 0
  errors : List Diagnostic := []
  rules : Rules := .standard

namespace Parser

def ofStream (s : TokenStream) : Parser :=
  { tokens := s.toList }

variable {α β : Type}

/-- What is read, or the error that it ends with. -/
abbrev Run (α : Type) : Type :=
  ExceptT Diagnostic (StateT Parser Option) α

/-- The result, with the state behind it. -/
def Run.exec (p : Run α) (s : Parser) : Option (Except Diagnostic α × Parser) :=
  p.run.run s

/-! ### Single tokens -/

def current : Run Token := do
  let s ← get
  s.tokens[s.pos]?

/-- The token passed last; before anything is passed, the current one. -/
def previous : Run Token := do
  let s ← get
  s.tokens[s.pos - 1]?

def atEnd : Run Bool := do
  return (← current).kind = .eof

/-- Passes the current token, and gives it; at the end it stays. -/
def advance : Run Token := do
  unless ← atEnd do
    modify fun s => { s with pos := s.pos + 1 }
  previous

def check (kind : TokenKind) : Run Bool := do
  if ← atEnd then return false
  return (← current).kind = kind

/-- Passes the current token if it has one of the kinds. -/
def matchKinds (kinds : List TokenKind) : Run Bool := do
  if ← kinds.anyM check then
    let _ ← advance
    return true
  return false

def expect (kind : TokenKind) (message : String) : Run Token := do
  if ← check kind then
    return ← advance
  throw (.atToken (.expectedToken kind.text message) (← current))

/-! ### Errors -/

def report (d : Diagnostic) : Run Unit :=
  modify fun s => { s with errors := s.errors ++ [d] }

/-- Gives the result of a production, be it a value or an error. -/
@[reducible]
def attempt (p : Run α) : Run (Except Diagnostic α) :=
  (Except.ok <$> p.run : StateT Parser Option (Except Diagnostic (Except Diagnostic α)))

/-- Goes on until the token just passed is a semicolon or the current one has one of the kinds. -/
def toBoundary : ReaderT (List TokenKind) Run Unit := fun starts => do
  if ← atEnd then return
  if (← previous).kind = .semicolon then return
  if (← current).isOneOf starts then return
  let _ ← advance
  toBoundary.run starts
partial_fixpoint

/-- Passes the current token and goes on to the next statement boundary. -/
def synchronize : Run Unit := do
  let _ ← advance
  toBoundary Cursor.statementStarts

/-! ### Levels -/

/-- Opens a level, or ends with an error if there is none left. -/
def enter : Run Unit := do
  if Parse.maxNesting ≤ (← get).depth then
    throw (.atToken .tooDeeplyNested (← current))
  modify fun s => { s with depth := s.depth + 1 }

/-- Closes a level.  There must be one. -/
def leave : Run Unit := do
  let s ← get
  match s.depth with
  | 0 => (none : Option Unit)
  | depth + 1 => set { s with depth }

/-- Runs a production one level deeper.  The level is closed behind a value and behind an error. -/
@[reducible]
def nested (p : Run α) : Run α := do
  enter
  let result ← attempt p
  leave
  liftExcept result

/-- Opens `levels` levels, one after the other, around a production. -/
def within : (levels : Nat) → Run α → Run α
  | 0, p => p
  | levels + 1, p => nested (within levels p)

/-! ### Execution -/

theorem exec_pure (a : α) (s : Parser) : (pure a : Run α).exec s = some (.ok a, s) := rfl

theorem exec_get (s : Parser) : (get : Run Parser).exec s = some (.ok s, s) := rfl

theorem exec_modify (f : Parser → Parser) (s : Parser) :
    (modify f : Run Unit).exec s = some (.ok (), f s) := rfl

theorem exec_throw (d : Diagnostic) (s : Parser) :
    (throw d : Run α).exec s = some (.error d, s) := rfl

theorem exec_bind (p : Run α) (f : α → Run β) (s : Parser) :
    (p >>= f).exec s = (p.exec s).bind fun (r, t) =>
      match r with
      | .ok a => (f a).exec t
      | .error d => some (.error d, t) := by
  show (p.exec s).bind (fun (r, t) => ExceptT.bindCont f r t) = _
  congr 1
  funext ⟨r, t⟩
  cases r <;> rfl

theorem exec_bind_of_ok {p : Run α} {s t : Parser} {a : α} (h : p.exec s = some (.ok a, t))
    (f : α → Run β) : (p >>= f).exec s = (f a).exec t := by
  rw [exec_bind, h]
  rfl

theorem exec_bind_of_error {p : Run α} {s t : Parser} {d : Diagnostic}
    (h : p.exec s = some (.error d, t)) (f : α → Run β) :
    (p >>= f).exec s = some (.error d, t) := by
  rw [exec_bind, h]
  rfl

theorem exec_liftOption (o : Option α) (s : Parser) :
    (liftM o : Run α).exec s = o.map fun a => (.ok a, s) := by
  cases o <;> rfl

theorem exec_liftExcept (r : Except Diagnostic α) (s : Parser) :
    (liftExcept r : Run α).exec s = some (r, s) := by
  cases r <;> rfl

theorem exec_attempt {p : Run α} {s t : Parser} {r : Except Diagnostic α}
    (h : p.exec s = some (r, t)) : (attempt p).exec s = some (.ok r, t) := by
  show (p.exec s).bind (fun x => some (Except.ok x.1, x.2)) = _
  rw [h]
  rfl

theorem exec_current {s : Parser} {t : Token} (h : s.tokens[s.pos]? = some t) :
    current.exec s = some (.ok t, s) := by
  rw [current, exec_bind_of_ok (exec_get s)]
  refine (exec_liftOption s.tokens[s.pos]? s).trans ?_
  rw [h]
  rfl

theorem exec_previous {s : Parser} {t : Token} (h : s.tokens[s.pos - 1]? = some t) :
    previous.exec s = some (.ok t, s) := by
  rw [previous, exec_bind_of_ok (exec_get s)]
  refine (exec_liftOption s.tokens[s.pos - 1]? s).trans ?_
  rw [h]
  rfl

/-- At the innermost level nothing is opened. -/
theorem exec_nested_of_le {p : Run α} {s : Parser} {t : Token} (hs : Parse.maxNesting ≤ s.depth)
    (ht : s.tokens[s.pos]? = some t) :
    (nested p).exec s = some (.error (.atToken .tooDeeplyNested t), s) := by
  have henter : enter.exec s = some (.error (.atToken .tooDeeplyNested t), s) := by
    rw [enter, exec_bind_of_ok (exec_get s)]
    simp only [if_pos hs]
    rw [exec_bind_of_ok (exec_current ht)]
    rfl
  exact exec_bind_of_error henter _

/-- Otherwise the production is run one level deeper, and what it has opened is closed again. -/
theorem exec_nested_of_lt {p : Run α} {s t : Parser} {r : Except Diagnostic α}
    (hs : s.depth < Parse.maxNesting)
    (h : p.exec { s with depth := s.depth + 1 } = some (r, t)) (ht : t.depth = s.depth + 1) :
    (nested p).exec s = some (r, { t with depth := s.depth }) := by
  have henter : enter.exec s = some (.ok (), { s with depth := s.depth + 1 }) := by
    rw [enter, exec_bind_of_ok (exec_get s)]
    simp only [if_neg (Nat.not_le.2 hs)]
    rfl
  have hleave : leave.exec t = some (.ok (), { t with depth := s.depth }) := by
    rw [leave, exec_bind_of_ok (exec_get t), ht]
    rfl
  rw [nested, exec_bind_of_ok henter, exec_bind_of_ok (exec_attempt h), exec_bind_of_ok hleave]
  exact exec_liftExcept r _

end Parser

end Lox
