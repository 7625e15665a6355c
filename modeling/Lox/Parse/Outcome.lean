import Lox.Cursor
import Lox.Log

/-!
# Outcomes of productions

A production reads tokens from a cursor.  It ends with a value or with a fault, at a new cursor, and
leaves notes on what was reported or skipped on the way; the notes stay if it ends with a fault.  A
fault keeps the token it was found at, from which the diagnostic is made.  A parser that changes a
state step by step does the same (`Frame.Simulates`).
-/

namespace Lox

/-- An error in the syntax, found at the token of `site`. -/
structure Fault where
  cause : Cause
  site : Site
deriving DecidableEq

def Fault.diagnostic (f : Fault) : Diagnostic :=
  .atToken f.cause f.site.token

inductive Note
  | fault (f : Fault)
  | synchronized (start stop : Nat) (line : UInt32)
deriving DecidableEq

namespace Note

def fault? : Note → Option Fault
  | fault f => some f
  | synchronized .. => none

/-- Faults are logged when they are handed to a report, not when they are noted. -/
def logLine? : Note → Option LogLine
  | fault _ => none
  | synchronized start stop line =>
    some ⟨.debug, "synchronized from token " ++ toString start ++ " to token " ++ toString stop ++
      " (line " ++ toString line ++ ")"⟩

def faults (notes : List Note) : List Fault :=
  notes.filterMap fault?

def diagnostics (notes : List Note) : List Diagnostic :=
  (faults notes).map Fault.diagnostic

end Note

structure Outcome (α : Type) where
  result : Except Fault α
  cursor : Cursor
  notes : List Note

/-- A production of the grammar. -/
def Parse (α : Type) : Type := Cursor → Outcome α

namespace Parse

variable {α β : Type}

protected def pure (a : α) : Parse α :=
  fun c => ⟨.ok a, c, []⟩

protected def bind (p : Parse α) (f : α → Parse β) : Parse β :=
  fun c =>
    match p c with
    | ⟨.ok a, c, notes⟩ =>
      let o := f a c
      ⟨o.result, o.cursor, notes ++ o.notes⟩
    | ⟨.error e, c, notes⟩ => ⟨.error e, c, notes⟩

instance : Monad Parse where
  pure := Parse.pure
  bind := Parse.bind

theorem pure_apply (a : α) (c : Cursor) : (pure a : Parse α) c = ⟨.ok a, c, []⟩ := rfl

theorem bind_apply_of_ok {p : Parse α} {f : α → Parse β} {c c' : Cursor} {a : α}
    {notes : List Note}
    (h : p c = ⟨.ok a, c', notes⟩) :
    (p >>= f) c = ⟨(f a c').result, (f a c').cursor, notes ++ (f a c').notes⟩ := by
  show Parse.bind p f c = _
  simp [Parse.bind, h]

theorem bind_apply_of_error {p : Parse α} {f : α → Parse β} {c c' : Cursor} {e : Fault}
    {notes : List Note}
    (h : p c = ⟨.error e, c', notes⟩) : (p >>= f) c = ⟨.error e, c', notes⟩ := by
  show Parse.bind p f c = _
  simp [Parse.bind, h]

private theorem id_map_parse (p : Parse α) : id <$> p = p := by
  funext c
  rcases h : p c with ⟨e | a, d, notes⟩
  · exact bind_apply_of_error h
  · exact (bind_apply_of_ok h).trans (congrArg (Outcome.mk _ d) (List.append_nil notes))

private theorem bind_assoc_parse {γ : Type} (p : Parse α) (f : α → Parse β) (g : β → Parse γ) :
    p >>= f >>= g = p >>= fun a => f a >>= g := by
  funext c
  rcases h : p c with ⟨e | a, d, notes⟩
  · rw [bind_apply_of_error (bind_apply_of_error h), bind_apply_of_error h]
  · have hpf := bind_apply_of_ok (f := f) h
    rw [bind_apply_of_ok h]
    rcases hf : f a d with ⟨e | b, d', notes'⟩ <;> rw [hf] at hpf
    · rw [bind_apply_of_error hf, bind_apply_of_error hpf]
    · rw [bind_apply_of_ok hf, bind_apply_of_ok hpf, List.append_assoc]

instance : LawfulMonad Parse :=
  .mk' Parse id_map_parse (fun _ _ => rfl) bind_assoc_parse

/-! ### Single tokens -/

/-- Looks at the current token. -/
def here : Parse Token :=
  fun c => ⟨.ok c.current, c, []⟩

/-- Passes the current token, whatever it is. -/
def skip : Parse Unit :=
  fun c => ⟨.ok (), c.advance, []⟩

def isAt (kinds : List TokenKind) : Parse Bool :=
  fun c => ⟨.ok (c.isAt kinds), c, []⟩

def atEnd : Parse Bool :=
  fun c => ⟨.ok c.atEnd, c, []⟩

/-- Passes the current token if it has one of the kinds. -/
def accept (kinds : List TokenKind) : Parse (Option Site) :=
  fun c => if c.isAt kinds then ⟨.ok (some c.site), c.advance, []⟩ else ⟨.ok none, c, []⟩

/-! ### Faults -/

/-- Ends with a fault at the current token. -/
def refuse (cause : Cause) : Parse α :=
  fun c => ⟨.error ⟨cause, c.site⟩, c, []⟩

/-- Notes a fault and goes on. -/
def note (f : Fault) : Parse Unit :=
  fun c => ⟨.ok (), c, [.fault f]⟩

/-- Passes a token of the given kind. -/
def expect (kind : TokenKind) (message : String) : Parse Token := do
  match ← accept [kind] with
  | some site => return site.token
  | none => refuse (.expectedToken kind.text message)

/-- Gives the result of a production, be it a value or a fault. -/
def attempt (p : Parse α) : Parse (Except Fault α) :=
  fun c =>
    let o := p c
    ⟨.ok o.result, o.cursor, o.notes⟩

/-- Turns a fault into a note and the missing value. -/
def noting (p : Parse α) : Parse (Option α) := do
  match ← attempt p with
  | .ok a => return some a
  | .error f => do
    note f
    return none

/-- Goes on to the next statement boundary. -/
def synchronize : Parse Unit :=
  fun c =>
    let d := c.synchronize
    ⟨.ok (), d, [.synchronized c.index d.index d.current.line]⟩

/-! ### Repetition and nesting -/

/-- Repeats a production until it gives nothing.  It also ends when no token was passed, which no
production below does without giving nothing. -/
def many (p : Parse (Option α)) (c : Cursor) : Outcome (List α) :=
  match p c with
  | ⟨.ok (some a), d, notes⟩ =>
    if d.rest.length < c.rest.length then
      let o := many p d
      ⟨o.result.map (a :: ·), o.cursor, notes ++ o.notes⟩
    else ⟨.ok [a], d, notes⟩
  | ⟨.ok none, d, notes⟩ => ⟨.ok [], d, notes⟩
  | ⟨.error f, d, notes⟩ => ⟨.error f, d, notes⟩
termination_by c.rest.length

/-- Runs a production one level deeper.  `deeper` holds what is read there, or nothing if no level
is left. -/
def nested (deeper : Option β) (p : β → Parse α) : Parse α :=
  match deeper with
  | some inner => p inner
  | none => refuse .tooDeeplyNested

/-- Opens `levels` levels around a production, when `room` further levels may be opened. -/
def within (p : (room : Nat) → Parse α) : (levels room : Nat) → Parse α
  | 0, room => p room
  | _ + 1, 0 => refuse .tooDeeplyNested
  | levels + 1, room + 1 => within p levels room

end Parse

end Lox
