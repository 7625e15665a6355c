import Lox.Diagnostic
import Lox.Token.Stream

/-!
# Cursors

A cursor stands at a token of a stream.  It moves forward only, and not beyond the first
end-of-input token, so the tokens behind that one cannot be reached and are left out.  Cursors are
ordered: `c ≤ d` if `d` stands at or behind `c` in the same stream.  The key facts: `advance` and
`synchronize` move forward (`le_advance`, `le_synchronize`), and moving forward does not change what
is read (`tokens_eq_of_le`).
-/

namespace Lox

/-- A token with its number in the stream, counted from 0. -/
structure Site where
  token : Token
  index : Nat
deriving DecidableEq

/-- The tokens already passed, the last one first; those that are left before the end-of-input token
`eof`; and `eof` itself. -/
structure Cursor where
  passed : List Token
  rest : List Token
  eof : Token
deriving DecidableEq

/-- The cursor at the first token of a stream. -/
def TokenStream.cursor (s : TokenStream) : Cursor where
  passed := []
  rest := s.body.takeWhile (·.kind ≠ .eof)
  eof := (s.body.find? (·.kind = .eof)).getD s.last

namespace Cursor

/-- All tokens up to the first end-of-input token. -/
def tokens (c : Cursor) : List Token :=
  c.passed.reverse ++ c.rest ++ [c.eof]

/-- The number of the current token. -/
def index (c : Cursor) : Nat :=
  c.passed.length

def current (c : Cursor) : Token :=
  c.rest.headD c.eof

def site (c : Cursor) : Site :=
  ⟨c.current, c.index⟩

/-- The token passed last; before anything is passed, the current one. -/
def previous (c : Cursor) : Token :=
  c.passed.headD c.current

def atEnd (c : Cursor) : Bool :=
  c.rest.isEmpty

/-- Whether the current token has one of the kinds; at the end it has none. -/
def isAt (c : Cursor) (kinds : List TokenKind) : Bool :=
  c.rest.head?.any (·.isOneOf kinds)

/-- Passes the current token; at the end it stays. -/
def advance (c : Cursor) : Cursor :=
  match c.rest with
  | [] => c
  | t :: rest => { c with passed := t :: c.passed, rest }

/-! ### Statement boundaries -/

/-- The kinds of tokens that begin a declaration or a statement. -/
def statementStarts : List TokenKind :=
  [.kwClass, .kwFun, .kwVar, .kwFor, .kwIf, .kwWhile, .kwPrint, .kwReturn]

/-- Goes on until the token just passed is a semicolon or the current one begins a statement. -/
def toBoundary (passed rest : List Token) (eof : Token) : Cursor :=
  match rest with
  | [] => ⟨passed, [], eof⟩
  | t :: rest =>
    if passed.head?.any (·.kind = .semicolon) || t.isOneOf statementStarts then
      ⟨passed, t :: rest, eof⟩
    else toBoundary (t :: passed) rest eof

/-- Passes the current token and goes on to the next statement boundary. -/
def synchronize (c : Cursor) : Cursor :=
  match c.rest with
  | [] => c
  | t :: rest => toBoundary (t :: c.passed) rest c.eof

/-! ### The order of cursors -/

instance : LE Cursor where
  le c d := ∃ ts, c.rest = ts ++ d.rest ∧ d.passed = ts.reverse ++ c.passed ∧ d.eof = c.eof

theorem le_refl (c : Cursor) : c ≤ c :=
  ⟨[], rfl, rfl, rfl⟩

theorem le_trans {c d e : Cursor} (h : c ≤ d) (k : d ≤ e) : c ≤ e := by
  obtain ⟨ts, h₁, h₂, h₃⟩ := h
  obtain ⟨us, k₁, k₂, k₃⟩ := k
  exact ⟨ts ++ us, by simp [h₁, k₁], by simp [h₂, k₂], k₃.trans h₃⟩

theorem tokens_eq_of_le {c d : Cursor} (h : c ≤ d) : d.tokens = c.tokens := by
  obtain ⟨ts, h₁, h₂, h₃⟩ := h
  simp [tokens, h₁, h₂, h₃]

theorem index_le_of_le {c d : Cursor} (h : c ≤ d) : c.index ≤ d.index := by
  obtain ⟨ts, _, h₂, _⟩ := h
  simp [index, h₂]

/-- Passing one token is a move forward. -/
private theorem le_of_rest_eq_cons {c : Cursor} {t : Token} {rest : List Token}
    (h : c.rest = t :: rest) :
    c ≤ ⟨t :: c.passed, rest, c.eof⟩ :=
  ⟨[t], h, rfl, rfl⟩

theorem le_advance (c : Cursor) : c ≤ c.advance := by
  unfold advance
  split
  · exact le_refl c
  · next h => exact le_of_rest_eq_cons h

private theorem le_toBoundary (passed rest : List Token) (eof : Token) :
    (⟨passed, rest, eof⟩ : Cursor) ≤ toBoundary passed rest eof := by
  induction rest generalizing passed with
  | nil => exact le_refl _
  | cons t rest ih =>
    unfold toBoundary
    split
    · exact le_refl _
    · exact le_trans (le_of_rest_eq_cons rfl) (ih (t :: passed))

/-- The current token is left behind. -/
theorem advance_le_synchronize (c : Cursor) : c.advance ≤ c.synchronize := by
  unfold advance synchronize
  split
  · exact le_refl c
  · exact le_toBoundary ..

theorem le_synchronize (c : Cursor) : c ≤ c.synchronize :=
  le_trans c.le_advance c.advance_le_synchronize

end Cursor

end Lox
