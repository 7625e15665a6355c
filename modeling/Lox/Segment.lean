import Lox.Diagnostic

/-!
# Segments of a source

A source falls into segments: blanks, comments, the lexemes of tokens, characters that are not part
of the language, and at most one string that is never closed.  Each segment takes all it can: a row
of blanks or digits is one segment, a symbol of two characters is not two symbols.  The key facts: a
segment is never empty, so the rest is shorter (`segments_cons`), and the segments make up the
source without gaps (`flatMap_text_segments`).
-/

namespace Lox

/-- What a segment is, as its first characters decide. -/
inductive Shape
  | blank
  | comment
  | number
  | word
  | string
  | openString
  | symbol (kind : TokenKind)
  | stray
deriving DecidableEq

structure Segment where
  shape : Shape
  text : List Char
deriving DecidableEq

namespace Segment

/-! ### Cutting off the first segment -/

/-- How many characters in front satisfy `p`. -/
def run (p : Char → Bool) (cs : List Char) : Nat :=
  (cs.takeWhile p).length

def isWordStart (c : Char) : Bool :=
  c.isAlpha || c = '_'

def isWordPart (c : Char) : Bool :=
  c.isAlphanum || c = '_'

/-- How far a numeral goes on behind its first digit.  A point belongs to it only if a digit
follows. -/
def numeralTail (cs : List Char) : Nat :=
  let whole := run Char.isDigit cs
  match cs.drop whole with
  | '.' :: rest =>
    let places := run Char.isDigit rest
    if places = 0 then whole else whole + 1 + places
  | _ => whole

/-- The kind of a symbol of one character. -/
def symbolKind? : Char → Option TokenKind
  | '!' => some .not
  | '=' => some .assignment
  | '<' => some .less
  | '>' => some .greater
  | '(' => some .openParen
  | ')' => some .closeParen
  | '\x7b' => some .openCurly
  | '\x7d' => some .closeCurly
  | ',' => some .comma
  | '.' => some .dot
  | '-' => some .dash
  | '+' => some .plus
  | ';' => some .semicolon
  | '/' => some .slash
  | '*' => some .star
  | _ => none

/-- The kind of the symbol that an equals sign right behind a shorter one makes of it. -/
def withEquals? : TokenKind → Option TokenKind
  | .not => some .notEquals
  | .assignment => some .equals
  | .less => some .lessEquals
  | .greater => some .greaterEquals
  | _ => none

/-- The shape of the segment that starts with `c`, and how many characters of `cs` belong to it. -/
def cut (c : Char) (cs : List Char) : Shape × Nat :=
  if c.isWhitespace then (.blank, run Char.isWhitespace cs)
  else if c = '/' && cs.head? = some '/' then (.comment, run (· ≠ '\n') cs)
  else if c.isDigit then (.number, numeralTail cs)
  else if isWordStart c then (.word, run isWordPart cs)
  else if c = '"' then
    let body := run (· ≠ '"') cs
    if body < cs.length then (.string, body + 1) else (.openString, body)
  else
    match symbolKind? c with
    | none => (.stray, 0)
    | some kind =>
      match withEquals? kind with
      | some longer => if cs.head? = some '=' then (.symbol longer, 1) else (.symbol kind, 0)
      | none => (.symbol kind, 0)

/-! ### All segments -/

def segments : List Char → List Segment
  | [] => []
  | c :: cs => ⟨(cut c cs).1, c :: cs.take (cut c cs).2⟩ :: segments (cs.drop (cut c cs).2)
termination_by cs => cs.length
decreasing_by simp only [List.length_drop, List.length_cons]; omega

@[simp] theorem segments_nil : segments [] = [] := by
  rw [segments]

theorem segments_cons (c : Char) (cs : List Char) :
    segments (c :: cs) =
      ⟨(cut c cs).1, c :: cs.take (cut c cs).2⟩ :: segments (cs.drop (cut c cs).2) := by
  rw [segments]

theorem flatMap_text_segments (cs : List Char) : (segments cs).flatMap text = cs := by
  fun_induction segments cs with
  | case1 => rfl
  | case2 c cs ih => simp [ih]

/-! ### Places -/

/-- Where a segment that begins at `p` is reported: on its last line, in column 1 if that is not its
first. -/
def place (s : Segment) (p : Place) : Place :=
  ⟨(p.after s.text).line, if '\n' ∈ s.text then 1 else p.column⟩

/-- The segments with their places, the first one beginning at `p`. -/
def placed (p : Place) : List Segment → List (Place × Segment)
  | [] => []
  | s :: ss => (s.place p, s) :: placed (p.after s.text) ss

/-! ### Tokens and diagnostics -/

def lexeme (s : Segment) : String :=
  String.ofList s.text

/-- The token a segment stands for, reported at `p`. -/
def token? (p : Position) (s : Segment) : Option Token :=
  match s.shape with
  | .number =>
    some ⟨p, .number, s.lexeme, some (.number (Number.ofDecimal (.ofNumeral s.text)))⟩
  | .word => some ⟨p, (TokenKind.keyword? s.lexeme).getD .identifier, s.lexeme, none⟩
  | .string =>
    some ⟨p, .string, s.lexeme, some (.string (String.ofList (s.text.drop 1).dropLast))⟩
  | .symbol kind => some ⟨p, kind, s.lexeme, none⟩
  | .blank | .comment | .openString | .stray => none

/-- The diagnostic for a segment that is not part of the language, reported at `p`. -/
def diagnostic? (p : Position) (s : Segment) : Option Diagnostic :=
  match s.shape, s.text with
  | .stray, c :: _ => some (.atPosition (.unexpectedCharacter c) p)
  | .openString, _ => some (.atPosition .unterminatedString p)
  | _, _ => none

end Segment

end Lox
