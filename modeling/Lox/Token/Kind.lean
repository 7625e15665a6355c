/-!
# Kinds of tokens

The kinds a token can have, each with the name it is logged under and the text it stands for.  The
key facts: no kind is missing from `TokenKind.all` (`mem_all`), kinds with the same name are equal
(`name_injective`), and a word is reserved exactly when it is the text of a keyword
(`keyword?_eq_some_iff`), as the table of reserved words has it (`lookup_reserved`).
-/

namespace Lox

inductive TokenKind
  | eof | number | string | identifier
  | openParen | closeParen | openCurly | closeCurly
  | comma | dot | semicolon
  | dash | plus | slash | star
  | not | notEquals | assignment | equals
  | greater | greaterEquals | less | lessEquals
  | kwAnd | kwClass | kwElse | kwFalse | kwFun | kwFor | kwIf | kwNil
  | kwOr | kwPrint | kwReturn | kwSuper | kwThis | kwTrue | kwVar | kwWhile
deriving DecidableEq

namespace TokenKind

def all : List TokenKind :=
  [eof, number, string, identifier,
   openParen, closeParen, openCurly, closeCurly,
   comma, dot, semicolon,
   dash, plus, slash, star,
   not, notEquals, assignment, equals,
   greater, greaterEquals, less, lessEquals,
   kwAnd, kwClass, kwElse, kwFalse, kwFun, kwFor, kwIf, kwNil,
   kwOr, kwPrint, kwReturn, kwSuper, kwThis, kwTrue, kwVar, kwWhile]

def keywords : List TokenKind :=
  [kwAnd, kwClass, kwElse, kwFalse, kwFun, kwFor, kwIf, kwNil,
   kwOr, kwPrint, kwReturn, kwSuper, kwThis, kwTrue, kwVar, kwWhile]

/-- The name a kind is logged under. -/
def name : TokenKind → String
  | eof => "EOF"
  | number => "Number"
  | string => "String"
  | identifier => "Identifier"
  | openParen => "OpenParen"
  | closeParen => "CloseParen"
  | openCurly => "OpenCurly"
  | closeCurly => "CloseCurly"
  | comma => "Comma"
  | dot => "Dot"
  | semicolon => "Semicolon"
  | dash => "Dash"
  | plus => "Plus"
  | slash => "Slash"
  | star => "Star"
  | not => "Not"
  | notEquals => "NotEquals"
  | assignment => "Assignment"
  | equals => "Equals"
  | greater => "Greater"
  | greaterEquals => "GreaterEquals"
  | less => "Less"
  | lessEquals => "LessEquals"
  | kwAnd => "And"
  | kwClass => "Class"
  | kwElse => "Else"
  | kwFalse => "False"
  | kwFun => "Fun"
  | kwFor => "For"
  | kwIf => "If"
  | kwNil => "Nil"
  | kwOr => "Or"
  | kwPrint => "Print"
  | kwReturn => "Return"
  | kwSuper => "Super"
  | kwThis => "This"
  | kwTrue => "True"
  | kwVar => "Var"
  | kwWhile => "While"

/-- The source text of a fixed token; for the other kinds, what their lexemes are called. -/
def text : TokenKind → String
  | eof => "end of input"
  | number => "number"
  | string => "string"
  | identifier => "identifier"
  | openParen => "("
  | closeParen => ")"
  | openCurly => "\x7b"
  | closeCurly => "\x7d"
  | comma => ","
  | dot => "."
  | semicolon => ";"
  | dash => "-"
  | plus => "+"
  | slash => "/"
  | star => "*"
  | not => "!"
  | notEquals => "!="
  | assignment => "="
  | equals => "=="
  | greater => ">"
  | greaterEquals => ">="
  | less => "<"
  | lessEquals => "<="
  | kwAnd => "and"
  | kwClass => "class"
  | kwElse => "else"
  | kwFalse => "false"
  | kwFun => "fun"
  | kwFor => "for"
  | kwIf => "if"
  | kwNil => "nil"
  | kwOr => "or"
  | kwPrint => "print"
  | kwReturn => "return"
  | kwSuper => "super"
  | kwThis => "this"
  | kwTrue => "true"
  | kwVar => "var"
  | kwWhile => "while"

/-- The keyword a word is reserved for. -/
def keyword? (word : String) : Option TokenKind :=
  keywords.find? (·.text = word)

/-- The reserved words, each with the kind of its tokens. -/
def reserved : List (String × TokenKind) :=
  [("and", kwAnd), ("class", kwClass), ("else", kwElse), ("false", kwFalse), ("fun", kwFun),
   ("for", kwFor), ("if", kwIf), ("nil", kwNil), ("or", kwOr), ("print", kwPrint),
   ("return", kwReturn), ("super", kwSuper), ("this", kwThis), ("true", kwTrue), ("var", kwVar),
   ("while", kwWhile)]

theorem mem_all (k : TokenKind) : k ∈ all := by
  cases k <;> decide

theorem name_injective {k l : TokenKind} (h : k.name = l.name) : k = l := by
  have key : ∀ k ∈ all, ∀ l ∈ all, k.name = l.name → k = l := by decide
  exact key k (mem_all k) l (mem_all l) h

theorem keyword?_eq_some_iff {word : String} {k : TokenKind} :
    keyword? word = some k ↔ k ∈ keywords ∧ k.text = word := by
  constructor
  · intro h
    exact ⟨List.mem_of_find?_eq_some h, by simpa using List.find?_some h⟩
  · rintro ⟨hk, rfl⟩
    have key : ∀ k ∈ keywords, keyword? k.text = some k := by decide
    exact key k hk

/-- In a table of kinds by their texts a word is found where it is the text of a kind. -/
private theorem lookup_map_text (kinds : List TokenKind) (word : String) :
    (kinds.map fun k => (k.text, k)).lookup word = kinds.find? (·.text = word) := by
  induction kinds with
  | nil => rfl
  | cons k kinds ih =>
    by_cases h : k.text = word
    · simp [h]
    · have hne : (word == k.text) = false := by simpa using Ne.symm h
      simp [List.lookup_cons, h, hne, ih]

/-- The table of reserved words agrees with the texts of the keywords. -/
theorem lookup_reserved (word : String) : reserved.lookup word = keyword? word :=
  lookup_map_text keywords word

end TokenKind

end Lox
