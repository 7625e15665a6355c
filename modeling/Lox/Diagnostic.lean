import Lox.Token

/-!
# Diagnostics

A diagnostic is the cause of an error with the place where it was found.  Its wording is fixed by
the cause alone: the message, and for most causes a tip how to mend the source.
-/

namespace Lox

inductive Cause
  | unexpectedCharacter (character : Char)
  | unterminatedString
  | expectedExpression
  | expectedToken (expected message : String)
  | invalidAssignmentTarget
  | tooDeeplyNested
  | reported (message : String)
deriving DecidableEq

namespace Cause

def name : Cause → String
  | unexpectedCharacter _ => "UnexpectedCharacter"
  | unterminatedString => "UnterminatedString"
  | expectedExpression => "ExpectedExpression"
  | expectedToken _ _ => "ExpectedToken"
  | invalidAssignmentTarget => "InvalidAssignmentTarget"
  | tooDeeplyNested => "TooDeeplyNested"
  | reported _ => "Reported"

def message : Cause → String
  | unexpectedCharacter c => "Unexpected character '" ++ c.toString ++ "'."
  | unterminatedString => "Unterminated string."
  | expectedExpression => "Expect expression."
  | expectedToken _ message => message
  | invalidAssignmentTarget => "Invalid assignment target."
  | tooDeeplyNested => "Too much nesting."
  | reported message => message

def tip? : Cause → Option String
  | unexpectedCharacter c => some ("`" ++ c.toString ++ "` is not part of the language, remove it")
  | unterminatedString => some "Close the string with a `\"`"
  | expectedExpression => none
  | expectedToken expected _ => some ("Insert a `" ++ expected ++ "` here")
  | invalidAssignmentTarget => some "Only variables can be assigned to"
  | tooDeeplyNested => some "Split the code into smaller pieces"
  | reported _ => none

end Cause

/-- How the place of an error is described within its line. -/
inductive Location
  | unstated
  | atEnd
  | atLexeme (lexeme : String)
  | verbatim (text : String)
deriving DecidableEq

namespace Location

def text : Location → String
  | unstated => ""
  | atEnd => " at end"
  | atLexeme lexeme => " at '" ++ lexeme ++ "'"
  | verbatim text => text

def ofToken (t : Token) : Location :=
  if t.kind = .eof then atEnd else atLexeme t.lexeme

end Location

structure Diagnostic where
  cause : Cause
  line : UInt32
  column : Option UInt32 := none
  location : Location := .unstated
deriving DecidableEq

namespace Diagnostic

/-- A diagnostic placed at the token `t`. -/
def atToken (cause : Cause) (t : Token) : Diagnostic :=
  ⟨cause, t.line, some t.column, .ofToken t⟩

/-- A diagnostic placed at the position `p` of the text. -/
def atPosition (cause : Cause) (p : Position) : Diagnostic :=
  ⟨cause, p.line, some p.column, .unstated⟩

/-- The line, the place and the message in one line. -/
def headline (d : Diagnostic) : String :=
  "[line " ++ toString d.line ++ "] Error" ++ d.location.text ++ ": " ++ d.cause.message

end Diagnostic

end Lox
