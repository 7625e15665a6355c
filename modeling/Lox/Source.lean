import Lox.Parse
import Lox.Report
import Lox.Scan

/-!
# Sources

A source is scanned and then parsed, and both hand their diagnostics to a report: all lexical errors
come before all syntax errors.  What is read does not depend on what the report held before.
-/

namespace Lox

namespace Report

def scan (r : Report) (source : String) : TokenStream × Report :=
  let s := Lox.scan source
  (s.tokens, r.absorb s.diagnostics)

def parse (r : Report) (tokens : TokenStream) : List Stmt × Report :=
  let p := tokens.parse
  (p.program, r.absorb p.diagnostics)

def parseExpression (r : Report) (tokens : TokenStream) : Option Expr × Report :=
  let (expr, diagnostics) := tokens.parseExpression
  (expr, r.absorb diagnostics)

def readProgram (r : Report) (source : String) : List Stmt × Report :=
  let (tokens, r) := r.scan source
  r.parse tokens

def readExpression (r : Report) (source : String) : Option Expr × Report :=
  let (tokens, r) := r.scan source
  r.parseExpression tokens

/-! ### Commands -/

inductive Command
  | remark (line : UInt32) (place message : String)
  | push (d : Diagnostic)
  | reset
  | scan (source : String)
  | parse (tokens : TokenStream)
  | parseExpression (tokens : TokenStream)
  | readProgram (source : String)
  | readExpression (source : String)

inductive Answer
  | done
  | tokens (tokens : TokenStream)
  | program (program : List Stmt)
  | expression (expr : Option Expr)

/-- Executes a command and gives its answer. -/
def execute (r : Report) : Command → Report × Answer
  | .remark line place message => (r.remark line place message, .done)
  | .push d => (r.push d, .done)
  | .reset => (r.reset, .done)
  | .scan source =>
    let (tokens, r) := r.scan source
    (r, .tokens tokens)
  | .parse tokens =>
    let (program, r) := r.parse tokens
    (r, .program program)
  | .parseExpression tokens =>
    let (expr, r) := r.parseExpression tokens
    (r, .expression expr)
  | .readProgram source =>
    let (program, r) := r.readProgram source
    (r, .program program)
  | .readExpression source =>
    let (expr, r) := r.readExpression source
    (r, .expression expr)

end Report

/-- What is logged when a source is scanned and parsed as a program. -/
def logOfProgram (source : String) : List LogLine :=
  let s := scan source
  s.log ++ s.tokens.parse.log

/-- What is logged when a source is scanned and parsed as an expression: of the second pass only the
diagnostics. -/
def logOfExpression (source : String) : List LogLine :=
  let s := scan source
  s.log ++ s.tokens.parseExpression.2.map (·.logLine)

end Lox
